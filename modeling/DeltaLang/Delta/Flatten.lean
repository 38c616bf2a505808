import DeltaLang.Delta.Apply
import DeltaLang.Delta.Product

/-!
# Deriving a product

Flattening checks the list of deltas, applies them one after the other, and composes every class.
A faulty list fails before anything is applied, and a delta with a structural error fails at once;
findings of the composition are returned along with the derived model.
-/

namespace DeltaLang

/-- The derived model and the findings of its composition. -/
structure Flattened where
  model : Model
  findings : Diagnostics
deriving DecidableEq

/-- Why a product could not be derived. -/
structure FlattenError where
  product : Option String
  findings : Diagnostics
deriving DecidableEq

def FlattenError.message (e : FlattenError) : String :=
  (match e.product with
    | some p => "flattening product " ++ p ++ " failed"
    | none => "flattening failed") ++
    " with " ++ toString e.findings.errorCount ++ " error(s)"

namespace Model

/-! ## The list of deltas -/

/-- Looks up a list of delta names, none of which may repeat one before it; `seen` holds those. -/
def listedDeltas (t : SymbolTable) :
    List String → List String → List (Entry DeltaDecl) × Diagnostics
  | _, [] => ([], [])
  | seen, name :: names =>
    let (found, ds) := listedDeltas t (name :: seen) names
    if name ∈ seen then
      (found, .errorAt .invalidDeltaOrder ("delta " ++ name ++ " is listed more than once") none
        :: ds)
    else
      match t.deltas.resolve none name with
      | .ok e => (e :: found, ds)
      | .error .unresolved =>
        (found, .errorAt .unknownDelta ("delta " ++ name ++ " is not declared") none :: ds)
      | .error e =>
        (found, .errorAt .ambiguousName ("delta " ++ name ++ " is " ++ e.text) none :: ds)

/-- The constraints that a list of deltas breaks. -/
def brokenConstraints (ds : List DeltaDecl) : Diagnostics :=
  (DeltaOrder.edges ds).filterMap fun (before, after) =>
    if after < before then
      (ds[before]?).bind fun b => (ds[after]?).map fun a =>
        .errorAt .invalidDeltaOrder
          ("delta " ++ b.name ++ " must be applied before delta " ++ a.name) a.loc
    else none

/-- The deltas of a list, if it is valid: every name means one delta, none is repeated, and the
list keeps all constraints. -/
def validateDeltas (m : Model) (names : List String) :
    Except Diagnostics (List (Entry DeltaDecl)) :=
  let (found, ds) := listedDeltas (SymbolTable.ofModel m) [] names
  if ds.isEmpty then
    let decls := found.map (·.decl)
    match DeltaOrder.order decls with
    | .error cycle =>
      .error [.errorAt .cyclicDeltaOrder
        ("delta ordering constraints form a cycle among: " ++ ", ".intercalate cycle) none]
    | .ok _ =>
      let broken := brokenConstraints decls
      if broken.isEmpty then .ok found else .error broken
  else .error ds

/-! ## Composition of all classes -/

/-- Resolves traits in order; what one of them makes known serves the next. -/
def resolveTraits (t : SymbolTable) (r : Resolver) : Resolver × Diagnostics :=
  t.traits.foldl (fun (r, ds) e =>
    let res := t.resolveTrait e r
    (res.resolver, ds ++ res.findings)) (r, [])

/-- The composed methods of classes in order, by the path of the class. -/
def composeAll (t : SymbolTable) : List (Entry ClassDecl) → Resolver →
    List (DeclPath × List Method) × Diagnostics
  | [], _ => ([], [])
  | e :: es, r =>
    let res := t.composeClass e.module e.decl r
    let (rest, ds) := composeAll t es res.resolver
    ((e.path, res.set.methods) :: rest, res.findings ++ ds)

/-- The model with every class composed.  Traits are resolved first, so that the findings of each
are reported once and before those of the classes. -/
def composeClasses (m : Model) : Flattened :=
  let t := SymbolTable.ofModel m
  let (r, traitFindings) := resolveTraits t .fresh
  let (composed, classFindings) := composeAll t t.classes r
  ⟨m.mapClasses fun e =>
      { e.decl with methods := (composed.lookup e.path).getD [], uses := [] },
    traitFindings ++ classFindings⟩

/-! ## Flattening -/

/-- Applies deltas one after the other, up to the first that fails. -/
def applyDeltas (m : Model) : List (Entry DeltaDecl) → Except Diagnostics Model
  | [] => .ok m
  | e :: es =>
    let (m', ds) := m.applyDelta e.module e.decl
    if ds.isEmpty then applyDeltas m' es else .error ds

/-- The product that a configuration describes. -/
def flatten (m : Model) (config : ProductConfig) : Except FlattenError Flattened :=
  match (do m.applyDeltas (← m.validateDeltas config.deltas) : Except Diagnostics Model) with
  | .ok derived => .ok derived.composeClasses
  | .error ds => .error ⟨config.product, ds⟩

end Model

end DeltaLang
