import DeltaLang.Diagnostic
import DeltaLang.Names.Lookup

/-!
# Declarations and references of a model

Module names must differ, and so must the names of declarations of one kind in a module.  Names
that base declarations refer to must resolve to exactly one declaration.  Names inside the
operations of a delta are not looked at here, since earlier deltas may add what they refer to.
-/

namespace DeltaLang

namespace Check

/-! ## Repeated declarations -/

/-- The elements whose key is in `seen` or occurs earlier in the list. -/
def repeated {α κ : Type} [DecidableEq κ] (key : α → κ) : List κ → List α → List α
  | _, [] => []
  | seen, x :: xs =>
    if key x ∈ seen then x :: repeated key seen xs else repeated key (key x :: seen) xs

def duplicateModules (m : Model) : Diagnostics :=
  (repeated Module.name [] m.modules).map fun module =>
    .errorAt .duplicateModule ("module " ++ module.name ++ " is declared more than once")
      module.loc

def duplicateDeclarations (module : Module) : Diagnostics :=
  (repeated (fun d => (d.kind, d.name)) [] module.decls).map fun d =>
    .errorAt .duplicateDeclaration
      (d.kind.text ++ " " ++ d.name ++ " is declared more than once in module " ++ module.name)
      d.location

/-! ## References -/

/-- What is wrong with a reference whose lookup failed. -/
def lookupFailure (what name : String) (loc : Option Location) : LookupError → Diagnostic
  | .unresolved => .errorAt .unresolvedName (what ++ " " ++ name ++ " is not declared") loc
  | e@(.ambiguous _) => .errorAt .ambiguousName (what ++ " " ++ name ++ " is " ++ e.text) loc

/-- Checks that a name used in a module resolves. -/
def reference {α : Type} (ns : Namespace α) (module what : String) (loc : Option Location)
    (name : String) : Diagnostics :=
  match ns.resolve (some module) name with
  | .ok _ => []
  | .error e => [lookupFailure what name loc e]

/-- Checks the references of a trait expression.  A reference without a place of its own is
reported at `loc`. -/
def traitReferences (t : SymbolTable) (module : String) (loc : Option Location) (e : TraitExpr) :
    Diagnostics :=
  e.referencesAt.flatMap fun (name, place) => reference t.traits module "trait" (place.or loc) name

/-- Checks the names a declaration refers to. -/
def references (t : SymbolTable) (module : String) : Decl → Diagnostics
  | .interface i => i.parents.flatMap (reference t.interfaces module "interface" i.loc)
  | .class c =>
    c.implements.flatMap (reference t.interfaces module "interface" c.loc) ++
      (c.uses.filterMap TraitUse.expr?).flatMap (traitReferences t module c.loc)
  | .trait d => traitReferences t module d.loc d.expr
  | .delta d =>
    (d.after ++ d.before).flatMap (reference t.deltas module "delta" d.loc) ++
      (d.uses.toList.filter fun name => (t.module? name).isNone).map fun name =>
        .errorAt .unresolvedName
          ("module " ++ name ++ " used by delta " ++ d.name ++ " is not declared") d.loc
  | .product _ => []

end Check

end DeltaLang
