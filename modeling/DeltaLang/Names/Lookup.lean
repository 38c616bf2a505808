import DeltaLang.Program.Model

/-!
# Looking names up

A reference is a simple name, or a name qualified by a module whose own name may contain dots.
A qualified name selects the first declaration of that name in that module.  A simple name
selects the declaration of the module it is used in, if that has one, and otherwise must be
declared in exactly one module.

Two lookups follow this rule: a namespace answers from the list of all declarations of one kind
(`Namespace.resolve`), and `Model.locate` scans a model module by module.
-/

namespace DeltaLang

/-- Splits `A.B.C` into `A.B` and `C`. -/
def splitQualified (name : String) : Option String × String :=
  let back := name.toList.reverse
  match back.dropWhile (· ≠ '.') with
  | [] => (none, name)
  | _ :: front =>
    (some (String.ofList front.reverse), String.ofList (back.takeWhile (· ≠ '.')).reverse)

/-- Puts a name into a strictly ascending list, unless it is there. -/
def insertName (name : String) : List String → List String
  | [] => [name]
  | n :: ns =>
    if name < n then name :: n :: ns
    else if n < name then n :: insertName name ns
    else n :: ns

/-- The names of a list in ascending order, each once. -/
def sortNames (names : List String) : List String := names.foldr insertName []

/-- The features of a product in ascending order, each once. -/
def ProductDecl.featureSet (p : ProductDecl) : List String := sortNames p.features

inductive LookupError where
  | unresolved
  /-- The modules that declare the name. -/
  | ambiguous (modules : List String)
deriving DecidableEq, Inhabited, Repr

namespace LookupError

def text : LookupError → String
  | unresolved => "not declared"
  | ambiguous modules => "declared in several modules: " ++ ", ".intercalate modules

end LookupError

/-! ## Namespaces -/

/-- All declarations of one kind, in the order of the model. -/
abbrev Namespace (α : Type) := List (Entry α)

namespace Namespace

variable {α : Type}

/-- The declaration that `name` means in the module `frm`, or outside of all modules. -/
def resolve (ns : Namespace α) (frm : Option String) (name : String) :
    Except LookupError (Entry α) :=
  let (qualifier, simple) := splitQualified name
  let candidates := ns.filter (·.name == simple)
  match qualifier with
  | some module =>
    match candidates.find? (·.module == module) with
    | some e => .ok e
    | none => .error .unresolved
  | none =>
    match candidates.find? (fun e => some e.module == frm) with
    | some e => .ok e
    | none =>
      match candidates, sortNames (candidates.map (·.module)) with
      | e :: _, [_] => .ok e
      | [], _ => .error .unresolved
      | _, modules => .error (.ambiguous modules)

def contains (ns : Namespace α) (name : String) : Bool := (ns.resolve none name).isOk

/-- The entries in the order of their simple names, and of the model among equal names. -/
def byName (ns : Namespace α) : List (Entry α) := ns.mergeSort (fun a b => a.name ≤ b.name)

end Namespace

/-- The namespaces and modules of a model. -/
structure SymbolTable where
  interfaces : Namespace InterfaceDecl
  classes : Namespace ClassDecl
  traits : Namespace TraitDecl
  deltas : Namespace DeltaDecl
  products : Namespace ProductDecl
  modules : List Module

namespace SymbolTable

def ofModel (m : Model) : SymbolTable where
  interfaces := m.interfaceEntries
  classes := m.classEntries
  traits := m.traitEntries
  deltas := m.deltaEntries
  products := m.productEntries
  modules := m.modules

/-- The first module of that name. -/
def module? (t : SymbolTable) (name : String) : Option Module :=
  t.modules.find? (·.name == name)

end SymbolTable

/-! ## Scanning a model -/

namespace Model

/-- The first declaration of that kind and name in each module, with the module's name.  With a
qualifier only the modules of that name are searched. -/
def sightings (m : Model) (kind : DeclKind) (qualifier : Option String) (simple : String) :
    List (String × DeclPath) :=
  m.units.zipIdx.flatMap fun (unit, u) =>
    unit.modules.zipIdx.filterMap fun (module, i) =>
      if qualifier.all (· == module.name) then
        (module.position? kind simple).map fun d => (module.name, ⟨u, i, d⟩)
      else none

/-- The path of the declaration that `name` means, the module `preferred` coming first. -/
def locate (m : Model) (kind : DeclKind) (name preferred : String) :
    Except LookupError DeclPath :=
  let (qualifier, simple) := splitQualified name
  let found := m.sightings kind qualifier simple
  match found.find? (fun f => qualifier.isNone && f.1 == preferred) with
  | some (_, path) => .ok path
  | none =>
    match found, sortNames (found.map Prod.fst) with
    | [], _ => .error .unresolved
    | (_, path) :: _, [_] => .ok path
    | _, modules => .error (.ambiguous modules)

end Model

end DeltaLang
