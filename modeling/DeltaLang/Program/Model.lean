import DeltaLang.Program.Decl

/-!
# Programs

A model is a list of compilation units, a unit a list of modules, a module a list of
declarations.  Names refer to declarations, but a declaration is identified by its path: its
unit, its module within the unit and its position within the module.
-/

namespace DeltaLang

structure Module where
  name : String
  decls : List Decl
  loc : Option Location
deriving DecidableEq, Inhabited

/-- The modules of one source text. -/
structure CompilationUnit where
  file : Option String
  modules : List Module
deriving DecidableEq, Inhabited

structure Model where
  units : List CompilationUnit
deriving DecidableEq, Inhabited

/-- The place of a declaration in a model. -/
structure DeclPath where
  unit : Nat
  module : Nat
  decl : Nat
deriving DecidableEq, Inhabited, Repr

/-- A declaration with its simple name, the module that declares it and its place. -/
structure Entry (α : Type) where
  path : DeclPath
  module : String
  name : String
  decl : α
deriving Inhabited

namespace Entry

/-- The name qualified by the module, `Module.Name`. -/
def qualifiedName {α : Type} (e : Entry α) : String := e.module ++ "." ++ e.name

/-- The entry seen as one of a narrower kind of declaration. -/
def narrow {α β : Type} (f : α → Option β) (e : Entry α) : Option (Entry β) :=
  (f e.decl).map fun d => ⟨e.path, e.module, e.name, d⟩

end Entry

namespace Module

def interfaces (m : Module) : List InterfaceDecl := m.decls.filterMap Decl.interface?

def classes (m : Module) : List ClassDecl := m.decls.filterMap Decl.class?

def traits (m : Module) : List TraitDecl := m.decls.filterMap Decl.trait?

def deltas (m : Module) : List DeltaDecl := m.decls.filterMap Decl.delta?

def products (m : Module) : List ProductDecl := m.decls.filterMap Decl.product?

/-- The place of the first declaration of that kind and name. -/
def position? (m : Module) (kind : DeclKind) (name : String) : Option Nat :=
  m.decls.findIdx? (fun d => d.kind == kind && d.name == name)

/-- The module with the declaration at `i` changed by `f`. -/
def modifyDecl (m : Module) (i : Nat) (f : Decl → Decl) : Module :=
  { m with decls := m.decls.modify i f }

def eraseDecl (m : Module) (i : Nat) : Module := { m with decls := m.decls.eraseIdx i }

end Module

namespace Model

def modules (m : Model) : List Module := m.units.flatMap (·.modules)

def interfaces (m : Model) : List InterfaceDecl := m.modules.flatMap Module.interfaces

def classes (m : Model) : List ClassDecl := m.modules.flatMap Module.classes

def traits (m : Model) : List TraitDecl := m.modules.flatMap Module.traits

def deltas (m : Model) : List DeltaDecl := m.modules.flatMap Module.deltas

def products (m : Model) : List ProductDecl := m.modules.flatMap Module.products

/-- The first module of that name. -/
def module? (m : Model) (name : String) : Option Module := m.modules.find? (·.name == name)

/-- Every declaration with its path, in the order of the model. -/
def entries (m : Model) : List (Entry Decl) :=
  m.units.zipIdx.flatMap fun (unit, u) =>
    unit.modules.zipIdx.flatMap fun (module, i) =>
      module.decls.zipIdx.map fun (decl, d) => ⟨⟨u, i, d⟩, module.name, decl.name, decl⟩

def interfaceEntries (m : Model) : List (Entry InterfaceDecl) :=
  m.entries.filterMap (Entry.narrow Decl.interface?)

def classEntries (m : Model) : List (Entry ClassDecl) :=
  m.entries.filterMap (Entry.narrow Decl.class?)

def traitEntries (m : Model) : List (Entry TraitDecl) :=
  m.entries.filterMap (Entry.narrow Decl.trait?)

def deltaEntries (m : Model) : List (Entry DeltaDecl) :=
  m.entries.filterMap (Entry.narrow Decl.delta?)

def productEntries (m : Model) : List (Entry ProductDecl) :=
  m.entries.filterMap (Entry.narrow Decl.product?)

/-- The declaration at a path. -/
def decl? (m : Model) (p : DeclPath) : Option Decl := do
  let unit ← m.units[p.unit]?
  let module ← unit.modules[p.module]?
  module.decls[p.decl]?

/-- The declaration at a path, with its module. -/
def entry? (m : Model) (p : DeclPath) : Option (Entry Decl) := do
  let unit ← m.units[p.unit]?
  let module ← unit.modules[p.module]?
  let decl ← module.decls[p.decl]?
  return ⟨p, module.name, decl.name, decl⟩

/-- The model with the module at a place changed by `f`. -/
def modifyModule (m : Model) (unit module : Nat) (f : Module → Module) : Model :=
  ⟨m.units.modify unit fun u => { u with modules := u.modules.modify module f }⟩

/-- The model with the declaration at a path changed by `f`. -/
def modifyDecl (m : Model) (p : DeclPath) (f : Decl → Decl) : Model :=
  m.modifyModule p.unit p.module (·.modifyDecl p.decl f)

/-- The model without the declaration at a path. -/
def eraseDecl (m : Model) (p : DeclPath) : Model :=
  m.modifyModule p.unit p.module (·.eraseDecl p.decl)

/-- Adds a declaration at the end of the first of the modules that has that name. -/
def appendToFirst (name : String) (d : Decl) : List Module → List Module
  | [] => []
  | m :: ms =>
    if m.name = name then { m with decls := m.decls ++ [d] } :: ms
    else m :: appendToFirst name d ms

/-- Adds a declaration at the end of the first module of that name. -/
def appendToUnits (name : String) (d : Decl) : List CompilationUnit → List CompilationUnit
  | [] => []
  | u :: us =>
    if u.modules.any (·.name == name) then
      { u with modules := appendToFirst name d u.modules } :: us
    else u :: appendToUnits name d us

/-- The model with a declaration added at the end of the first module of that name. -/
def appendTo (m : Model) (name : String) (d : Decl) : Model := ⟨appendToUnits name d m.units⟩

/-- The model with every class changed by `f`, which is told the class's module and path. -/
def mapClasses (m : Model) (f : Entry ClassDecl → ClassDecl) : Model :=
  ⟨m.units.zipIdx.map fun (unit, u) =>
    { unit with
      modules := unit.modules.zipIdx.map fun (module, i) =>
        { module with
          decls := module.decls.zipIdx.map fun (decl, d) =>
            match decl with
            | .class c => .class (f ⟨⟨u, i, d⟩, module.name, c.name, c⟩)
            | other => other } }⟩

end Model

end DeltaLang
