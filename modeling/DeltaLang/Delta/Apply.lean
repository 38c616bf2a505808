import DeltaLang.Delta.ClassEdit

/-!
# Applying a delta

A delta adds its declarations to the module it uses, or else to its own, and finds the
declarations it removes or modifies by name, that module coming first.  An operation whose target
is missing, ambiguous or already there is reported, and the delta goes on with the next one.
-/

namespace DeltaLang

/-- Adds or removes a signature of an interface. -/
def InterfaceDecl.apply (delta : String) (i : InterfaceDecl) :
    InterfaceOp → Except Diagnostic InterfaceDecl
  | .addMethod sig =>
    if i.methods.any (·.name == sig.name) then
      .error (.errorAt .duplicateDeclaration
        ("delta " ++ delta ++ ": interface " ++ i.name ++ " already declares method " ++ sig.name)
        sig.loc)
    else .ok { i with methods := i.methods ++ [sig] }
  | .removeMethod sig =>
    if i.methods.any (·.name == sig.name) then
      .ok { i with methods := i.methods.eraseP (fun m => m.name == sig.name) }
    else
      .error (.errorAt .removeTargetNotFound
        ("delta " ++ delta ++ ": interface " ++ i.name ++ " has no method " ++ sig.name) sig.loc)

/-- Applies a modifier to an interface. -/
def InterfaceDecl.modify (delta : String) (m : InterfaceModifier) (i : InterfaceDecl) :
    InterfaceDecl × Diagnostics :=
  m.ops.foldl (fun st op => attempt (fun i => i.apply delta op) st) (i, [])

namespace Model

/-- What is wrong when the target of an operation is not found; `kind` is the kind of finding if
there is no such declaration. -/
def targetFailure (delta : String) (kind : DiagnosticKind) (what : DeclKind) (name : String)
    (loc : Option Location) : LookupError → Diagnostic
  | .unresolved =>
    .errorAt kind ("delta " ++ delta ++ ": " ++ what.text ++ " " ++ name ++ " does not exist") loc
  | e@(.ambiguous _) =>
    .errorAt .ambiguousName
      ("delta " ++ delta ++ ": " ++ what.text ++ " " ++ name ++ " is " ++ e.text) loc

/-- Adds a declaration at the end of the first module of that name, unless it has one of its kind
and name.  Where there is no such module nothing happens. -/
def addDecl (m : Model) (delta module : String) (d : Decl) : Except Diagnostic Model :=
  match m.module? module with
  | none => .ok m
  | some target =>
    if (target.position? d.kind d.name).isSome then
      .error (.errorAt .duplicateDeclaration
        ("delta " ++ delta ++ ": " ++ d.kind.text ++ " " ++ d.name ++
          " already exists in module " ++ module) d.location)
    else .ok (m.appendTo module d)

/-- Removes the declaration that `name` means. -/
def removeDecl (m : Model) (delta module : String) (kind : DeclKind) (name : String)
    (loc : Option Location) : Except Diagnostic Model :=
  match m.locate kind name module with
  | .ok path => .ok (m.eraseDecl path)
  | .error e => .error (targetFailure delta .removeTargetNotFound kind name loc e)

/-- Gives the trait that `name` means a new expression. -/
def replaceTrait (m : Model) (delta module name : String) (expr : TraitExpr)
    (loc : Option Location) : Except Diagnostic Model :=
  match m.locate .trait name module with
  | .error e => .error (targetFailure delta .modifyTargetNotFound .trait name loc e)
  | .ok path =>
    .ok (m.modifyDecl path fun
      | .trait t => .trait { t with expr := expr }
      | other => other)

/-- Modifies the interface that the modifier names. -/
def modifyInterface (m : Model) (delta module : String) (mod : InterfaceModifier) :
    Model × Diagnostics :=
  match m.locate .interface mod.name module with
  | .error e => (m, [targetFailure delta .modifyTargetNotFound .interface mod.name mod.loc e])
  | .ok path =>
    match m.decl? path with
    | some (.interface i) =>
      let (i', ds) := i.modify delta mod
      (m.modifyDecl path fun _ => .interface i', ds)
    | _ => (m, [])

/-- Modifies the class that the modifier names. -/
def modifyClass (m : Model) (delta module : String) (mod : ClassModifier) : Model × Diagnostics :=
  match m.locate .class mod.name module with
  | .error e => (m, [targetFailure delta .modifyTargetNotFound .class mod.name mod.loc e])
  | .ok path =>
    match m.entry? path with
    | some ⟨_, owner, _, .class c⟩ =>
      let (c', ds) := (SymbolTable.ofModel m).modifyClass owner delta mod c
      (m.modifyDecl path fun _ => .class c', ds)
    | _ => (m, [])

/-- Applies one operation of a delta whose target module is `module`. -/
def applyOp (delta module : String) (st : Model × Diagnostics) : DeltaOp → Model × Diagnostics
  | .addInterface i => attempt (fun m => m.addDecl delta module (.interface i)) st
  | .addClass c => attempt (fun m => m.addDecl delta module (.class c)) st
  | .addTrait t => attempt (fun m => m.addDecl delta module (.trait t)) st
  | .removeInterface name loc => attempt (fun m => m.removeDecl delta module .interface name loc) st
  | .removeClass name loc => attempt (fun m => m.removeDecl delta module .class name loc) st
  | .removeTrait name loc => attempt (fun m => m.removeDecl delta module .trait name loc) st
  | .modifyTrait name expr loc => attempt (fun m => m.replaceTrait delta module name expr loc) st
  | .modifyInterface mod =>
    let (m, ds) := st.1.modifyInterface delta module mod
    (m, st.2 ++ ds)
  | .modifyClass mod =>
    let (m, ds) := st.1.modifyClass delta module mod
    (m, st.2 ++ ds)

/-- The finding that the module a delta adds to does not exist. -/
def missingModule (m : Model) (d : DeltaDecl) (module : String) : Diagnostics :=
  if (m.module? module).isSome then []
  else
    [.errorAt .modifyTargetNotFound
      ("delta " ++ d.name ++ ": module " ++ module ++ " does not exist") d.loc]

/-- Applies the operations of a delta declared in a module, in order. -/
def applyDelta (m : Model) (module : String) (d : DeltaDecl) : Model × Diagnostics :=
  let target := d.uses.getD module
  d.ops.foldl (applyOp d.name target) (m, m.missingModule d target)

end Model

end DeltaLang
