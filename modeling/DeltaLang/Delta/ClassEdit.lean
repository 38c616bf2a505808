import DeltaLang.Trait.Resolve

/-!
# Editing a class

The operations of a delta on a class.  The methods of a class with `uses` clauses exist only once
it is composed.  Its method operations are therefore checked against the composed names, which are
kept and updated along the way, and are appended as further `uses` clauses.

Each operation either takes effect or is reported; it never does both.
-/

namespace DeltaLang

/-- A class under edit, and the names of its composed methods where they are known. -/
structure ClassEdit where
  cls : ClassDecl
  known : Option (List String)

namespace SymbolTable

/-- The names of a class's methods once composed, or none if it has no `uses` clauses.  Findings
of the composition are left to the composition of the whole model. -/
def composedNames (t : SymbolTable) (module : String) (c : ClassDecl) : Option (List String) :=
  if c.uses.isEmpty then none else some (t.composeClass module c .fresh).set.names

end SymbolTable

namespace ClassEdit

/-- The edit with the composed names, if the class has `uses` clauses. -/
def refresh (t : SymbolTable) (module : String) (e : ClassEdit) : ClassEdit :=
  { e with known := e.known.or (t.composedNames module e.cls) }

/-- Whether the class has a method of that name. -/
def hasMethod (e : ClassEdit) (name : String) : Bool :=
  match e.known with
  | some names => names.contains name
  | none => (e.cls.method? name).isSome

/-- The names with one more, which is not repeated. -/
def addName (name : String) (names : List String) : List String :=
  if names.contains name then names else names ++ [name]

def withUse (e : ClassEdit) (u : TraitUse) (names : List String) : ClassEdit :=
  ⟨{ e.cls with uses := e.cls.uses ++ [u] }, some names⟩

def withMethods (e : ClassEdit) (ms : List Method) : ClassEdit :=
  { e with cls := { e.cls with methods := ms } }

/-- The methods with `m` in front of the first of its name, or at the end if there is none. -/
def modifyFirst (m : Method) (ms : List Method) : List Method :=
  match ms.findIdx? (fun old => old.name == m.name) with
  | some i => ms.modify i m.replacing
  | none => ms ++ [m]

/-- The operation of a delta that cannot be done on the class. -/
def failure (delta : String) (kind : DiagnosticKind) (e : ClassEdit) (what : String)
    (loc : Option Location) : Diagnostic :=
  .errorAt kind ("delta " ++ delta ++ ": class " ++ e.cls.name ++ " " ++ what) loc

def addMethod (delta : String) (e : ClassEdit) (m : Method) : Except Diagnostic ClassEdit :=
  if e.hasMethod m.name then
    .error (failure delta .duplicateDeclaration e ("already has method " ++ m.name) m.sig.loc)
  else
    match e.known with
    | some names => .ok (e.withUse (.adds (.set [m])) (addName m.name names))
    | none => .ok (e.withMethods (e.cls.methods ++ [m]))

def modifyMethod (e : ClassEdit) (m : Method) : ClassEdit :=
  match e.known with
  | some names => e.withUse (.modifies (.set [m])) (addName m.name names)
  | none => e.withMethods (modifyFirst m e.cls.methods)

def removeMethod (delta : String) (e : ClassEdit) (sig : Signature) :
    Except Diagnostic ClassEdit :=
  if e.hasMethod sig.name then
    match e.known with
    | some names => .ok (e.withUse (.removes [sig]) (names.filter (· ≠ sig.name)))
    | none => .ok (e.withMethods (e.cls.methods.eraseP (fun m => m.name == sig.name)))
  else
    .error (failure delta .removeTargetNotFound e ("has no method " ++ sig.name) sig.loc)

def addField (delta : String) (e : ClassEdit) (f : FieldDecl) : Except Diagnostic ClassEdit :=
  if (e.cls.fieldType? f.name).isSome then
    .error (failure delta .duplicateDeclaration e ("already has field " ++ f.name) f.loc)
  else .ok { e with cls := { e.cls with fields := e.cls.fields ++ [f] } }

def removeField (delta : String) (e : ClassEdit) (name : String) (loc : Option Location) :
    Except Diagnostic ClassEdit :=
  if (e.cls.field? name).isSome then
    .ok { e with cls := { e.cls with fields := e.cls.fields.eraseP (fun f => f.name == name) } }
  else .error (failure delta .removeTargetNotFound e ("has no field " ++ name) loc)

/-- One operation, given the composed names where the class has `uses` clauses. -/
def apply (delta : String) (e : ClassEdit) : ClassOp → Except Diagnostic ClassEdit
  | .addMethod m => e.addMethod delta m
  | .modifyMethod m => .ok (e.modifyMethod m)
  | .removeMethod sig => e.removeMethod delta sig
  | .addField f => e.addField delta f
  | .removeField name loc => e.removeField delta name loc
  | .addUse u => .ok ⟨{ e.cls with uses := e.cls.uses ++ [u] }, none⟩

/-- Adds a name to those the class implements. -/
def addInterface (delta : String) (loc : Option Location) (e : ClassEdit) (name : String) :
    Except Diagnostic ClassEdit :=
  if e.cls.implements.contains name then
    .error (failure delta .duplicateDeclaration e ("already implements " ++ name) loc)
  else .ok { e with cls := { e.cls with implements := e.cls.implements ++ [name] } }

end ClassEdit

/-- Takes a step.  One that fails leaves the state as it is and is reported. -/
def attempt {σ : Type} (step : σ → Except Diagnostic σ) (st : σ × Diagnostics) : σ × Diagnostics :=
  match step st.1 with
  | .ok s => (s, st.2)
  | .error d => (st.1, st.2 ++ [d])

namespace SymbolTable

/-- Applies a modifier to a class of a module: the added interfaces first, then the operations. -/
def modifyClass (t : SymbolTable) (module delta : String) (m : ClassModifier) (c : ClassDecl) :
    ClassDecl × Diagnostics :=
  let start := m.addImplements.foldl
    (fun st name => attempt (fun e => e.addInterface delta m.loc name) st)
    ((⟨c, none⟩ : ClassEdit), [])
  let (e, ds) := m.ops.foldl
    (fun st op => attempt (fun e => e.apply delta op) (st.1.refresh t module, st.2)) start
  (e.cls, ds)

end SymbolTable

end DeltaLang
