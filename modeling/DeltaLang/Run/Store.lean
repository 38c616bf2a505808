import DeltaLang.Run.Value

/-!
# The store of a run

A run reads and changes a store: the heap of objects, which only grows, and the steps that are left
of the budget.  A run ends with a value or it stops, and the store is the one left behind either
way.  The activation of a body is a frame: the object it runs on, the module its names are written
in, and its variables.
-/

namespace DeltaLang

structure Object where
  cls : Entry ClassDecl
  fields : List (String × Value)
deriving Inhabited

structure Store where
  heap : Array Object
  /-- The steps that are left. -/
  fuel : Nat
deriving Inhabited

/-- Why a run ends without a value. -/
inductive Stop where
  | fault (f : Fault)
  /-- Calls and creations are nested deeper than the run may go. -/
  | tooDeep
  /-- There is no object at that place of the heap. -/
  | dangling (id : Nat)
deriving DecidableEq, Inhabited, Repr

/-- A run that yields a value or stops. -/
abbrev Run (α : Type) := ExceptT Stop (StateM Store) α

namespace Run

/-- Goes on with the result of a computation that does not touch the store. -/
def ofExcept {α : Type} : Except Fault α → Run α
  | .ok x => pure x
  | .error f => throw (.fault f)

def fault {α : Type} (f : Fault) : Run α := throw (.fault f)

/-- Takes a step, if one of the budget is left. -/
def tick (budget : Nat) : Run Unit := do
  match (← get).fuel with
  | 0 => fault (.outOfFuel budget)
  | n + 1 => modify fun s => { s with fuel := n }

end Run

/-! ## Objects -/

/-- Gives the name the value, wherever it is bound. -/
def assignName (name : String) (v : Value) (vs : List (String × Value)) : List (String × Value) :=
  vs.map fun (n, old) => (n, if n = name then v else old)

theorem map_fst_assignName (name : String) (v : Value) (vs : List (String × Value)) :
    (assignName name v vs).map Prod.fst = vs.map Prod.fst := by
  simp [assignName]

namespace Object

def field? (o : Object) (name : String) : Option Value := o.fields.lookup name

/-- A new object: class parameters have their arguments as values, and fields have none yet.  Of
parameters of one name the last counts, and a field hides parameters of its name. -/
def create (c : Entry ClassDecl) (args : List Value) : Object :=
  ⟨c, c.decl.fields.map (fun f => (f.name, .null)) ++
    ((c.decl.params.map (·.name)).zip args).reverse⟩

end Object

namespace Run

/-- The object at a place of the heap. -/
def object (id : Nat) : Run Object := do
  match (← get).heap[id]? with
  | some o => pure o
  | none => throw (.dangling id)

/-- Puts a new object at the end of the heap, and yields its place. -/
def allocate (o : Object) : Run Nat := do
  let id := (← get).heap.size
  modify fun s => { s with heap := s.heap.push o }
  return id

/-- Gives a field of an object a value, or stops for a fault if there is no such field. -/
def setField (id : Nat) (name : String) (v : Value) (otherwise : Object → Fault) : Run Unit := do
  let o ← object id
  match o.field? name with
  | some _ =>
    modify fun s =>
      { s with heap := s.heap.modify id fun o => { o with fields := assignName name v o.fields } }
  | none => fault (otherwise o)

end Run

/-! ## Frames -/

/-- Variables with their values, the latest first. -/
abbrev Scope := List (String × Value)

structure Frame where
  this : Nat
  module : String
  /-- The method whose current version runs, unless an object is being created. -/
  method : Option Method
  /-- The scopes, innermost first. -/
  scopes : List Scope

namespace Frame

def lookup (fr : Frame) (name : String) : Option Value := fr.scopes.flatten.lookup name

/-- Binds a new variable in the innermost scope. -/
def bind (fr : Frame) (name : String) (v : Value) : Frame :=
  { fr with
    scopes := match fr.scopes with
      | scope :: outer => ((name, v) :: scope) :: outer
      | [] => [] }

/-- Assigns a variable in the innermost of the scopes that bind it. -/
def assignIn (name : String) (v : Value) : List Scope → Option (List Scope)
  | [] => none
  | scope :: outer =>
    if (scope.lookup name).isSome then some (assignName name v scope :: outer)
    else (assignIn name v outer).map (scope :: ·)

/-- Assigns a variable, if it is bound. -/
def assign? (fr : Frame) (name : String) (v : Value) : Option Frame :=
  (assignIn name v fr.scopes).map fun scopes => { fr with scopes := scopes }

def enter (fr : Frame) : Frame := { fr with scopes := [] :: fr.scopes }

def leave (fr : Frame) : Frame := { fr with scopes := fr.scopes.tail }

end Frame

end DeltaLang
