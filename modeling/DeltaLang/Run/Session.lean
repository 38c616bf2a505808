import DeltaLang.Run.Eval

/-!
# Sessions

A session runs a program by operations from outside: objects are created and methods called one
after the other, on one store and within one budget.  An operation that stops leaves behind what it
has done so far.
-/

namespace DeltaLang

/-- An operation from outside. -/
inductive Operation where
  | instantiate (cls : String) (args : List Value)
  | call (receiver : Nat) (method : String) (args : List Value)
deriving DecidableEq, Inhabited

structure Session where
  symbols : SymbolTable
  /-- The steps that may be taken in all. -/
  budget : Nat
  /-- How deep activations may be nested. -/
  depth : Nat
  store : Store

namespace Session

/-- The budget of sessions that ask for none. -/
def defaultBudget : Nat := 1000000

/-- The depth of sessions that ask for none. -/
def defaultDepth : Nat := 1000000000

def start (m : Model) (budget : Nat) (depth : Nat) : Session :=
  ⟨.ofModel m, budget, depth, ⟨#[], budget⟩⟩

/-- The activation that an operation asks for. -/
def request (t : SymbolTable) : Operation → Run Activation
  | .instantiate cls args => do
    return .creation (← Run.ofExcept (t.classNamed none cls)) args
  | .call receiver method args => Run.dispatch receiver method args

/-- Carries out an operation. -/
def perform (s : Session) (op : Operation) : Except Stop Value × Session :=
  let run : Run Value := do
    activate s.symbols s.budget s.depth (← request s.symbols op)
  let (result, store) := run.run s.store
  (result, { s with store := store })

/-- The steps taken so far. -/
def steps (s : Session) : Nat := s.budget - s.store.fuel

def field? (s : Session) (id : Nat) (name : String) : Option Value :=
  s.store.heap[id]?.bind (·.field? name)

/-- The name of the class of an object. -/
def className? (s : Session) (id : Nat) : Option String :=
  s.store.heap[id]?.map (·.cls.name)

end Session

end DeltaLang
