import DeltaLang.Program.Expr
import DeltaLang.Program.TypeUse

/-!
# Statements

Statements of method bodies and the blocks that hold them.
-/

namespace DeltaLang

/-- What an assignment writes to: a variable, or the field `this.name`. -/
inductive Target where
  | var (name : String)
  | field (name : String)
deriving DecidableEq, Inhabited, Repr

/-- A statement; each form ends with the place where it is written. -/
inductive Stmt where
  | skip (loc : Option Location)
  | ret (value : Expr) (loc : Option Location)
  | decl (type : TypeUse) (name : String) (value : Option Expr) (loc : Option Location)
  | assign (target : Target) (value : Expr) (loc : Option Location)
  | ite (cond : Expr) (yes : List Stmt) (no : Option (List Stmt)) (loc : Option Location)
  | loop (cond : Expr) (body : List Stmt) (loc : Option Location)
  | eval (value : Expr) (loc : Option Location)
deriving Inhabited

/-- A block is the list of its statements. -/
abbrev Block := List Stmt

namespace Stmt

def location : Stmt → Option Location
  | skip loc | ret _ loc | decl _ _ _ loc | assign _ _ loc | ite _ _ _ loc | loop _ _ loc
  | eval _ loc => loc

mutual

/-- Whether `original(..)` is called anywhere in the statement. -/
def callsOriginal : Stmt → Bool
  | skip _ => false
  | ret e _ | eval e _ | assign _ e _ | decl _ _ (some e) _ => e.callsOriginal
  | decl _ _ none _ => false
  | ite c yes none _ => c.callsOriginal || anyCallsOriginal yes
  | ite c yes (some no) _ => c.callsOriginal || anyCallsOriginal yes || anyCallsOriginal no
  | loop c body _ => c.callsOriginal || anyCallsOriginal body

/-- Whether `original(..)` is called in one of the statements. -/
def anyCallsOriginal : List Stmt → Bool
  | [] => false
  | s :: ss => callsOriginal s || anyCallsOriginal ss

end

theorem anyCallsOriginal_eq_any (ss : List Stmt) :
    anyCallsOriginal ss = ss.any callsOriginal := by
  induction ss with
  | nil => rfl
  | cons s ss ih => simp [anyCallsOriginal, ih]

/-! ## Equality -/

mutual

/-- Structural equality of statements, as a test. -/
def beq : Stmt → Stmt → Bool
  | skip l, skip l' => l == l'
  | ret e l, ret e' l' => e == e' && l == l'
  | decl t n e l, decl t' n' e' l' => t == t' && n == n' && e == e' && l == l'
  | assign t e l, assign t' e' l' => t == t' && e == e' && l == l'
  | ite c y none l, ite c' y' none l' => c == c' && beqs y y' && l == l'
  | ite c y (some n) l, ite c' y' (some n') l' => c == c' && beqs y y' && beqs n n' && l == l'
  | loop c b l, loop c' b' l' => c == c' && beqs b b' && l == l'
  | eval e l, eval e' l' => e == e' && l == l'
  | _, _ => false

/-- Structural equality of blocks, as a test. -/
def beqs : List Stmt → List Stmt → Bool
  | [], [] => true
  | s :: ss, s' :: ss' => beq s s' && beqs ss ss'
  | _, _ => false

end

mutual

theorem beq_iff : (a b : Stmt) → (beq a b = true ↔ a = b)
  | skip _, b => by cases b <;> simp [beq]
  | ret .., b => by cases b <;> simp [beq]
  | decl .., b => by cases b <;> simp [beq, and_assoc]
  | assign .., b => by cases b <;> simp [beq, and_assoc]
  | ite c y none l, b => by
    cases b with
    | ite c' y' n' l' => cases n' <;> simp [beq, beqs_iff y, and_assoc]
    | _ => simp [beq]
  | ite c y (some n) l, b => by
    cases b with
    | ite c' y' n' l' => cases n' <;> simp [beq, beqs_iff y, beqs_iff n, and_assoc]
    | _ => simp [beq]
  | loop _ body _, b => by cases b <;> simp [beq, beqs_iff body, and_assoc]
  | eval .., b => by cases b <;> simp [beq]

theorem beqs_iff : (as bs : List Stmt) → (beqs as bs = true ↔ as = bs)
  | [], bs => by cases bs <;> simp [beqs]
  | a :: as, bs => by cases bs <;> simp [beqs, beq_iff a, beqs_iff as]

end

instance : DecidableEq Stmt := fun a b => decidable_of_iff _ (beq_iff a b)

end Stmt

namespace Block

/-- Whether `original(..)` is called anywhere in the block. -/
def callsOriginal (b : Block) : Bool := Stmt.anyCallsOriginal b

end Block

end DeltaLang
