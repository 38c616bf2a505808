import DeltaLang.Program.Location

/-!
# Expressions

Expressions of method bodies.  A call goes to an object, synchronously or, if marked so,
asynchronously with a future as its value; `original(..)` calls the method version that the
enclosing one replaced.
-/

namespace DeltaLang

inductive UnaryOp where
  | not
  | neg
deriving DecidableEq, Inhabited, Repr

inductive BinaryOp where
  | and
  | or
  | eq
  | ne
  | lt
  | le
  | gt
  | ge
  | add
  | sub
  | mul
  | div
  | mod
deriving DecidableEq, Inhabited, Repr

namespace UnaryOp

def symbol : UnaryOp → String
  | not => "!"
  | neg => "-"

end UnaryOp

namespace BinaryOp

/-- Every binary operator, once. -/
def all : List BinaryOp := [and, or, eq, ne, lt, le, gt, ge, add, sub, mul, div, mod]

def symbol : BinaryOp → String
  | and => "&&"
  | or => "||"
  | eq => "=="
  | ne => "!="
  | lt => "<"
  | le => "<="
  | gt => ">"
  | ge => ">="
  | add => "+"
  | sub => "-"
  | mul => "*"
  | div => "/"
  | mod => "%"

/-- The operator written `s`, if there is one. -/
def ofSymbol? (s : String) : Option BinaryOp := all.find? (fun op => op.symbol == s)

end BinaryOp

/-- An expression; each form ends with the place where it is written. -/
inductive Expr where
  | bool (value : Bool) (loc : Option Location)
  | int (value : Int) (loc : Option Location)
  | str (value : String) (loc : Option Location)
  | null (loc : Option Location)
  | this (loc : Option Location)
  | var (name : String) (loc : Option Location)
  /-- The field `this.name`. -/
  | field (name : String) (loc : Option Location)
  | unary (op : UnaryOp) (operand : Expr) (loc : Option Location)
  | binary (op : BinaryOp) (lhs rhs : Expr) (loc : Option Location)
  /-- The call `target.method(args)`, or `target!method(args)` if `async`. -/
  | call (target : Expr) (method : String) (args : List Expr) (async : Bool)
      (loc : Option Location)
  /-- The value of a future, `future.get`. -/
  | get (future : Expr) (loc : Option Location)
  /-- The creation `new cls(args)`, or `new local cls(args)` if `isLocal`. -/
  | new (cls : String) (args : List Expr) (isLocal : Bool) (loc : Option Location)
  | original (args : List Expr) (loc : Option Location)
deriving Inhabited

namespace Expr

def location : Expr → Option Location
  | bool _ loc | int _ loc | str _ loc | null loc | this loc | var _ loc | field _ loc
  | unary _ _ loc | binary _ _ _ loc | call _ _ _ _ loc | get _ loc | new _ _ _ loc
  | original _ loc => loc

mutual

/-- Whether `original(..)` is called anywhere in the expression. -/
def callsOriginal : Expr → Bool
  | bool .. | int .. | str .. | null .. | this .. | var .. | field .. => false
  | unary _ e _ => callsOriginal e
  | binary _ l r _ => callsOriginal l || callsOriginal r
  | call t _ as _ _ => callsOriginal t || anyCallsOriginal as
  | get e _ => callsOriginal e
  | new _ as _ _ => anyCallsOriginal as
  | original .. => true

/-- Whether `original(..)` is called in one of the expressions. -/
def anyCallsOriginal : List Expr → Bool
  | [] => false
  | e :: es => callsOriginal e || anyCallsOriginal es

end

/-! ## Equality -/

mutual

/-- Structural equality of expressions, as a test. -/
def beq : Expr → Expr → Bool
  | bool v l, bool v' l' => v == v' && l == l'
  | int v l, int v' l' => v == v' && l == l'
  | str v l, str v' l' => v == v' && l == l'
  | null l, null l' => l == l'
  | this l, this l' => l == l'
  | var n l, var n' l' => n == n' && l == l'
  | field n l, field n' l' => n == n' && l == l'
  | unary o e l, unary o' e' l' => o == o' && beq e e' && l == l'
  | binary o a b l, binary o' a' b' l' => o == o' && beq a a' && beq b b' && l == l'
  | call t m as s l, call t' m' as' s' l' =>
    beq t t' && m == m' && beqs as as' && s == s' && l == l'
  | get e l, get e' l' => beq e e' && l == l'
  | new c as s l, new c' as' s' l' => c == c' && beqs as as' && s == s' && l == l'
  | original as l, original as' l' => beqs as as' && l == l'
  | _, _ => false

/-- Structural equality of lists of expressions, as a test. -/
def beqs : List Expr → List Expr → Bool
  | [], [] => true
  | e :: es, e' :: es' => beq e e' && beqs es es'
  | _, _ => false

end

mutual

theorem beq_iff : (a b : Expr) → (beq a b = true ↔ a = b)
  | bool .., b => by cases b <;> simp [beq]
  | int .., b => by cases b <;> simp [beq]
  | str .., b => by cases b <;> simp [beq]
  | null .., b => by cases b <;> simp [beq]
  | this .., b => by cases b <;> simp [beq]
  | var .., b => by cases b <;> simp [beq]
  | field .., b => by cases b <;> simp [beq]
  | unary _ e _, b => by cases b <;> simp [beq, beq_iff e, and_assoc]
  | binary _ x y _, b => by cases b <;> simp [beq, beq_iff x, beq_iff y, and_assoc]
  | call t _ as _ _, b => by cases b <;> simp [beq, beq_iff t, beqs_iff as, and_assoc]
  | get e _, b => by cases b <;> simp [beq, beq_iff e]
  | new _ as _ _, b => by cases b <;> simp [beq, beqs_iff as, and_assoc]
  | original as _, b => by cases b <;> simp [beq, beqs_iff as]

theorem beqs_iff : (as bs : List Expr) → (beqs as bs = true ↔ as = bs)
  | [], bs => by cases bs <;> simp [beqs]
  | a :: as, bs => by cases bs <;> simp [beqs, beq_iff a, beqs_iff as]

end

instance : DecidableEq Expr := fun a b => decidable_of_iff _ (beq_iff a b)

end Expr

end DeltaLang
