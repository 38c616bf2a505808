import DeltaLang.Program.Expr
import DeltaLang.Run.Value

/-!
# Operators on values

Integers are those of 64 bits.  An operation whose exact result is not one of them is refused, and
so is division by zero; quotients are rounded toward zero.  A remainder is refused with its
quotient.
-/

namespace DeltaLang

/-! ## Integers of 64 bits -/

/-- Whether an integer is one of 64 bits. -/
def fitsWord (n : Int) : Bool := -9223372036854775808 ≤ n && n ≤ 9223372036854775807

/-- The exact result of an operation, if it is of 64 bits. -/
def exactWord (n : Int) : Except Fault Int := if fitsWord n then .ok n else .error .overflow

/-- The quotient, rounded toward zero. -/
def wordQuotient (a b : Int) : Except Fault Int :=
  if b = 0 then .error .divisionByZero else exactWord (a.tdiv b)

/-- What the rounded quotient leaves over. -/
def wordRemainder (a b : Int) : Except Fault Int :=
  (wordQuotient a b).map fun _ => a.tmod b

/-! ## Values where a kind is expected -/

namespace Value

def asBool : Value → Except Fault Bool
  | bool b => .ok b
  | other => .error (.unfit "Bool" other)

def asInt : Value → Except Fault Int
  | int n => .ok n
  | other => .error (.unfit "Int" other)

end Value

/-! ## Operators -/

/-- The value of a unary operator. -/
def UnaryOp.apply : UnaryOp → Value → Except Fault Value
  | .not, v => v.asBool.map fun b => .bool !b
  | .neg, v => v.asInt.bind fun n => (exactWord (-n)).map .int

namespace BinaryOp

/-- Checks the first operand, and yields the value of the expression if the second operand is not
needed for it. -/
def first (op : BinaryOp) (a : Value) : Except Fault (Option Value) :=
  match op with
  | and => a.asBool.map fun x => if x then none else some (.bool false)
  | or => a.asBool.map fun x => if x then some (.bool true) else none
  | eq | ne | add => .ok none
  | lt | le | gt | ge | sub | mul | div | mod => a.asInt.map fun _ => none

/-- The value of an operator on integers. -/
def onInts (op : BinaryOp) (a b : Int) : Except Fault Value :=
  match op with
  | lt => .ok (.bool (a < b))
  | le => .ok (.bool (a ≤ b))
  | gt => .ok (.bool (a > b))
  | ge => .ok (.bool (a ≥ b))
  | sub => (exactWord (a - b)).map .int
  | mul => (exactWord (a * b)).map .int
  | div => (wordQuotient a b).map .int
  | mod => (wordRemainder a b).map .int
  | _ => (exactWord (a + b)).map .int

/-- The value of the expression, once both operands are needed. -/
def both (op : BinaryOp) (a b : Value) : Except Fault Value :=
  match op with
  | and | or => b.asBool.map .bool
  | eq => .ok (.bool (a == b))
  | ne => .ok (.bool (a != b))
  | add =>
    match a, b with
    | .int x, .int y => add.onInts x y
    | .str x, .str y => .ok (.str (x ++ y))
    | .int _, other | other, _ => .error (.unfit "Int or String" other)
  | _ => a.asInt.bind fun x => b.asInt.bind fun y => op.onInts x y

end BinaryOp

end DeltaLang
