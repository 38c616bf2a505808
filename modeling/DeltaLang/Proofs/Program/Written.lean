import DeltaLang.Proofs.Grammar.Tokens
import DeltaLang.Reading.Elaborate

/-!
# Written expressions

An expression is written with every operand, call target and future in parentheses, and with the
same blanks wherever blanks may stand.
-/

namespace DeltaLang

open Concrete

namespace Expr

/-! ## Expressions aside from their locations -/

mutual

/-- The expression without its locations. -/
def unlocated : Expr → Expr
  | bool v _ => .bool v none
  | int n _ => .int n none
  | str s _ => .str s none
  | null _ => .null none
  | this _ => .this none
  | var name _ => .var name none
  | field name _ => .field name none
  | unary op e _ => .unary op (unlocated e) none
  | binary op l r _ => .binary op (unlocated l) (unlocated r) none
  | call t m as async _ => .call (unlocated t) m (unlocatedAll as) async none
  | get e _ => .get (unlocated e) none
  | new c as isLocal _ => .new c (unlocatedAll as) isLocal none
  | original as _ => .original (unlocatedAll as) none

def unlocatedAll : List Expr → List Expr
  | [] => []
  | e :: es => unlocated e :: unlocatedAll es

end

/-! ## What can be written -/

mutual

/-- Names are identifiers, classes are named by qualified names, numbers are those that have digits
and fit, and strings hold no quotes. -/
def Writable : Expr → Prop
  | bool .. | null _ | this _ => True
  | int n _ => 0 ≤ n ∧ n ≤ maxInt
  | str s _ => '"' ∉ s.toList
  | var name _ | field name _ => isIdentifier name = true
  | unary _ e _ | get e _ => Writable e
  | binary _ l r _ => Writable l ∧ Writable r
  | call t m as _ _ => Writable t ∧ isIdentifier m = true ∧ WritableAll as
  | new c as _ _ => IsQualifiedName c ∧ WritableAll as
  | original as _ => WritableAll as

def WritableAll : List Expr → Prop
  | [] => True
  | e :: es => Writable e ∧ WritableAll es

end

/-! ## The text of an expression -/

section

variable (gap : List Char)

/-- A text that ends with its own blanks, in parentheses. -/
def inParens (text : List Char) : List Char := "(".toList ++ (gap ++ (text ++ ")".toList))

mutual

/-- The text of an expression, with the given blanks between its tokens. -/
def written : Expr → List Char
  | bool v _ => (toString v).toList
  | int n _ => (toString n).toList
  | str s _ => "\"".toList ++ (s.toList ++ "\"".toList)
  | null _ => "null".toList
  | this _ => "this".toList
  | var name _ => name.toList
  | field name _ => "this".toList ++ (gap ++ (".".toList ++ (gap ++ name.toList)))
  | unary op e _ => op.symbol.toList ++ (gap ++ inParens gap (written e ++ gap))
  | binary op l r _ =>
    inParens gap (written l ++ gap) ++
      (gap ++ (op.symbol.toList ++ (gap ++ inParens gap (written r ++ gap))))
  | call t m as async _ =>
    inParens gap (written t ++ gap) ++ (gap ++ ((if async then "!" else ".").toList ++
      (gap ++ (m.toList ++ (gap ++ inParens gap (listed as))))))
  | get e _ => inParens gap (written e ++ gap) ++ (gap ++ ".get".toList)
  | new c as isLocal _ =>
    "new".toList ++ (' ' :: gap ++ ((if isLocal then "local".toList ++ ' ' :: gap else []) ++
      (c.toList ++ (gap ++ inParens gap (listed as)))))
  | original as _ => "original".toList ++ (gap ++ inParens gap (listed as))

/-- Expressions with commas between. -/
def listed : List Expr → List Char
  | [] => []
  | e :: es => written e ++ gap ++ listedMore es

def listedMore : List Expr → List Char
  | [] => []
  | e :: es => ",".toList ++ (gap ++ (written e ++ gap)) ++ listedMore es

end

end

end Expr

end DeltaLang
