import DeltaLang.Proofs.Run.Rules
import Mathlib.Algebra.Order.Ring.Abs

/-!
# Exact arithmetic

On integers of 64 bits the arithmetic operators yield the exact result or refuse it: a quotient or
remainder by zero does not exist, and a result of more bits overflows.  Quotients are rounded toward
zero.  One remainder is refused that would have 64 bits: that of the least integer by minus one,
whose quotient overflows.
-/

namespace DeltaLang

/-! ## Integers of 64 bits -/

def IsWord (n : Int) : Prop := -2 ^ 63 ≤ n ∧ n < 2 ^ 63

instance (n : Int) : Decidable (IsWord n) := inferInstanceAs (Decidable (_ ∧ _))

theorem fitsWord_iff {n : Int} : fitsWord n = true ↔ IsWord n := by
  simp only [fitsWord, IsWord, Bool.and_eq_true, decide_eq_true_eq]
  omega

theorem exactWord_of_isWord {n : Int} (h : IsWord n) : exactWord n = .ok n :=
  if_pos (fitsWord_iff.2 h)

theorem exactWord_of_not_isWord {n : Int} (h : ¬ IsWord n) : exactWord n = .error .overflow :=
  if_neg fun fits => h (fitsWord_iff.1 fits)

/-! ## Quotients rounded toward zero -/

/-- The ratio of `a` and `b` is at least `q` in magnitude, and less than one away from it. -/
structure Truncates (a b q : Int) : Prop where
  within : |q * b| ≤ |a|
  close : |a - q * b| < |b|

namespace Truncates

variable {a b q q' : Int}

theorem ne_zero (h : Truncates a b q) : b ≠ 0 := by
  rintro rfl
  exact absurd h.close (not_lt.2 (abs_nonneg _))

/-- Both multiples of `b` lie between zero and `a`, so near to `a` that they are the same. -/
theorem unique (h : Truncates a b q) (h' : Truncates a b q') : q = q' := by
  have near : |q * b - q' * b| < |b| := by
    have within := h.within
    have within' := h'.within
    have close := h.close
    have close' := h'.close
    rw [abs_le] at within within'
    rw [abs_lt] at close close' ⊢
    rcases abs_cases a with ⟨size, _⟩ | ⟨size, _⟩ <;> rw [size] at within within' <;> omega
  have same : q * b - q' * b = 0 := by
    refine Int.eq_zero_of_abs_lt_dvd (m := |b|) ?_ near
    rw [abs_dvd, ← Int.sub_mul]
    exact Dvd.intro_left _ rfl
  exact Int.eq_of_mul_eq_mul_right h.ne_zero (Int.sub_eq_zero.1 same)

/-- What is left over has the sign of `a`, and is smaller than `b`. -/
theorem tdiv (a : Int) (nonzero : b ≠ 0) : Truncates a b (a.tdiv b) := by
  have split := Int.tdiv_mul_add_tmod a b
  have size := Int.natAbs_tmod a b
  have less : a.natAbs % b.natAbs < b.natAbs := Nat.mod_lt _ (Int.natAbs_pos.2 nonzero)
  have small : a.natAbs % b.natAbs ≤ a.natAbs := Nat.mod_le _ _
  have sign : 0 ≤ a ∧ 0 ≤ a.tmod b ∨ a ≤ 0 ∧ a.tmod b ≤ 0 := by
    rcases Int.le_total 0 a with nonneg | nonpos
    · exact .inl ⟨nonneg, Int.tmod_nonneg b nonneg⟩
    · have opposite := Int.tmod_nonneg b (Int.neg_nonneg_of_nonpos nonpos)
      rw [Int.neg_tmod] at opposite
      exact .inr ⟨nonpos, Int.neg_nonneg.1 opposite⟩
  constructor <;> simp only [Int.abs_eq_natAbs] <;> omega

end Truncates

theorem truncates_iff {a b q : Int} (nonzero : b ≠ 0) : Truncates a b q ↔ q = a.tdiv b :=
  ⟨fun h => h.unique (.tdiv a nonzero), fun same => same ▸ .tdiv a nonzero⟩

section

variable {a b : Int}

theorem isWord_tmod (word : IsWord b) (nonzero : b ≠ 0) : IsWord (a.tmod b) := by
  have size := Int.natAbs_tmod a b
  have less : a.natAbs % b.natAbs < b.natAbs := Nat.mod_lt _ (Int.natAbs_pos.2 nonzero)
  unfold IsWord at word ⊢
  omega

/-- Only one quotient overflows. -/
theorem isWord_tdiv_iff (word : IsWord a) (nonzero : b ≠ 0) :
    IsWord (a.tdiv b) ↔ ¬ (a = -2 ^ 63 ∧ b = -1) := by
  constructor
  · rintro fits ⟨rfl, rfl⟩
    exact absurd fits (by decide)
  · intro other
    have bound := Int.natAbs_tdiv_le_natAbs a b
    unfold IsWord at word ⊢
    -- A quotient of the magnitude of the least integer is that of the least integer by one.
    by_cases largest : a.tdiv b = 2 ^ 63
    · have within := (Truncates.tdiv a nonzero).within
      rw [largest, abs_mul] at within
      have least : a = -2 ^ 63 := by omega
      have one : |b| = 1 := by
        have positive := abs_pos.2 nonzero
        have size : |(2 ^ 63 : Int)| = 2 ^ 63 := abs_of_pos (by decide)
        rw [least, abs_neg, size] at within
        omega
      rcases (abs_eq (by decide)).1 one with rfl | rfl
      · rw [least] at largest
        exact absurd largest (by decide)
      · exact absurd ⟨least, rfl⟩ other
    · omega

end

/-! ## Exact results -/

/-- The operators that compute an integer. -/
def BinaryOp.isArithmetic : BinaryOp → Bool
  | add | sub | mul | div | mod => true
  | _ => false

/-- The exact result of an arithmetic operator, where there is one. -/
inductive BinaryOp.Exact : BinaryOp → Int → Int → Int → Prop
  | add (a b : Int) : Exact .add a b (a + b)
  | sub (a b : Int) : Exact .sub a b (a - b)
  | mul (a b : Int) : Exact .mul a b (a * b)
  | div {a b q : Int} (rounded : Truncates a b q) : Exact .div a b q
  | mod {a b q r : Int} (rounded : Truncates a b q) (split : a = q * b + r) : Exact .mod a b r

namespace BinaryOp

variable {a b n : Int}

theorem exact_add : Exact .add a b n ↔ n = a + b :=
  ⟨fun h => by cases h; rfl, fun same => same ▸ .add a b⟩

theorem exact_sub : Exact .sub a b n ↔ n = a - b :=
  ⟨fun h => by cases h; rfl, fun same => same ▸ .sub a b⟩

theorem exact_mul : Exact .mul a b n ↔ n = a * b :=
  ⟨fun h => by cases h; rfl, fun same => same ▸ .mul a b⟩

theorem exact_div (nonzero : b ≠ 0) : Exact .div a b n ↔ n = a.tdiv b :=
  ⟨fun h => by cases h with | div rounded => exact (truncates_iff nonzero).1 rounded,
    fun same => .div ((truncates_iff nonzero).2 same)⟩

theorem exact_mod (nonzero : b ≠ 0) : Exact .mod a b n ↔ n = a.tmod b := by
  have split := Int.tdiv_mul_add_tmod a b
  constructor
  · rintro (_ | _ | _ | _ | ⟨rounded, whole⟩)
    rw [(truncates_iff nonzero).1 rounded] at whole
    omega
  · rintro rfl
    exact .mod (.tdiv a nonzero) split.symm

/-- There is no exact quotient by zero, and no remainder. -/
theorem not_exact_zero {op : BinaryOp} (divides : op = .div ∨ op = .mod) : ¬ op.Exact a 0 n := by
  rintro (_ | _ | _ | rounded | ⟨rounded, -⟩)
  · exact absurd divides (by decide)
  · exact absurd divides (by decide)
  · exact absurd divides (by decide)
  · exact rounded.ne_zero rfl
  · exact rounded.ne_zero rfl

end BinaryOp

/-! ## Results that are exact or refused -/

/-- How an arithmetic operation ends: with its exact result, if this has 64 bits and is not
withheld; by zero it is not defined, and otherwise it overflows. -/
structure ExactOrRefused (exact : Int → Prop) (byZero withheld : Prop) (r : Except Fault Value) :
    Prop where
  value : ∀ v, r = .ok v ↔ ∃ n, v = .int n ∧ exact n ∧ IsWord n ∧ ¬ withheld
  divisionByZero : r = .error .divisionByZero ↔ byZero
  overflow : r = .error .overflow ↔ withheld ∨ ∃ n, exact n ∧ ¬ IsWord n

section

variable {exact : Int → Prop} {byZero withheld : Prop} {n : Int}

theorem exactOrRefused_word (only : ∀ m, exact m ↔ m = n) (defined : ¬ byZero)
    (granted : ¬ withheld) (word : IsWord n) :
    ExactOrRefused exact byZero withheld (.ok (.int n)) where
  value v := by simp [only, granted, word, eq_comm]
  divisionByZero := by simp [defined]
  overflow := by simp [only, granted, word]

theorem exactOrRefused_overflow (only : ∀ m, exact m ↔ m = n) (defined : ¬ byZero)
    (lost : withheld ∨ ¬ IsWord n) :
    ExactOrRefused exact byZero withheld (.error .overflow) where
  value v := by
    simp only [only, reduceCtorEq, false_iff, not_exists, not_and, not_not]
    rintro m - rfl word
    exact lost.resolve_right (not_not.2 word)
  divisionByZero := by simp [defined]
  overflow := by simpa [only] using lost

theorem exactOrRefused_exactWord (only : ∀ m, exact m ↔ m = n) (defined : ¬ byZero)
    (granted : ¬ withheld) :
    ExactOrRefused exact byZero withheld ((exactWord n).map .int) := by
  by_cases word : IsWord n
  · rw [exactWord_of_isWord word]
    exact exactOrRefused_word only defined granted word
  · rw [exactWord_of_not_isWord word]
    exact exactOrRefused_overflow only defined (.inr word)

theorem exactOrRefused_byZero (none : ∀ m, ¬ exact m) (undefined : byZero) (granted : ¬ withheld) :
    ExactOrRefused exact byZero withheld (.error .divisionByZero) where
  value v := by simp [none]
  divisionByZero := by simp [undefined]
  overflow := by simp [none, granted]

end

/-- The remainder whose quotient overflows. -/
def BinaryOp.Withheld (op : BinaryOp) (a b : Int) : Prop := op = .mod ∧ a = -2 ^ 63 ∧ b = -1

section

variable {a b : Int} {op : BinaryOp}

theorem BinaryOp.granted (other : op ≠ .mod) : ¬ op.Withheld a b := fun h => other h.1

theorem exactOrRefused_both (arithmetic : op.isArithmetic = true) (left : IsWord a)
    (right : IsWord b) :
    ExactOrRefused (op.Exact a b) (b = 0 ∧ (op = .div ∨ op = .mod)) (op.Withheld a b)
      (op.both (.int a) (.int b)) := by
  cases op with
  | add =>
    exact exactOrRefused_exactWord (fun _ => BinaryOp.exact_add) (by simp)
      (BinaryOp.granted (by decide))
  | sub =>
    exact exactOrRefused_exactWord (fun _ => BinaryOp.exact_sub) (by simp)
      (BinaryOp.granted (by decide))
  | mul =>
    exact exactOrRefused_exactWord (fun _ => BinaryOp.exact_mul) (by simp)
      (BinaryOp.granted (by decide))
  | div =>
    show ExactOrRefused _ _ _ ((wordQuotient a b).map .int)
    by_cases zero : b = 0
    · subst zero
      exact exactOrRefused_byZero (fun _ => BinaryOp.not_exact_zero (.inl rfl)) (by simp)
        (BinaryOp.granted (by decide))
    · rw [wordQuotient, if_neg zero]
      exact exactOrRefused_exactWord (fun _ => BinaryOp.exact_div zero) (by simp [zero])
        (BinaryOp.granted (by decide))
  | mod =>
    show ExactOrRefused _ _ _ ((wordRemainder a b).map .int)
    by_cases zero : b = 0
    · subst zero
      exact exactOrRefused_byZero (fun _ => BinaryOp.not_exact_zero (.inr rfl)) (by simp)
        (by simp [BinaryOp.Withheld])
    · rw [wordRemainder, wordQuotient, if_neg zero]
      by_cases fits : IsWord (a.tdiv b)
      · rw [exactWord_of_isWord fits]
        exact exactOrRefused_word (fun _ => BinaryOp.exact_mod zero) (by simp [zero])
          (fun lost => (isWord_tdiv_iff left zero).1 fits lost.2) (isWord_tmod right zero)
      · rw [exactWord_of_not_isWord fits]
        refine exactOrRefused_overflow (fun _ => BinaryOp.exact_mod zero) (by simp [zero])
          (.inl ⟨rfl, ?_⟩)
        rwa [isWord_tdiv_iff left zero, not_not] at fits
  | _ => cases arithmetic

end

/-! ## Arithmetic expressions -/

section

variable {t : SymbolTable} {activate : Activation → Run Value} {fr : Frame}

theorem run_ofExcept {α : Type} (r : Except Fault α) (s : Store) :
    (Run.ofExcept r).run s = (r.mapError .fault, s) := by
  cases r <;> rfl

theorem run_evalExpr_unary {e : Expr} {v : Value} {s s' : Store}
    (operand : (evalExpr t activate fr e).run s = (.ok v, s')) (op : UnaryOp)
    (loc : Option Location) :
    (evalExpr t activate fr (.unary op e loc)).run s = ((op.apply v).mapError .fault, s') := by
  rw [evalExpr, Run.run_bind, operand]
  exact run_ofExcept _ _

theorem run_evalExpr_binary {l r : Expr} {v w : Value} {s s₁ s₂ : Store} {op : BinaryOp}
    (left : (evalExpr t activate fr l).run s = (.ok v, s₁)) (first : op.first v = .ok none)
    (right : (evalExpr t activate fr r).run s₁ = (.ok w, s₂)) (loc : Option Location) :
    (evalExpr t activate fr (.binary op l r loc)).run s =
      ((op.both v w).mapError .fault, s₂) := by
  rw [evalExpr, Run.run_bind, left]
  dsimp only
  rw [Run.run_bind, first, run_ofExcept]
  show (evalExpr t activate fr r >>= fun b => Run.ofExcept (op.both v b)).run s₁ = _
  rw [Run.run_bind, right]
  exact run_ofExcept _ _

theorem first_of_isArithmetic {op : BinaryOp} (arithmetic : op.isArithmetic = true) (n : Int) :
    op.first (.int n) = .ok none := by
  cases op <;> first | rfl | cases arithmetic

/-- Arithmetic is exact or refused: where the operands come to integers of 64 bits, so does the
expression, to the exact result, unless that has more bits; then it overflows.  By zero nothing is
divided.  The remainder whose quotient overflows is refused as well. -/
theorem evalExpr_exactOrRefused {l : Expr} {a : Int} {s s₁ : Store}
    (left : (evalExpr t activate fr l).run s = (.ok (.int a), s₁)) (word : IsWord a)
    (loc : Option Location) :
    (∃ result, (evalExpr t activate fr (.unary .neg l loc)).run s =
        (result.mapError .fault, s₁) ∧ ExactOrRefused (· = -a) False False result) ∧
      ∀ (op : BinaryOp) (r : Expr) (b : Int) (s₂ : Store), op.isArithmetic = true →
        (evalExpr t activate fr r).run s₁ = (.ok (.int b), s₂) → IsWord b →
        ∃ result, (evalExpr t activate fr (.binary op l r loc)).run s =
            (result.mapError .fault, s₂) ∧
          ExactOrRefused (op.Exact a b) (b = 0 ∧ (op = .div ∨ op = .mod)) (op.Withheld a b)
            result := by
  constructor
  · exact ⟨_, run_evalExpr_unary left .neg loc,
      exactOrRefused_exactWord (fun _ => Iff.rfl) not_false not_false⟩
  · intro op r b s₂ arithmetic right word'
    exact ⟨_, run_evalExpr_binary left (first_of_isArithmetic arithmetic a) right loc,
      exactOrRefused_both arithmetic word word'⟩

end

/-- The activation of a method `Int remainder(Int a, Int b)`. -/
def remainderFrame (a b : Int) : Frame := ⟨0, "M", none, [[("b", .int b), ("a", .int a)]]⟩

/-- What an expression comes to in that activation, of a program without classes. -/
def evalRemainder (a b : Int) (e : Expr) : Except Stop Value × Store :=
  (evalExpr (.ofModel ⟨[]⟩) (fun _ => throw .tooDeep) (remainderFrame a b) e).run ⟨#[], 0⟩

theorem evalExpr_exactOrRefused_remainder :
    evalRemainder (-7) 2 (.var "a" none) = (.ok (.int (-7)), ⟨#[], 0⟩) ∧ IsWord (-7) ∧ IsWord 2 ∧
      BinaryOp.Exact .mod (-7) 2 (-1) ∧
      evalRemainder (-7) 2 (.binary .mod (.var "a" none) (.var "b" none) none) =
        (.ok (.int (-1)), ⟨#[], 0⟩) := by
  have left : evalRemainder (-7) 2 (.var "a" none) = (.ok (.int (-7)), ⟨#[], 0⟩) := rfl
  have exact : BinaryOp.Exact .mod (-7) 2 (-1) :=
    .mod (q := -3) ⟨by decide, by decide⟩ (by decide)
  obtain ⟨result, run, ends⟩ := (evalExpr_exactOrRefused left (by decide) none).2 .mod
    (.var "b" none) 2 ⟨#[], 0⟩ rfl rfl (by decide)
  have granted : ¬ BinaryOp.Withheld .mod (-7) 2 := fun withheld => absurd withheld.2 (by decide)
  refine ⟨left, by decide, by decide, exact, run.trans ?_⟩
  rw [(ends.value (.int (-1))).2 ⟨-1, rfl, exact, by decide, granted⟩]
  rfl

/-- The remainder of the least integer by minus one is zero, and is refused all the same. -/
theorem evalExpr_remainder_withheld :
    IsWord (-2 ^ 63) ∧ IsWord (-1) ∧ BinaryOp.Exact .mod (-2 ^ 63) (-1) 0 ∧ IsWord 0 ∧
      evalRemainder (-2 ^ 63) (-1) (.binary .mod (.var "a" none) (.var "b" none) none) =
        (.error (.fault .overflow), ⟨#[], 0⟩) :=
  ⟨by decide, by decide, .mod (q := 2 ^ 63) ⟨by decide, by decide⟩ (by decide), by decide, rfl⟩

end DeltaLang
