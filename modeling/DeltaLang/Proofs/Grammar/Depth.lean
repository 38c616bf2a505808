import DeltaLang.Proofs.Grammar.Spelling
import DeltaLang.Reading.Parse
import Mathlib.Order.Lattice

/-!
# How deep reading goes

Between two characters that are read, the recursion of a grammar goes only as deep as its rules
nest at their left ends, if none of them comes back to itself there and nothing is repeated that may
match without reading.  For the grammar of programs this is less than what a text is parsed with, so
that parsing always comes to a result, and to the one that any depth of the recursion comes to.
-/

namespace DeltaLang

/-! ## Reading moves on -/

namespace Place

theorem length_skipFrom_le (mode : BlankMode) (pos : Position) (cs : List Char) (bound : Nat)
    (here : cs.length ≤ bound) (before : ∀ start, mode = .block start → start.rest.length ≤ bound) :
    (skipFrom mode pos cs).rest.length ≤ bound := by
  induction mode, pos, cs using skipFrom.induct generalizing bound with
  | case1 pos rest ih =>
    rw [skipFrom]
    exact ih bound (by simp at here; omega) (by simp)
  | case2 pos rest ih =>
    rw [skipFrom]
    refine ih bound (by simp at here; omega) fun start same => ?_
    obtain rfl := BlankMode.block.inj same
    exact here
  | case3 pos c rest _ _ blank ih =>
    rw [skipFrom, if_pos blank]
    · exact ih bound (by simp at here; omega) (by simp)
    · assumption
    · assumption
  | case4 pos c rest _ _ visible =>
    rw [skipFrom, if_neg visible]
    · exact here
    · assumption
    · assumption
  | case5 pos c rest ih =>
    rw [skipFrom]
    exact ih bound (by simp at here; omega) (by split <;> simp)
  | case6 start pos rest ih =>
    rw [skipFrom]
    exact ih bound (by simp at here; omega) (by simp)
  | case7 start pos c rest _ ih =>
    rw [skipFrom]
    · exact ih bound (by simp at here; omega) before
    · assumption
  | case8 start pos =>
    rw [skipFrom]
    exact before start rfl
  | case9 pos => exact Nat.zero_le _
  | case10 pos => exact Nat.zero_le _

theorem length_skipBlanks_le (p : Place) : p.skipBlanks.rest.length ≤ p.rest.length :=
  length_skipFrom_le .between p.pos p.rest _ (le_refl _) (by simp)

theorem rest_of_eat? {cs : List Char} {p q : Place} (h : p.eat? cs = some q) :
    p.rest = cs ++ q.rest := by
  induction cs generalizing p with
  | nil =>
    obtain rfl : p = q := Option.some.inj h
    rfl
  | cons c cs ih =>
    obtain ⟨pos, chars⟩ := p
    cases chars with
    | nil => cases h
    | cons d chars =>
      unfold eat? at h
      by_cases same : c = d
      · rw [if_pos same] at h
        rw [same]
        exact congrArg (d :: ·) (ih h)
      · rw [if_neg same] at h
        cases h

end Place

namespace Peg

variable {ρ : Type}

/-- Whether the expression may match without reading, if the rules that `n` tells may. -/
def nullable (n : ρ → Bool) : Peg ρ → Bool
  | .empty | .span _ | .endOfText | .skip | .loop _ | .not _ => true
  | .lit cs => cs.isEmpty
  | .one _ => false
  | .cat a b => a.nullable n && b.nullable n
  | .alt a b => a.nullable n || b.nullable n
  | .rule r => n r

/-- How deep the recursion goes before something is read, if it goes as deep as `d` tells for the
rules. -/
def leftDepth (n : ρ → Bool) (d : ρ → Nat) : Peg ρ → Nat
  | .cat a b => max (a.leftDepth n d) (if a.nullable n then b.leftDepth n d else 0) + 1
  | .alt a b => max (a.leftDepth n d) (b.leftDepth n d) + 1
  | .loop a | .not a => a.leftDepth n d + 1
  | .rule r => d r + 1
  | _ => 1

/-- Nothing that may match without reading is repeated, and whatever stands behind something that
was read goes no deeper than the bound. -/
def isBounded (n : ρ → Bool) (d : ρ → Nat) (bound : Nat) : Peg ρ → Bool
  | .cat a b =>
    a.isBounded n d bound && b.isBounded n d bound && decide (b.leftDepth n d ≤ bound)
  | .alt a b => a.isBounded n d bound && b.isBounded n d bound
  | .loop a => a.isBounded n d bound && !a.nullable n && decide (a.leftDepth n d < bound)
  | .not a => a.isBounded n d bound
  | _ => true

end Peg

namespace Grammar

variable {ρ : Type}

/-- The rules that may match without reading and the depths of the rules are right, and all rules
stay within the bound. -/
structure Bounded (g : Grammar ρ) (n : ρ → Bool) (d : ρ → Nat) (bound : Nat) : Prop where
  nullable : ∀ r, (g.body r).nullable n = true → n r = true
  leftDepth : ∀ r, (g.body r).leftDepth n d ≤ d r
  within : ∀ r, (g.body r).isBounded n d bound = true

namespace Bounded

variable {g : Grammar ρ} {n : ρ → Bool} {d : ρ → Nat} {bound depth : Nat} {e : Peg ρ}
  {mode : RuleMode} {p q : Place} {seen seen' : Attempts ρ} {ts : List (ParseTree ρ)}

/-- A match does not go back, and if it must read, it moves on. -/
theorem length_le (h : g.Bounded n d bound)
    (matched : g.match? depth e mode p seen = some (.ok q ts seen')) :
    q.rest.length ≤ p.rest.length ∧ (e.nullable n = false → q.rest.length < p.rest.length) := by
  have excused {e : Peg ρ} {R : Prop} (may : e.nullable n = true) (reads : e.nullable n = false) :
      R := absurd (may.symm.trans reads) (by decide)
  induction depth generalizing e mode p seen q ts seen' with
  | zero => cases matched
  | succ depth ih =>
    cases e with
    | empty =>
      cases matched
      exact ⟨le_refl _, excused rfl⟩
    | lit cs =>
      rw [match?] at matched
      split at matched <;> cases matched
      rename_i eaten
      rw [Place.rest_of_eat? eaten, List.length_append]
      refine ⟨Nat.le_add_left _ _, fun proper => ?_⟩
      cases cs with
      | nil => cases proper
      | cons c cs =>
        rw [List.length_cons]
        omega
    | one f =>
      rw [match?] at matched
      split at matched
      · rename_i c rest here
        split at matched <;> cases matched
        rw [here, List.length_cons]
        exact ⟨Nat.le_succ _, fun _ => Nat.lt_succ_self _⟩
      · cases matched
    | span f =>
      cases matched
      rw [Place.rest_eatWhile]
      exact ⟨(List.dropWhile_suffix f).length_le, excused rfl⟩
    | endOfText =>
      rw [match?] at matched
      split at matched <;> cases matched
      exact ⟨le_refl _, excused rfl⟩
    | skip =>
      cases matched
      refine ⟨?_, excused rfl⟩
      split
      · exact p.length_skipBlanks_le
      · exact le_refl _
    | cat a b =>
      rw [match?] at matched
      split at matched
      · rename_i q₁ ts₁ seen₁ first
        split at matched
        · rename_i second
          cases matched
          have moved := ih first
          have moved' := ih second
          refine ⟨moved'.1.trans moved.1, fun proper => ?_⟩
          rcases Bool.and_eq_false_iff.1 proper with proper | proper
          · exact Nat.lt_of_le_of_lt moved'.1 (moved.2 proper)
          · exact Nat.lt_of_lt_of_le (moved'.2 proper) moved.1
        · rename_i failed
          exact absurd matched (failed _ _ _)
      · rename_i failed
        exact absurd matched (failed _ _ _)
    | alt a b =>
      rw [match?] at matched
      have either {c : Peg ρ} {seen₀ : Attempts ρ}
          (proper : c.nullable n = true → (Peg.alt a b).nullable n = true)
          (matched : g.match? depth c mode p seen₀ = some (.ok q ts seen')) :
          q.rest.length ≤ p.rest.length ∧
            ((Peg.alt a b).nullable n = false → q.rest.length < p.rest.length) := by
        have moved := ih matched
        refine ⟨moved.1, fun reads => moved.2 ?_⟩
        rw [← Bool.not_eq_true] at reads ⊢
        exact mt proper reads
      split at matched
      · exact either (fun may => Bool.or_eq_true_iff.2 (.inr may)) matched
      · exact either (fun may => Bool.or_eq_true_iff.2 (.inl may)) matched
    | loop a =>
      rw [match?] at matched
      refine ⟨?_, excused rfl⟩
      split at matched
      · cases matched
        exact le_refl _
      · rename_i first
        split at matched
        · rename_i rest
          cases matched
          exact (ih rest).1.trans (ih first).1
        · rename_i failed
          exact absurd matched (failed _ _ _)
      · cases matched
    | not a =>
      rw [match?] at matched
      split at matched <;> cases matched
      exact ⟨le_refl _, excused rfl⟩
    | rule r =>
      rw [match?] at matched
      dsimp only at matched
      split at matched
      · rename_i body
        cases matched
        have moved := ih body
        refine ⟨moved.1, fun reads => moved.2 ?_⟩
        rw [← Bool.not_eq_true] at reads ⊢
        exact mt (h.nullable r) reads
      · cases matched
      · cases matched

/-- Matching comes to a result if the recursion may go as deep as rules nest at their left ends, and
by the bound deeper for each character that is left. -/
theorem exists_match? (h : g.Bounded n d bound) (mode : RuleMode) (p : Place) (seen : Attempts ρ)
    (within : e.isBounded n d bound = true)
    (deep : e.leftDepth n d + bound * p.rest.length ≤ depth) :
    ∃ o, g.match? depth e mode p seen = some o := by
  induction depth generalizing e mode p seen with
  | zero =>
    have positive : 0 < e.leftDepth n d := by cases e <;> simp [Peg.leftDepth]
    omega
  | succ depth ih =>
    -- What stands behind something that was read has the room for it.
    have behind {q : Place} (moved : q.rest.length < p.rest.length) :
        bound + bound * q.rest.length ≤ bound * p.rest.length := by
      have less := Nat.mul_le_mul_left bound moved
      rw [Nat.mul_succ] at less
      omega
    cases e with
    | empty | span f | skip => exact ⟨_, rfl⟩
    | lit cs =>
      rw [match?]
      split <;> exact ⟨_, rfl⟩
    | one f =>
      rw [match?]
      split <;> exact ⟨_, rfl⟩
    | endOfText => exact ⟨_, rfl⟩
    | cat a b =>
      simp only [Peg.isBounded, Bool.and_eq_true, decide_eq_true_eq] at within
      rw [Peg.leftDepth] at deep
      obtain ⟨r, first⟩ := ih mode p seen within.1.1
        (by
          have left := le_max_left (a.leftDepth n d) (if a.nullable n then b.leftDepth n d else 0)
          omega)
      rw [match?, first]
      cases r with
      | fail seen' => exact ⟨_, rfl⟩
      | ok q ts seen' =>
        have moved := h.length_le first
        have room : b.leftDepth n d + bound * q.rest.length ≤ depth := by
          cases may : a.nullable n with
          | true =>
            rw [may, if_pos rfl] at deep
            have right := le_max_right (a.leftDepth n d) (b.leftDepth n d)
            have less := Nat.mul_le_mul_left bound moved.1
            omega
          | false =>
            have less := behind (moved.2 may)
            have small := within.2
            omega
        obtain ⟨r', second⟩ := ih mode q seen' within.1.2 room
        dsimp only
        rw [second]
        cases r' <;> exact ⟨_, rfl⟩
    | alt a b =>
      simp only [Peg.isBounded, Bool.and_eq_true] at within
      rw [Peg.leftDepth] at deep
      have left := le_max_left (a.leftDepth n d) (b.leftDepth n d)
      have right := le_max_right (a.leftDepth n d) (b.leftDepth n d)
      obtain ⟨r, first⟩ := ih mode p seen within.1 (by omega)
      rw [match?, first]
      cases r with
      | fail seen' => exact ih mode p seen' within.2 (by omega)
      | ok q ts seen' => exact ⟨_, rfl⟩
    | loop a =>
      have whole := within
      simp only [Peg.isBounded, Bool.and_eq_true, Bool.not_eq_true', decide_eq_true_eq] at within
      rw [Peg.leftDepth] at deep
      obtain ⟨r, first⟩ := ih mode p seen within.1.1 (by omega)
      rw [match?, first]
      cases r with
      | fail seen' => exact ⟨_, rfl⟩
      | ok q ts seen' =>
        have less := behind ((h.length_le first).2 within.1.2)
        have small := within.2
        have room : (Peg.loop a).leftDepth n d + bound * q.rest.length ≤ depth := by
          rw [Peg.leftDepth]
          omega
        obtain ⟨r', rest⟩ := ih mode q seen' whole room
        dsimp only
        rw [rest]
        cases r' <;> exact ⟨_, rfl⟩
    | not a =>
      rw [Peg.leftDepth] at deep
      obtain ⟨r, first⟩ := ih (e := a) mode p seen within (by omega)
      rw [match?, first]
      cases r <;> exact ⟨_, rfl⟩
    | rule r =>
      rw [Peg.leftDepth] at deep
      have body := h.leftDepth r
      obtain ⟨r', first⟩ := ih (if g.mode r = .normal then mode else g.mode r) p seen
        (h.within r) (by omega)
      rw [match?]
      dsimp only
      rw [first]
      cases r' <;> exact ⟨_, rfl⟩

end Bounded

end Grammar

/-! ## The grammar of programs -/

namespace Concrete

/-- The rules that may match without reading. -/
def mayBeEmpty (r : Rule) : Bool := r = .endOfInput || r = .unit || r = .stringInner

/-- How deep rules nest at their left ends, as far as the first argument allows. -/
def nesting : Nat → Rule → Nat
  | 0, _ => 0
  | k + 1, r => (body r).leftDepth mayBeEmpty (nesting k)

/-- Twelve rules are the most that nest at their left ends. -/
theorem bounded_grammar : grammar.Bounded mayBeEmpty (nesting 12) 400 where
  nullable r := by
    have all : ∀ r ∈ Rule.all, (body r).nullable mayBeEmpty = true → mayBeEmpty r = true := by
      decide +kernel
    exact all r (Rule.mem_all r)
  leftDepth r := by
    have all : ∀ r ∈ Rule.all, (body r).leftDepth mayBeEmpty (nesting 12) ≤ nesting 12 r := by
      decide +kernel
    exact all r (Rule.mem_all r)
  within r := by
    have all : ∀ r ∈ Rule.all, (body r).isBounded mayBeEmpty (nesting 12) 400 = true := by
      decide +kernel
    exact all r (Rule.mem_all r)

/-- The recursion may go deep enough for every text. -/
theorem exists_match?_unit (p : Place) (seen : Attempts Rule) :
    ∃ o, grammar.match? (matchDepth p.rest.length) (.rule .unit) .normal p seen = some o := by
  refine bounded_grammar.exists_match? .normal p seen rfl ?_
  have unit : (Peg.rule Rule.unit).leftDepth mayBeEmpty (nesting 12) ≤ 800 := by decide +kernel
  unfold matchDepth
  omega

/-- A text that the grammar spells as a unit is parsed. -/
theorem exists_parseTree (file : Option String) {text : String} {P : List (ParseTree Rule) → Prop}
    (spells : grammar.Spells (.rule .unit) .normal text.toList []
      (Grammar.NodeOf .unit text.toList P)) :
    ∃ pos ts, parseTree file text = .ok (.node .unit pos text ts) ∧ P ts := by
  have split : (Place.ofText text).rest = text.toList ++ [] := (List.append_nil _).symm
  obtain ⟨depth, q, ts, seen', matched, -, pos, xs, rfl, within⟩ :=
    spells (Place.ofText text) split .none
  obtain ⟨o, result⟩ := exists_match?_unit (Place.ofText text) .none
  -- Both are what the recursion comes to when it may go as deep as either.
  have deeper := Grammar.match?_of_le matched
    (Nat.le_max_left depth (matchDepth (Place.ofText text).rest.length))
  rw [Grammar.match?_of_le result (Nat.le_max_right depth _)] at deeper
  obtain rfl := Option.some.inj deeper
  refine ⟨pos, xs, ?_, within⟩
  unfold parseTree
  dsimp only
  rw [result, String.ofList_toList]

end Concrete

end DeltaLang
