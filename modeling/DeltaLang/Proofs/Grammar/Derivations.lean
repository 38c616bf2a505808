import DeltaLang.Proofs.Grammar.Blanks

/-!
# What matching yields

The nodes that an expression yields follow its form, and each of them is derived by the expression
of its rule from a piece of the text.  All positions met on the way, the furthest one at which
something failed among them, are positions in the text.
-/

namespace DeltaLang

variable {ρ : Type}

/-! ## The nodes of an expression -/

/-- The nodes that an expression may yield, if those of its rules are as `S` says. -/
inductive Peg.Fits (S : ParseTree ρ → Prop) : Peg ρ → List (ParseTree ρ) → Prop
  | empty : Fits S .empty []
  | lit {cs : List Char} : Fits S (.lit cs) []
  | one {f : Char → Bool} : Fits S (.one f) []
  | span {f : Char → Bool} : Fits S (.span f) []
  | endOfText : Fits S .endOfText []
  | skip : Fits S .skip []
  | not {a : Peg ρ} : Fits S (.not a) []
  | cat {a b : Peg ρ} {ts ts' : List (ParseTree ρ)} (first : Fits S a ts) (second : Fits S b ts') :
    Fits S (.cat a b) (ts ++ ts')
  | left {a b : Peg ρ} {ts : List (ParseTree ρ)} (h : Fits S a ts) : Fits S (.alt a b) ts
  | right {a b : Peg ρ} {ts : List (ParseTree ρ)} (h : Fits S b ts) : Fits S (.alt a b) ts
  | done {a : Peg ρ} : Fits S (.loop a) []
  | again {a : Peg ρ} {ts ts' : List (ParseTree ρ)} (first : Fits S a ts)
    (more : Fits S (.loop a) ts') : Fits S (.loop a) (ts ++ ts')
  | rule {r : ρ} {pos : Position} {text : String} {ts : List (ParseTree ρ)}
    (h : S (.node r pos text ts)) : Fits S (.rule r) [.node r pos text ts]

namespace Peg

/-- The rules of which an expression may yield nodes. -/
def rules : Peg ρ → List ρ
  | .cat a b | .alt a b => rules a ++ rules b
  | .loop a => rules a
  | .rule r => [r]
  | _ => []

/-- Whether an expression yields exactly one node. -/
def isSingle : Peg ρ → Bool
  | .cat a b => isSingle a && b.rules.isEmpty || a.rules.isEmpty && isSingle b
  | .alt a b => isSingle a && isSingle b
  | .rule _ => true
  | _ => false

namespace Fits

variable {S : ParseTree ρ → Prop} {a b e : Peg ρ} {r : ρ} {w : String}
  {ts : List (ParseTree ρ)}

theorem forall_mem (h : Fits S e ts) : ∀ t ∈ ts, t.rule ∈ e.rules ∧ S t := by
  induction h with
  | empty | lit | one | span | endOfText | skip | not | done =>
    exact fun _ mem => absurd mem List.not_mem_nil
  | cat _ _ ih ih' =>
    rw [List.forall_mem_append]
    exact ⟨fun t mem => (ih t mem).imp_left (List.mem_append_left _),
      fun t mem => (ih' t mem).imp_left (List.mem_append_right _)⟩
  | left _ ih => exact fun t mem => (ih t mem).imp_left (List.mem_append_left _)
  | right _ ih => exact fun t mem => (ih t mem).imp_left (List.mem_append_right _)
  | again _ _ ih ih' => exact List.forall_mem_append.2 ⟨ih, ih'⟩
  | rule h => exact List.forall_mem_singleton.2 ⟨List.mem_singleton.2 rfl, h⟩

theorem forall_mem_of (h : Fits S e ts) (rs : List ρ) (only : ∀ r ∈ e.rules, r ∈ rs) :
    ∀ t ∈ ts, t.rule ∈ rs ∧ S t :=
  fun t mem => (h.forall_mem t mem).imp_left (only t.rule)

theorem forall_rule_eq (h : Fits S e ts) (only : ∀ r' ∈ e.rules, r' = r) :
    ∀ t ∈ ts, t.rule = r ∧ S t :=
  fun t mem => (h.forall_mem t mem).imp_left (only t.rule)

theorem eq_nil (h : Fits S e ts) (silent : e.rules = []) : ts = [] :=
  List.eq_nil_iff_forall_not_mem.2 fun t mem => by
    have absent := (h.forall_mem t mem).1
    rw [silent] at absent
    exact List.not_mem_nil absent

theorem exists_eq_singleton (h : Fits S e ts) (single : e.isSingle = true) : ∃ t, ts = [t] := by
  induction h with
  | cat first second ih ih' =>
    rw [isSingle, Bool.or_eq_true, Bool.and_eq_true, Bool.and_eq_true, List.isEmpty_iff,
      List.isEmpty_iff] at single
    rcases single with ⟨single, silent⟩ | ⟨silent, single⟩
    · rw [second.eq_nil silent, List.append_nil]
      exact ih single
    · rw [first.eq_nil silent, List.nil_append]
      exact ih' single
  | left _ ih =>
    rw [isSingle, Bool.and_eq_true] at single
    exact ih single.1
  | right _ ih =>
    rw [isSingle, Bool.and_eq_true] at single
    exact ih single.2
  | rule => exact ⟨_, rfl⟩
  | _ => cases single

/-! ### Derived expressions -/

theorem of_rule (h : Fits S (.rule r) ts) :
    ∃ pos text xs, ts = [.node r pos text xs] ∧ S (.node r pos text xs) := by
  cases h with
  | rule h => exact ⟨_, _, _, rfl, h⟩

theorem of_seq (h : Fits S (.seq a b) ts) : ∃ xs ys, ts = xs ++ ys ∧ Fits S a xs ∧ Fits S b ys := by
  cases h with
  | cat first second =>
    cases second with
    | cat blanks second =>
      cases blanks
      exact ⟨_, _, rfl, first, second⟩

theorem of_rule_seq (h : Fits S (.seq (.rule r) b) ts) :
    ∃ pos text xs ys, ts = .node r pos text xs :: ys ∧ S (.node r pos text xs) ∧ Fits S b ys := by
  obtain ⟨_, ys, rfl, first, second⟩ := h.of_seq
  obtain ⟨pos, text, xs, rfl, node⟩ := first.of_rule
  exact ⟨pos, text, xs, ys, rfl, node, second⟩

/-- The one node of the first rule, or what another expression yields. -/
theorem of_rule_alt (h : Fits S (.alt (.rule r) b) ts) :
    (∃ pos text xs, ts = [.node r pos text xs] ∧ S (.node r pos text xs)) ∨ Fits S b ts := by
  cases h with
  | left h => exact .inl h.of_rule
  | right h => exact .inr h

theorem of_word_seq (h : Fits S (.seq (.word w) b) ts) : Fits S b ts := by
  obtain ⟨_, ys, rfl, first, second⟩ := h.of_seq
  obtain rfl := first.eq_nil rfl
  exact second

theorem of_seq_word (h : Fits S (.seq a (.word w)) ts) : Fits S a ts := by
  obtain ⟨xs, _, rfl, first, second⟩ := h.of_seq
  obtain rfl := second.eq_nil rfl
  rwa [List.append_nil]

theorem of_opt (h : Fits S (.opt a) ts) : ts = [] ∨ Fits S a ts := by
  cases h with
  | left h => exact .inr h
  | right h => exact .inl (h.eq_nil rfl)

/-- What is repeated yields the nodes piece by piece. -/
theorem many_induction {motive : List (ParseTree ρ) → Prop} (h : Fits S (.many a) ts)
    (nil : motive []) (cons : ∀ xs ys, Fits S a xs → motive ys → motive (xs ++ ys)) :
    motive ts := by
  have loop {e : Peg ρ} {ts : List (ParseTree ρ)} (h : Fits S e ts)
      (same : e = .loop (.cat .skip a)) : motive ts := by
    induction h with
    | done => exact nil
    | again first _ _ ih =>
      cases same
      cases first with
      | cat blanks first =>
        cases blanks
        exact cons _ _ first (ih rfl)
    | _ => cases same
  rcases h.of_opt with rfl | h
  · exact nil
  · cases h with
    | cat first more => exact cons _ _ first (loop more rfl)

end Fits

end Peg

/-! ## The nodes of a grammar -/

namespace Place

variable {o p q : Place}

theorem reaches_of_eat? {cs : List Char} (h : p.eat? cs = some q) : p.Reaches q := by
  induction cs generalizing p with
  | nil =>
    obtain rfl : p = q := Option.some.inj h
    exact .refl p
  | cons c cs ih =>
    obtain ⟨pos, chars⟩ := p
    cases chars with
    | nil => cases h
    | cons d chars =>
      unfold eat? at h
      split at h
      · exact (Reaches.refl _).next.trans (ih h)
      · cases h

theorem reaches_eatWhile (f : Char → Bool) (pos : Position) (cs : List Char) :
    Reaches ⟨pos, cs⟩ (eatWhile f pos cs) := by
  induction cs generalizing pos with
  | nil => exact .refl _
  | cons c cs ih =>
    unfold eatWhile
    split
    · exact (Reaches.refl _).next.trans (ih _)
    · exact .refl _

end Place

/-- The furthest position is one on the way through the text from the place. -/
def Attempts.Within (o : Place) (a : Attempts ρ) : Prop := ∃ q, o.Reaches q ∧ q.pos = a.pos

theorem Attempts.Within.note {o p : Place} {a : Attempts ρ} (h : a.Within o) (here : o.Reaches p)
    (entry : Attempts ρ) (r : ρ) : (a.note entry p.pos r).Within o := by
  unfold Attempts.note
  split
  · exact h
  · split
    · exact h
    · split
      · exact ⟨p, here, rfl⟩
      · exact h

namespace Grammar

/-- A node that is derived by its rule from a piece of the text after the place. -/
inductive Derives (g : Grammar ρ) (o : Place) : ParseTree ρ → Prop
  | leaf {r : ρ} {p q : Place} (atomic : g.mode r = .atomic) (reached : o.Reaches p)
    (matched : g.Matches (g.body r) .atomic p q) : Derives g o (.node r p.pos (p.textUntil q) [])
  | node {r : ρ} {mode : RuleMode} {p q : Place} {ts : List (ParseTree ρ)}
    (proper : g.mode r ≠ .atomic) (reached : o.Reaches p)
    (matched : g.Matches (g.body r) mode p q) (within : (g.body r).Fits (Derives g o) ts) :
    Derives g o (.node r p.pos (p.textUntil q) ts)

section

variable {g : Grammar ρ} {o p q : Place} {r : ρ} {pos : Position} {text : String}
  {ts : List (ParseTree ρ)}

theorem Derives.fits (h : g.Derives o (.node r pos text ts)) (proper : g.mode r ≠ .atomic) :
    (g.body r).Fits (g.Derives o) ts := by
  cases h with
  | leaf atomic => exact absurd atomic proper
  | node _ _ _ within => exact within

theorem Derives.exists_matches (h : g.Derives o (.node r pos text ts)) :
    ∃ mode p q, o.Reaches p ∧ g.Matches (g.body r) mode p q ∧ text = p.textUntil q := by
  cases h with
  | leaf _ reached matched => exact ⟨_, _, _, reached, matched, rfl⟩
  | node _ reached matched => exact ⟨_, _, _, reached, matched, rfl⟩

end

/-- The nodes that an expression yields in a mode: an atomic rule keeps none. -/
def Yields (g : Grammar ρ) (o : Place) (e : Peg ρ) (mode : RuleMode) (ts : List (ParseTree ρ)) :
    Prop := (mode = .atomic → ts = []) ∧ (mode ≠ .atomic → e.Fits (g.Derives o) ts)

/-- Failing or not, matching stays within the text, and what it yields is derived. -/
def Sound (g : Grammar ρ) (o : Place) (e : Peg ρ) (mode : RuleMode) : Outcome ρ → Prop
  | .fail seen => seen.Within o
  | .ok q ts seen => seen.Within o ∧ o.Reaches q ∧ g.Yields o e mode ts

theorem Sound.imp {g : Grammar ρ} {o : Place} {a b : Peg ρ} {mode : RuleMode}
    {result : Outcome ρ} (h : g.Sound o a mode result)
    (weaker : ∀ ts, a.Fits (g.Derives o) ts → b.Fits (g.Derives o) ts) :
    g.Sound o b mode result := by
  cases result with
  | fail seen => exact h
  | ok q ts seen => exact ⟨h.1, h.2.1, h.2.2.1, fun proper => weaker ts (h.2.2.2 proper)⟩

theorem sound_of_match? {g : Grammar ρ} {o p : Place} {depth : Nat} {e : Peg ρ} {mode : RuleMode}
    {seen : Attempts ρ} {result : Outcome ρ} (h : g.match? depth e mode p seen = some result)
    (here : o.Reaches p) (before : seen.Within o) : g.Sound o e mode result := by
  induction depth generalizing e mode p seen result with
  | zero => cases h
  | succ depth ih =>
    have still {e : Peg ρ} (fits : e.Fits (g.Derives o) []) :
        g.Sound o e mode (.ok p [] seen) :=
      ⟨before, here, fun _ => rfl, fun _ => fits⟩
    cases e with
    | empty =>
      cases h
      exact still .empty
    | lit cs =>
      simp only [match?] at h
      split at h
      · rename_i eaten
        cases h
        exact ⟨before, here.trans (Place.reaches_of_eat? eaten), fun _ => rfl, fun _ => .lit⟩
      · cases h
        exact before
    | one f =>
      simp only [match?] at h
      split at h
      · rename_i c rest found
        split at h
        · cases h
          obtain ⟨pos, chars⟩ := p
          obtain rfl : chars = c :: rest := found
          exact ⟨before, here.next, fun _ => rfl, fun _ => .one⟩
        · cases h
          exact before
      · cases h
        exact before
    | span f =>
      cases h
      exact ⟨before, here.trans (Place.reaches_eatWhile f p.pos p.rest), fun _ => rfl,
        fun _ => .span⟩
    | endOfText =>
      simp only [match?] at h
      split at h
      · cases h
        exact still .endOfText
      · cases h
        exact before
    | skip =>
      simp only [match?] at h
      split at h
      · cases h
        exact ⟨before, here.trans p.reaches_skipBlanks, fun _ => rfl, fun _ => .skip⟩
      · cases h
        exact still .skip
    | not a =>
      simp only [match?] at h
      split at h
      · cases h
        exact still .not
      · cases h
        exact before
      · cases h
    | cat a b =>
      simp only [match?] at h
      split at h
      · rename_i first
        obtain ⟨before, here, none, fits⟩ := ih first here before
        split at h
        · rename_i second
          obtain ⟨before, here, none', fits'⟩ := ih second here before
          cases h
          exact ⟨before, here, fun atomic => by rw [none atomic, none' atomic]; rfl,
            fun proper => .cat (fits proper) (fits' proper)⟩
        · rename_i failed
          have after := ih h here before
          cases result with
          | fail seen => exact after
          | ok q ts seen => exact absurd h (failed _ _ _)
      · rename_i failed
        have after := ih h here before
        cases result with
        | fail seen => exact after
        | ok q ts seen => exact absurd h (failed _ _ _)
    | alt a b =>
      simp only [match?] at h
      split at h
      · rename_i first
        exact (ih h here (ih first here before)).imp fun _ => .right
      · exact (ih h here before).imp fun _ => .left
    | loop a =>
      simp only [match?] at h
      split at h
      · rename_i first
        cases h
        exact ⟨ih first here before, here, fun _ => rfl, fun _ => .done⟩
      · rename_i first
        obtain ⟨before, here, none, fits⟩ := ih first here before
        split at h
        · rename_i rest
          obtain ⟨before, here, none', fits'⟩ := ih rest here before
          cases h
          exact ⟨before, here, fun atomic => by rw [none atomic, none' atomic]; rfl,
            fun proper => .again (fits proper) (fits' proper)⟩
        · rename_i failed
          have after := ih h here before
          cases result with
          | fail seen => exact after
          | ok q ts seen => exact absurd h (failed _ _ _)
      · cases h
    | rule r =>
      simp only [match?] at h
      split at h
      · rename_i q ts seen' within
        obtain ⟨before', here', none, fits⟩ := ih within here before
        cases h
        refine ⟨before', here', fun atomic => if_pos atomic, fun proper => ?_⟩
        rw [if_neg proper]
        refine .rule ?_
        by_cases atomic : g.mode r = .atomic
        · rw [if_neg (by rw [atomic]; decide)] at within none
          rw [none atomic]
          exact .leaf atomic here ⟨depth, seen, ts, seen', atomic ▸ within⟩
        · refine .node atomic here ⟨depth, seen, ts, seen', within⟩ (fits ?_)
          split
          · exact proper
          · exact atomic
      · rename_i seen' within
        cases h
        have before' : Attempts.Within o seen' := ih within here before
        show Attempts.Within o (if mode = .atomic then seen' else seen'.note seen p.pos r)
        split
        · exact before'
        · exact before'.note here seen r
      · cases h

end Grammar

end DeltaLang
