import DeltaLang.Proofs.Reading.Names

/-!
# What a grammar reads

An expression spells a text in front of another one if it reads just that text there, and refuses
a text if it does not match at its start.  How deep the recursion may go and what failed before
make no difference to either.  What an expression spells is put together from what its parts do;
where a part must not match, it refuses what is left.
-/

namespace DeltaLang

/-! ## Places -/

namespace Place

variable {p q : Place} {cs cs' rest : List Char}

theorem Reads.nil (p : Place) : p.Reads p [] := ⟨rfl, rfl⟩

theorem Reads.one (pos : Position) (c : Char) (rest : List Char) :
    Reads ⟨pos, c :: rest⟩ ⟨pos.advance c, rest⟩ [c] := ⟨rfl, Position.offset_advance pos c⟩

/-- What is left is what comes after the text that was read. -/
theorem Reads.rest_eq (h : p.Reads q cs) (split : p.rest = cs ++ rest) : q.rest = rest :=
  List.append_cancel_left (h.rest.symm.trans split)

theorem exists_eat? (split : p.rest = cs ++ rest) : ∃ q, p.eat? cs = some q ∧ p.Reads q cs := by
  induction cs generalizing p with
  | nil => exact ⟨p, rfl, .nil p⟩
  | cons c cs ih =>
    obtain ⟨pos, chars⟩ := p
    obtain rfl : chars = c :: (cs ++ rest) := split
    obtain ⟨q, eaten, reads⟩ := ih (p := ⟨pos.advance c, cs ++ rest⟩) rfl
    refine ⟨q, ?_, (Reads.one pos c _).trans reads⟩
    rw [eat?, if_pos rfl, eaten]

theorem eat?_eq_none (h : ¬ cs <+: p.rest) : p.eat? cs = none := by
  induction cs generalizing p with
  | nil => exact absurd (List.nil_prefix) h
  | cons c cs ih =>
    obtain ⟨pos, chars⟩ := p
    cases chars with
    | nil => rfl
    | cons d chars =>
      unfold eat?
      by_cases same : c = d
      · subst same
        rw [if_pos rfl]
        exact ih fun longer => h (List.cons_prefix_cons.2 ⟨rfl, longer⟩)
      · rw [if_neg same]

theorem takeWhile_of_stop {f : Char → Bool} (all : ∀ c ∈ cs, f c = true)
    (stop : ∀ c ∈ rest.head?, f c = false) : (cs ++ rest).takeWhile f = cs := by
  rw [List.takeWhile_append_of_pos all]
  cases rest with
  | nil => simp
  | cons c rest => simp [stop c rfl]

/-- The text is not blank at its start. -/
def Solid (cs : List Char) : Prop := ∀ pos, skipBlanks ⟨pos, cs⟩ = ⟨pos, cs⟩

theorem solid_cons {c : Char} (visible : isBlank c = false) (notComment : c ≠ '/') :
    Solid (c :: rest) := by
  intro pos
  unfold skipBlanks
  rw [skipFrom, if_neg (by simp [visible])]
  all_goals
    intro _ slash
    exact absurd slash notComment

theorem solid_word {w : String}
    (visible : w.toList.head?.any (fun c => !isBlank c && c != '/') = true) (rest : List Char) :
    Solid (w.toList ++ rest) := by
  cases split : w.toList with
  | nil => simp [split] at visible
  | cons c cs =>
    rw [split] at visible
    simp only [List.head?_cons, Option.any_some, Bool.and_eq_true, Bool.not_eq_true',
      bne_iff_ne] at visible
    exact solid_cons visible.1 visible.2

theorem solid_append {cs : List Char} (solid : ∀ rest, Solid (cs ++ rest))
    (more rest : List Char) : Solid (cs ++ more ++ rest) := by
  rw [List.append_assoc]
  exact solid _

/-- Skipping reads the blanks up to a solid text. -/
theorem reads_skipBlanks {blanks : List Char} (pos : Position)
    (all : ∀ c ∈ blanks, isBlank c = true) (solid : Solid rest) :
    Reads ⟨pos, blanks ++ rest⟩ (skipBlanks ⟨pos, blanks ++ rest⟩) blanks := by
  induction blanks generalizing pos with
  | nil =>
    rw [List.nil_append, solid pos]
    exact .nil _
  | cons c blanks ih =>
    have blank := all c (List.mem_cons_self ..)
    have notSlash : c ≠ '/' := by
      rintro rfl
      cases blank
    have step : skipBlanks ⟨pos, c :: (blanks ++ rest)⟩ =
        skipBlanks ⟨pos.advance c, blanks ++ rest⟩ := by
      unfold skipBlanks
      rw [skipFrom, if_pos blank]
      all_goals
        intro _ slash
        exact absurd slash notSlash
    rw [List.cons_append, step]
    exact (Reads.one pos c _).trans (ih _ fun d mem => all d (List.mem_cons_of_mem c mem))

end Place

namespace Grammar

variable {ρ : Type} (g : Grammar ρ)

/-! ## The depth of the recursion -/

section

variable {g} {depth : Nat} {e : Peg ρ} {mode : RuleMode} {p : Place} {seen : Attempts ρ}
  {o : Outcome ρ}

/-- A result does not change when the recursion may go deeper. -/
theorem match?_succ (h : g.match? depth e mode p seen = some o) :
    g.match? (depth + 1) e mode p seen = some o := by
  induction depth generalizing e mode p seen o with
  | zero => cases h
  | succ depth ih =>
    cases e with
    | empty | lit cs | one f | span f | endOfText | skip => exact h
    | cat a b =>
      rw [match?] at h ⊢
      cases first : g.match? depth a mode p seen with
      | none => simp [first] at h
      | some r =>
        rw [first] at h
        rw [ih first]
        cases r with
        | fail seen' => exact h
        | ok q ts seen' =>
          dsimp only at h ⊢
          cases second : g.match? depth b mode q seen' with
          | none => simp [second] at h
          | some r' =>
            rw [second] at h
            rw [ih second]
            exact h
    | alt a b =>
      rw [match?] at h ⊢
      cases first : g.match? depth a mode p seen with
      | none => simp [first] at h
      | some r =>
        rw [first] at h
        rw [ih first]
        cases r with
        | fail seen' => exact ih h
        | ok q ts seen' => exact h
    | loop a =>
      rw [match?] at h ⊢
      cases first : g.match? depth a mode p seen with
      | none => simp [first] at h
      | some r =>
        rw [first] at h
        rw [ih first]
        cases r with
        | fail seen' => exact h
        | ok q ts seen' =>
          dsimp only at h ⊢
          cases second : g.match? depth (.loop a) mode q seen' with
          | none => simp [second] at h
          | some r' =>
            rw [second] at h
            rw [ih second]
            exact h
    | not a =>
      rw [match?] at h ⊢
      cases first : g.match? depth a mode p seen with
      | none => simp [first] at h
      | some r =>
        rw [first] at h
        rw [ih first]
        exact h
    | rule r =>
      rw [match?] at h ⊢
      cases first : g.match? depth (g.body r) (if g.mode r = .normal then mode else g.mode r) p
          seen with
      | none => simp [first] at h
      | some r =>
        rw [first] at h
        rw [ih first]
        exact h

theorem match?_of_le {depth' : Nat} (h : g.match? depth e mode p seen = some o)
    (le : depth ≤ depth') : g.match? depth' e mode p seen = some o := by
  induction le with
  | refl => exact h
  | step _ ih => exact match?_succ ih

end

/-! ## Spelling and refusing -/

/-- In front of `rest` the expression reads `cs`, and the nodes within satisfy `P`. -/
def Spells (e : Peg ρ) (mode : RuleMode) (cs rest : List Char)
    (P : List (ParseTree ρ) → Prop) : Prop :=
  ∀ p : Place, p.rest = cs ++ rest → ∀ seen, ∃ depth q ts seen',
    g.match? depth e mode p seen = some (.ok q ts seen') ∧ p.Reads q cs ∧ P ts

/-- The expression does not match at the start of the text. -/
def Refuses (e : Peg ρ) (mode : RuleMode) (cs : List Char) : Prop :=
  ∀ p : Place, p.rest = cs → ∀ seen, ∃ depth seen',
    g.match? depth e mode p seen = some (.fail seen')

/-- No nodes. -/
def Silent (ts : List (ParseTree ρ)) : Prop := ts = []

/-- Nodes of the first sort, and then nodes of the second. -/
def Both (P Q : List (ParseTree ρ) → Prop) (ts : List (ParseTree ρ)) : Prop :=
  ∃ xs ys, ts = xs ++ ys ∧ P xs ∧ Q ys

variable {g} {a b e : Peg ρ} {mode : RuleMode} {cs cs' rest : List Char} {f : Char → Bool}
  {P Q R : List (ParseTree ρ) → Prop}

theorem Spells.imp (h : g.Spells e mode cs rest P) (weaker : ∀ ts, P ts → Q ts) :
    g.Spells e mode cs rest Q := by
  intro p split seen
  obtain ⟨depth, q, ts, seen', matched, reads, nodes⟩ := h p split seen
  exact ⟨depth, q, ts, seen', matched, reads, weaker ts nodes⟩

theorem refuses_of_match? (depth : Nat) (h : ∀ pos seen, ∃ seen',
    g.match? depth e mode ⟨pos, rest⟩ seen = some (.fail seen')) : g.Refuses e mode rest := by
  rintro ⟨pos, _⟩ rfl seen
  exact ⟨depth, h pos seen⟩

/-! ### Single characters and texts -/

theorem spells_empty (mode : RuleMode) (rest : List Char) :
    g.Spells .empty mode [] rest Silent :=
  fun p _ seen => ⟨1, p, [], seen, rfl, .nil p, rfl⟩

theorem spells_lit (mode : RuleMode) (cs rest : List Char) :
    g.Spells (.lit cs) mode cs rest Silent := by
  intro p split seen
  obtain ⟨q, eaten, reads⟩ := Place.exists_eat? split
  refine ⟨1, q, [], seen, ?_, reads, rfl⟩
  rw [match?, eaten]

theorem refuses_lit (h : ¬ cs <+: rest) : g.Refuses (.lit cs) mode rest := by
  rintro p rfl seen
  refine ⟨1, seen, ?_⟩
  rw [match?, Place.eat?_eq_none h]

theorem spells_one {c : Char} (mode : RuleMode) (pass : f c = true) (rest : List Char) :
    g.Spells (.one f) mode [c] rest Silent := by
  rintro ⟨pos, _⟩ rfl seen
  refine ⟨1, ⟨pos.advance c, rest⟩, [], seen, ?_, .one pos c rest, rfl⟩
  rw [match?]
  dsimp only [List.singleton_append]
  rw [if_pos pass]

theorem refuses_lit_cons {c d : Char} (other : c ≠ d) :
    g.Refuses (.lit (d :: cs)) mode (c :: rest) :=
  refuses_lit fun starts => other (List.cons_prefix_cons.1 starts).1.symm

theorem refuses_lit_of_head {c : Char} (stop : ∀ d ∈ rest.head?, d ≠ c) :
    g.Refuses (.lit (c :: cs)) mode rest := by
  refine refuses_lit fun starts => ?_
  obtain ⟨more, rfl⟩ := starts
  exact stop c rfl rfl

theorem refuses_one (stop : ∀ c ∈ rest.head?, f c = false) : g.Refuses (.one f) mode rest := by
  rintro p rfl seen
  obtain ⟨pos, chars⟩ := p
  refine ⟨1, seen, ?_⟩
  cases chars with
  | nil => rfl
  | cons c chars =>
    rw [match?]
    dsimp only
    rw [if_neg (by simp [stop c rfl])]

theorem spells_span (mode : RuleMode) (all : ∀ c ∈ cs, f c = true)
    (stop : ∀ c ∈ rest.head?, f c = false) : g.Spells (.span f) mode cs rest Silent := by
  intro p split seen
  have reads := Place.reads_eatWhile f p.pos p.rest
  rw [split, Place.takeWhile_of_stop all stop, ← split] at reads
  exact ⟨1, _, [], seen, rfl, reads, rfl⟩

theorem spells_endOfText (mode : RuleMode) : g.Spells .endOfText mode [] [] Silent := by
  intro p split seen
  refine ⟨1, p, [], seen, ?_, .nil p, rfl⟩
  rw [match?, split]
  rfl

theorem spells_skip_of_ne (proper : mode ≠ .normal) (rest : List Char) :
    g.Spells .skip mode [] rest Silent := by
  intro p split seen
  refine ⟨1, p, [], seen, ?_, .nil p, rfl⟩
  rw [match?, if_neg proper]

theorem spells_skip {blanks : List Char} (all : ∀ c ∈ blanks, Place.isBlank c = true)
    (solid : Place.Solid rest) : g.Spells .skip .normal blanks rest Silent := by
  rintro ⟨pos, _⟩ rfl seen
  exact ⟨1, _, [], seen, rfl, Place.reads_skipBlanks pos all solid, rfl⟩

theorem spells_skip_nil (solid : Place.Solid rest) : g.Spells .skip .normal [] rest Silent :=
  spells_skip (List.forall_mem_nil _) solid

theorem spells_skip_atomic (rest : List Char) : g.Spells .skip .atomic [] rest Silent :=
  spells_skip_of_ne (by decide) rest

/-! ### One after the other -/

theorem Spells.cat (first : g.Spells a mode cs (cs' ++ rest) P)
    (second : g.Spells b mode cs' rest Q) :
    g.Spells (.cat a b) mode (cs ++ cs') rest (Both P Q) := by
  intro p split seen
  rw [List.append_assoc] at split
  obtain ⟨depth, q, xs, seen₁, matched, reads, nodes⟩ := first p split seen
  obtain ⟨depth', q', ys, seen₂, matched', reads', nodes'⟩ := second q (reads.rest_eq split) seen₁
  refine ⟨max depth depth' + 1, q', xs ++ ys, seen₂, ?_, reads.trans reads', xs, ys, rfl, nodes,
    nodes'⟩
  rw [match?, match?_of_le matched (le_max_left ..)]
  dsimp only
  rw [match?_of_le matched' (le_max_right ..)]

theorem Spells.then (first : g.Spells a mode cs (cs' ++ rest) Silent)
    (second : g.Spells b mode cs' rest Q) : g.Spells (.cat a b) mode (cs ++ cs') rest Q := by
  refine (first.cat second).imp ?_
  rintro _ ⟨_, ys, rfl, rfl, nodes⟩
  exact nodes

theorem Spells.before (first : g.Spells a mode cs (cs' ++ rest) P)
    (second : g.Spells b mode cs' rest Silent) : g.Spells (.cat a b) mode (cs ++ cs') rest P := by
  refine (first.cat second).imp ?_
  rintro _ ⟨xs, _, rfl, nodes, rfl⟩
  rwa [List.append_nil]

theorem Refuses.cat (first : g.Refuses a mode rest) : g.Refuses (.cat a b) mode rest := by
  intro p split seen
  obtain ⟨depth, seen', failed⟩ := first p split seen
  refine ⟨depth + 1, seen', ?_⟩
  rw [match?, failed]

theorem Spells.refuses_cat (first : g.Spells a mode cs rest P) (second : g.Refuses b mode rest) :
    g.Refuses (.cat a b) mode (cs ++ rest) := by
  intro p split seen
  obtain ⟨depth, q, xs, seen₁, matched, reads, -⟩ := first p split seen
  obtain ⟨depth', seen₂, failed⟩ := second q (reads.rest_eq split) seen₁
  refine ⟨max depth depth' + 1, seen₂, ?_⟩
  rw [match?, match?_of_le matched (le_max_left ..)]
  dsimp only
  rw [match?_of_le failed (le_max_right ..)]

/-! ### Choices -/

theorem Spells.alt (first : g.Spells a mode cs rest P) : g.Spells (.alt a b) mode cs rest P := by
  intro p split seen
  obtain ⟨depth, q, ts, seen', matched, reads, nodes⟩ := first p split seen
  refine ⟨depth + 1, q, ts, seen', ?_, reads, nodes⟩
  rw [match?, matched]

theorem Refuses.orElse (first : g.Refuses a mode (cs ++ rest))
    (second : g.Spells b mode cs rest P) : g.Spells (.alt a b) mode cs rest P := by
  intro p split seen
  obtain ⟨depth, seen₁, failed⟩ := first p split seen
  obtain ⟨depth', q, ts, seen₂, matched, reads, nodes⟩ := second p split seen₁
  refine ⟨max depth depth' + 1, q, ts, seen₂, ?_, reads, nodes⟩
  rw [match?, match?_of_le failed (le_max_left ..)]
  exact match?_of_le matched (le_max_right ..)

theorem Refuses.alt (first : g.Refuses a mode rest) (second : g.Refuses b mode rest) :
    g.Refuses (.alt a b) mode rest := by
  intro p split seen
  obtain ⟨depth, seen₁, failed⟩ := first p split seen
  obtain ⟨depth', seen₂, failed'⟩ := second p split seen₁
  refine ⟨max depth depth' + 1, seen₂, ?_⟩
  rw [match?, match?_of_le failed (le_max_left ..)]
  exact match?_of_le failed' (le_max_right ..)

/-! ### Repetitions -/

theorem Refuses.loop (h : g.Refuses a mode rest) : g.Spells (.loop a) mode [] rest Silent := by
  intro p split seen
  obtain ⟨depth, seen', failed⟩ := h p split seen
  refine ⟨depth + 1, p, [], seen', ?_, .nil p, rfl⟩
  rw [match?, failed]

theorem Spells.loop (first : g.Spells a mode cs (cs' ++ rest) P)
    (more : g.Spells (.loop a) mode cs' rest Q) :
    g.Spells (.loop a) mode (cs ++ cs') rest (Both P Q) := by
  intro p split seen
  rw [List.append_assoc] at split
  obtain ⟨depth, q, xs, seen₁, matched, reads, nodes⟩ := first p split seen
  obtain ⟨depth', q', ys, seen₂, matched', reads', nodes'⟩ := more q (reads.rest_eq split) seen₁
  refine ⟨max depth depth' + 1, q', xs ++ ys, seen₂, ?_, reads.trans reads', xs, ys, rfl, nodes,
    nodes'⟩
  rw [match?, match?_of_le matched (le_max_left ..)]
  dsimp only
  rw [match?_of_le matched' (le_max_right ..)]

/-! ### Looking ahead -/

theorem Refuses.not (h : g.Refuses a mode rest) : g.Spells (.not a) mode [] rest Silent := by
  intro p split seen
  obtain ⟨depth, seen', failed⟩ := h p split seen
  refine ⟨depth + 1, p, [], seen, ?_, .nil p, rfl⟩
  rw [match?, failed]

theorem Spells.not (h : g.Spells a mode cs rest P) : g.Refuses (.not a) mode (cs ++ rest) := by
  intro p split seen
  obtain ⟨depth, q, ts, seen', matched, -⟩ := h p split seen
  refine ⟨depth + 1, seen, ?_⟩
  rw [match?, matched]

/-! ### Rules -/

/-- The node of a rule, with its text and with such nodes within. -/
def NodeOf (r : ρ) (cs : List Char) (P : List (ParseTree ρ) → Prop) (ts : List (ParseTree ρ)) :
    Prop :=
  ∃ pos xs, ts = [.node r pos (String.ofList cs) xs] ∧ P xs

theorem Spells.rule {r : ρ} {inner : RuleMode}
    (within : inner = if g.mode r = .normal then mode else g.mode r) (keeps : mode ≠ .atomic)
    (h : g.Spells (g.body r) inner cs rest P) :
    g.Spells (.rule r) mode cs rest (NodeOf r cs P) := by
  subst within
  intro p split seen
  obtain ⟨depth, q, ts, seen', matched, reads, nodes⟩ := h p split seen
  refine ⟨depth + 1, q, _, seen', ?_, reads, p.pos, ts, rfl, nodes⟩
  rw [match?]
  dsimp only
  rw [matched]
  dsimp only
  rw [if_neg keeps, reads.textUntil]

theorem Spells.rule_normal {r : ρ} (normal : g.mode r = .normal)
    (h : g.Spells (g.body r) .normal cs rest P) :
    g.Spells (.rule r) .normal cs rest (NodeOf r cs P) :=
  h.rule (if_pos normal).symm (by decide)

theorem Spells.rule_atomic {r : ρ} {inner : RuleMode}
    (within : inner = if g.mode r = .normal then .atomic else g.mode r)
    (h : g.Spells (g.body r) inner cs rest P) : g.Spells (.rule r) .atomic cs rest Silent := by
  subst within
  intro p split seen
  obtain ⟨depth, q, ts, seen', matched, reads, -⟩ := h p split seen
  refine ⟨depth + 1, q, [], seen', ?_, reads, rfl⟩
  rw [match?]
  dsimp only
  rw [matched]
  rfl

theorem Refuses.rule {r : ρ} {inner : RuleMode}
    (within : inner = if g.mode r = .normal then mode else g.mode r)
    (h : g.Refuses (g.body r) inner rest) : g.Refuses (.rule r) mode rest := by
  subst within
  intro p split seen
  obtain ⟨depth, seen', failed⟩ := h p split seen
  refine ⟨depth + 1, if mode = .atomic then seen' else seen'.note seen p.pos r, ?_⟩
  rw [match?]
  dsimp only
  rw [failed]

/-! ## Derived expressions -/

theorem Refuses.opt (h : g.Refuses a mode rest) : g.Spells (.opt a) mode [] rest Silent :=
  Refuses.orElse h (spells_empty mode rest)

theorem Spells.opt (h : g.Spells a mode cs rest P) : g.Spells (.opt a) mode cs rest P := h.alt

section

variable {blanks : List Char} (blank : g.Spells .skip mode blanks (cs' ++ rest) Silent)

include blank

theorem Spells.seq (first : g.Spells a mode cs (blanks ++ (cs' ++ rest)) P)
    (second : g.Spells b mode cs' rest Q) :
    g.Spells (.seq a b) mode (cs ++ (blanks ++ cs')) rest (Both P Q) := by
  rw [← List.append_assoc] at first
  exact first.cat (blank.then second)

/-- After something without nodes. -/
theorem Spells.seq_then (first : g.Spells a mode cs (blanks ++ (cs' ++ rest)) Silent)
    (second : g.Spells b mode cs' rest Q) :
    g.Spells (.seq a b) mode (cs ++ (blanks ++ cs')) rest Q := by
  rw [← List.append_assoc] at first
  exact first.then (blank.then second)

/-- In front of something without nodes. -/
theorem Spells.seq_before (first : g.Spells a mode cs (blanks ++ (cs' ++ rest)) P)
    (second : g.Spells b mode cs' rest Silent) :
    g.Spells (.seq a b) mode (cs ++ (blanks ++ cs')) rest P := by
  rw [← List.append_assoc] at first
  exact first.before (blank.then second)

end

/-- With nothing but blanks behind. -/
theorem Spells.seq_blanks {blanks : List Char} (blank : g.Spells .skip mode blanks rest Silent)
    (first : g.Spells a mode cs (blanks ++ rest) P) (second : g.Spells b mode [] rest Silent) :
    g.Spells (.seq a b) mode (cs ++ blanks) rest P := by
  have behind : g.Spells (.cat .skip b) mode blanks rest Silent := by
    have both : g.Spells (.cat .skip b) mode (blanks ++ []) rest Silent := blank.then second
    rwa [List.append_nil] at both
  exact first.before behind

theorem Spells.refuses_seq {blanks : List Char} (blank : g.Spells .skip mode blanks rest Silent)
    (first : g.Spells a mode cs (blanks ++ rest) P) (second : g.Refuses b mode rest) :
    g.Refuses (.seq a b) mode (cs ++ (blanks ++ rest)) :=
  first.refuses_cat (blank.refuses_cat second)

theorem Refuses.many (h : g.Refuses a mode rest) : g.Spells (.many a) mode [] rest Silent :=
  h.cat.opt

theorem Spells.many (first : g.Spells a mode cs (cs' ++ rest) P)
    (more : g.Spells (.loop (.cat .skip a)) mode cs' rest Q) :
    g.Spells (.many a) mode (cs ++ cs') rest (Both P Q) := (first.cat more).opt

/-- Once, and not again. -/
theorem Spells.many_one (first : g.Spells a mode cs rest P)
    (stop : g.Refuses (.cat .skip a) mode rest) : g.Spells (.many a) mode cs rest P := by
  have both := (first.before stop.loop : g.Spells _ mode (cs ++ []) rest P)
  rw [List.append_nil] at both
  exact both.opt

theorem Spells.choice {back : List (Peg ρ)} (here : g.Spells a mode cs rest P) :
    g.Spells (.choice (a :: back)) mode cs rest P := by
  cases back with
  | nil => exact here
  | cons b back => exact here.alt

/-- The alternatives after some that all fail are tried with what these left. -/
theorem match?_choice_append {front back : List (Peg ρ)} {p : Place} {seen seen' : Attempts ρ}
    {o : Outcome ρ}
    (earlier : ∃ depth, g.match? depth (.choice front) mode p seen = some (.fail seen'))
    (later : ∃ depth, g.match? depth (.choice (a :: back)) mode p seen' = some o) :
    ∃ depth, g.match? depth (.choice (front ++ a :: back)) mode p seen = some o := by
  induction front generalizing seen with
  | nil =>
    obtain ⟨_ | _ | depth, failed⟩ := earlier
    · cases failed
    · cases failed
    · cases failed
      exact later
  | cons b front ih =>
    obtain ⟨depth, failed⟩ := earlier
    obtain ⟨seen₁, first, ⟨depth', rest⟩⟩ : ∃ seen₁,
        (∃ depth, g.match? depth b mode p seen = some (.fail seen₁)) ∧
          ∃ depth, g.match? depth (.choice (front ++ a :: back)) mode p seen₁ = some o := by
      cases front with
      | nil => exact ⟨seen', ⟨depth, failed⟩, later⟩
      | cons b' front =>
        cases depth with
        | zero => cases failed
        | succ depth =>
          change g.match? (depth + 1) (.alt b (.choice (b' :: front))) mode p seen = _ at failed
          rw [match?] at failed
          cases first : g.match? depth b mode p seen with
          | none => simp [first] at failed
          | some r =>
            rw [first] at failed
            cases r with
            | fail seen₁ => exact ⟨seen₁, ⟨depth, first⟩, ih ⟨depth, failed⟩⟩
            | ok q ts seen₁ => cases failed
    obtain ⟨depth, first⟩ := first
    have whole : Peg.choice (b :: front ++ a :: back) = .alt b (.choice (front ++ a :: back)) := by
      cases front <;> rfl
    refine ⟨max depth depth' + 1, ?_⟩
    rw [whole, match?, match?_of_le first (le_max_left ..)]
    exact match?_of_le rest (le_max_right ..)

theorem Refuses.or_choice {front back : List (Peg ρ)}
    (earlier : g.Refuses (.choice front) mode (cs ++ rest))
    (later : g.Spells (.choice (a :: back)) mode cs rest P) :
    g.Spells (.choice (front ++ a :: back)) mode cs rest P := by
  intro p split seen
  obtain ⟨depth, seen₁, failed⟩ := earlier p split seen
  obtain ⟨depth', q, ts, seen₂, matched, reads, nodes⟩ := later p split seen₁
  obtain ⟨depth'', whole⟩ := match?_choice_append ⟨depth, failed⟩ ⟨depth', matched⟩
  exact ⟨depth'', q, ts, seen₂, whole, reads, nodes⟩

theorem refuses_choice {as : List (Peg ρ)} (all : ∀ a ∈ as, g.Refuses a mode rest) :
    g.Refuses (.choice as) mode rest := by
  induction as with
  | nil => exact (spells_empty mode rest).not
  | cons a as ih =>
    have later := ih fun b mem => all b (List.mem_cons_of_mem a mem)
    have first := all a (List.mem_cons_self ..)
    cases as with
    | nil => exact first
    | cons b as => exact first.alt later

end Grammar

end DeltaLang
