import DeltaLang.Proofs.Grammar.Spelling

/-!
# Blanks and comments

Skipping moves over the text character by character, also where it goes back to the start of a
comment that is never closed.  How much is skipped depends on the text alone, and what is left is
not blank at its start.
-/

namespace DeltaLang

namespace Place

/-! ## Places on the way through a text -/

/-- The characters are read on the way from a place to a later one, and move the position there. -/
structure Passes (p q : Place) (cs : List Char) : Prop where
  rest : p.rest = cs ++ q.rest
  pos : q.pos = cs.foldl Position.advance p.pos

/-- The later place is on the way through the text from the first one. -/
def Reaches (p q : Place) : Prop := ∃ cs, p.Passes q cs

section

variable {p q q' : Place} {cs cs' : List Char}

theorem Passes.one (pos : Position) (c : Char) (rest : List Char) :
    Passes ⟨pos, c :: rest⟩ ⟨pos.advance c, rest⟩ [c] := ⟨rfl, rfl⟩

theorem Passes.trans (h : p.Passes q cs) (h' : q.Passes q' cs') : p.Passes q' (cs ++ cs') where
  rest := by rw [h.rest, h'.rest, List.append_assoc]
  pos := by rw [h'.pos, h.pos, List.foldl_append]

theorem offset_foldl_advance (cs : List Char) (pos : Position) :
    (cs.foldl Position.advance pos).offset = pos.offset + cs.length := by
  induction cs generalizing pos with
  | nil => rfl
  | cons c cs ih =>
    rw [List.foldl_cons, ih, Position.offset_advance, List.length_cons]
    omega

theorem Passes.reads (h : p.Passes q cs) : p.Reads q cs :=
  ⟨h.rest, by rw [h.pos, offset_foldl_advance]⟩

theorem Reaches.refl (p : Place) : p.Reaches p := ⟨[], rfl, rfl⟩

theorem Reaches.trans (h : p.Reaches q) (h' : q.Reaches q') : p.Reaches q' := by
  obtain ⟨cs, h⟩ := h
  obtain ⟨cs', h'⟩ := h'
  exact ⟨cs ++ cs', h.trans h'⟩

theorem Reaches.next {pos : Position} {c : Char} {rest : List Char}
    (h : p.Reaches ⟨pos, c :: rest⟩) : p.Reaches ⟨pos.advance c, rest⟩ :=
  h.trans ⟨[c], .one pos c rest⟩

end

theorem reaches_skipFrom {p : Place} (mode : BlankMode) (pos : Position) (cs : List Char)
    (here : p.Reaches ⟨pos, cs⟩) (before : ∀ start, mode = .block start → p.Reaches start) :
    p.Reaches (skipFrom mode pos cs) := by
  induction mode, pos, cs using skipFrom.induct with
  | case1 pos rest ih =>
    rw [skipFrom]
    exact ih here.next.next (by simp)
  | case2 pos rest ih =>
    rw [skipFrom]
    refine ih here.next.next fun start same => ?_
    obtain rfl := BlankMode.block.inj same
    exact here
  | case3 pos c rest _ _ blank ih =>
    rw [skipFrom, if_pos blank]
    · exact ih here.next (by simp)
    · assumption
    · assumption
  | case4 pos c rest _ _ visible =>
    rw [skipFrom, if_neg visible]
    · exact here
    · assumption
    · assumption
  | case5 pos c rest ih =>
    rw [skipFrom]
    exact ih here.next (by split <;> simp)
  | case6 start pos rest ih =>
    rw [skipFrom]
    exact ih here.next.next (by simp)
  | case7 start pos c rest _ ih =>
    rw [skipFrom]
    · exact ih here.next before
    · assumption
  | case8 start pos =>
    rw [skipFrom]
    exact before start rfl
  | case9 pos => exact here
  | case10 pos => exact here

theorem reaches_skipBlanks (p : Place) : p.Reaches p.skipBlanks :=
  reaches_skipFrom .between p.pos p.rest (.refl p) (by simp)

/-! ## The text alone decides -/

section

variable {c : Char} {rest : List Char}

/-- Where no comment starts, a character is a blank or nothing is skipped. -/
theorem skipFrom_between_cons (pos : Position)
    (noLine : ∀ more, c = '/' → rest = '/' :: more → False)
    (noBlock : ∀ more, c = '/' → rest = '*' :: more → False) :
    skipFrom .between pos (c :: rest) =
      if isBlank c then skipFrom .between (pos.advance c) rest else ⟨pos, c :: rest⟩ :=
  skipFrom.eq_3 pos c rest noLine noBlock

theorem skipFrom_block_cons (start : Place) (pos : Position)
    (noEnd : ∀ more, c = '*' → rest = '/' :: more → False) :
    skipFrom (.block start) pos (c :: rest) = skipFrom (.block start) (pos.advance c) rest :=
  skipFrom.eq_6 pos start c rest noEnd

end

/-- The same way of skipping, aside from positions. -/
inductive BlankMode.Alike : BlankMode → BlankMode → Prop
  | between : Alike .between .between
  | line : Alike .line .line
  | block {start start' : Place} (same : start.rest = start'.rest) :
    Alike (.block start) (.block start')

theorem rest_skipFrom {mode mode' : BlankMode} (alike : mode.Alike mode') (pos pos' : Position)
    (cs : List Char) : (skipFrom mode pos cs).rest = (skipFrom mode' pos' cs).rest := by
  induction mode, pos, cs using skipFrom.induct generalizing mode' pos' with
  | case1 pos rest ih =>
    cases alike
    rw [skipFrom, skipFrom]
    exact ih .line _
  | case2 pos rest ih =>
    cases alike
    rw [skipFrom, skipFrom]
    refine ih (.block ?_) _
    rfl
  | case3 pos c rest noLine noBlock blank ih =>
    cases alike
    simp only [skipFrom_between_cons _ noLine noBlock, if_pos blank]
    exact ih .between _
  | case4 pos c rest noLine noBlock visible =>
    cases alike
    simp only [skipFrom_between_cons _ noLine noBlock, if_neg visible]
  | case5 pos c rest ih =>
    cases alike
    rw [skipFrom, skipFrom]
    refine ih ?_ _
    split
    · exact .between
    · exact .line
  | case6 start pos rest ih =>
    cases alike
    rw [skipFrom, skipFrom]
    exact ih .between _
  | case7 start pos c rest noEnd ih =>
    cases alike with
    | block same =>
      rw [skipFrom_block_cons _ _ noEnd, skipFrom_block_cons _ _ noEnd]
      exact ih (.block same) _
  | case8 start pos =>
    cases alike with
    | block same =>
      rw [skipFrom, skipFrom]
      exact same
  | case9 pos =>
    cases alike
    rfl
  | case10 pos =>
    cases alike
    rfl

/-- What is left is not blank at its start, unless a comment that began earlier is never closed. -/
theorem solid_skipFrom (mode : BlankMode) (pos : Position) (cs : List Char) :
    Solid (skipFrom mode pos cs).rest ∨ (∃ start, mode = .block start) ∧
      ∀ start pos, skipFrom (.block start) pos cs = start := by
  induction mode, pos, cs using skipFrom.induct with
  | case1 pos rest ih =>
    rw [skipFrom]
    exact .inl (ih.resolve_right (by simp))
  | case2 pos rest ih =>
    rw [skipFrom]
    refine .inl (ih.elim id fun unclosed => ?_)
    rw [unclosed.2]
    intro pos'
    unfold skipBlanks
    rw [skipFrom, unclosed.2]
  | case3 pos c rest noLine noBlock blank ih =>
    rw [skipFrom_between_cons _ noLine noBlock, if_pos blank]
    exact .inl (ih.resolve_right (by simp))
  | case4 pos c rest noLine noBlock visible =>
    rw [skipFrom_between_cons _ noLine noBlock, if_neg visible]
    refine .inl fun pos' => ?_
    unfold skipBlanks
    rw [skipFrom_between_cons _ noLine noBlock, if_neg visible]
  | case5 pos c rest ih =>
    rw [skipFrom]
    exact .inl (ih.resolve_right (by split <;> simp))
  | case6 start pos rest ih =>
    rw [skipFrom]
    exact .inl (ih.resolve_right (by simp))
  | case7 start pos c rest noEnd ih =>
    rw [skipFrom_block_cons _ _ noEnd]
    refine ih.imp_right fun unclosed => ⟨⟨start, rfl⟩, fun start' pos' => ?_⟩
    rw [skipFrom_block_cons _ _ noEnd, unclosed.2]
  | case8 start pos =>
    refine .inr ⟨⟨start, rfl⟩, fun start' pos' => ?_⟩
    rw [skipFrom]
  | case9 pos => exact .inl fun _ => rfl
  | case10 pos => exact .inl fun _ => rfl

/-- The text behind the blanks and comments at its start. -/
def skipped (cs : List Char) : List Char := (skipBlanks ⟨.start, cs⟩).rest

theorem solid_skipped (cs : List Char) : Solid (skipped cs) :=
  (solid_skipFrom .between .start cs).resolve_right (by simp)

theorem Solid.skipped {cs : List Char} (solid : Solid cs) : skipped cs = cs := by
  rw [Place.skipped, solid]

/-- From any position the same blanks and comments are read. -/
theorem exists_reads_skipBlanks (cs : List Char) :
    ∃ blanks, cs = blanks ++ skipped cs ∧
      ∀ pos, Reads ⟨pos, cs⟩ (skipBlanks ⟨pos, cs⟩) blanks := by
  have rest (pos : Position) : (skipBlanks ⟨pos, cs⟩).rest = skipped cs :=
    rest_skipFrom .between pos .start cs
  obtain ⟨blanks, passes⟩ := reaches_skipBlanks ⟨.start, cs⟩
  refine ⟨blanks, passes.rest, fun pos => ?_⟩
  obtain ⟨blanks', passes'⟩ := reaches_skipBlanks ⟨pos, cs⟩
  have same : blanks' ++ skipped cs = blanks ++ skipped cs := by
    rw [← rest pos]
    exact passes'.rest.symm.trans (by rw [rest pos]; exact passes.rest)
  rw [← List.append_cancel_right same]
  exact passes'.reads

end Place

theorem Grammar.exists_spells_skip {ρ : Type} (g : Grammar ρ) (cs : List Char) :
    ∃ blanks, cs = blanks ++ Place.skipped cs ∧
      g.Spells .skip .normal blanks (Place.skipped cs) Silent := by
  obtain ⟨blanks, split, reads⟩ := Place.exists_reads_skipBlanks cs
  refine ⟨blanks, split, ?_⟩
  rintro ⟨pos, chars⟩ here seen
  obtain rfl : chars = cs := here.trans split.symm
  exact ⟨1, _, [], seen, rfl, reads pos, rfl⟩

end DeltaLang
