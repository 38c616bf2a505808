import DeltaLang.Proofs.Grammar.Blanks
import DeltaLang.Proofs.Reading.Operands

/-!
# Layouts

A text is a layout of tokens if these stand in it one after the other, with blanks and comments
around them.  An expression takes tokens if it reads them in every layout, whatever tokens follow,
and bars tokens if it matches at the start of none.  As with texts, what an expression takes is put
together from what its parts do.
-/

namespace DeltaLang

open Grammar

namespace Concrete

/-- A token that starts like a name is not continued by the text behind it. -/
def isParted (t : String) (behind : List Char) : Bool :=
  !t.toList.head?.any isNameStart || behind.head?.all fun c => !isNameChar c && c != '.'

/-- Whether the text consists of these tokens, with blanks and comments around them. -/
def isLayout : List String → List Char → Bool
  | [], text => (Place.skipped text).isEmpty
  | t :: ts, text =>
    let here := Place.skipped text
    let behind := here.drop t.toList.length
    t.toList.isPrefixOf here && (isParted t behind && isLayout ts behind)

section

variable {t : String} {ts us : List String} {text : List Char}

theorem isLayout_skipped (ts : List String) (text : List Char) :
    isLayout ts (Place.skipped text) = isLayout ts text := by
  cases ts <;> simp only [isLayout, (Place.solid_skipped text).skipped]

theorem eq_nil_of_isLayout (solid : Place.Solid text) (laid : isLayout [] text = true) :
    text = [] := by
  rwa [isLayout, solid.skipped, List.isEmpty_iff] at laid

theorem exists_of_isLayout_cons (solid : Place.Solid text) (laid : isLayout (t :: ts) text = true) :
    ∃ rest, text = t.toList ++ rest ∧ isParted t rest = true ∧ isLayout ts rest = true := by
  simp only [isLayout, solid.skipped, Bool.and_eq_true, List.isPrefixOf_iff_prefix] at laid
  obtain ⟨⟨rest, rfl⟩, parted, laid⟩ := laid
  rw [List.drop_left] at parted laid
  exact ⟨rest, rfl, parted, laid⟩

theorem head_of_isParted {c : Char} {cs rest : List Char} (split : t.toList = c :: cs)
    (start : isNameStart c = true) (parted : isParted t rest = true) :
    ∀ d ∈ rest.head?, isNameChar d = false ∧ d ≠ '.' := by
  have stops : rest.head?.all (fun d => !isNameChar d && d != '.') = true := by
    simpa [isParted, split, start] using parted
  intro d next
  rw [Option.mem_def.1 next] at stops
  simpa using stops

end

/-! ## Taking and barring tokens -/

/-- In every layout of the tokens `ts` with `us` behind them the expression reads what the tokens
`ts` are laid out as, and perhaps blanks behind them, and the nodes within satisfy `P`. -/
def Takes (e : Peg Rule) (ts us : List String) (P : List Elaborate.Tree → Prop) : Prop :=
  ∀ text, Place.Solid text → isLayout (ts ++ us) text = true → ∃ cs rest, text = cs ++ rest ∧
    isLayout us rest = true ∧ grammar.Spells e .normal cs rest P

/-- The expression matches at the start of no layout of the tokens. -/
def Bars (e : Peg Rule) (us : List String) : Prop :=
  ∀ text, Place.Solid text → isLayout us text = true → grammar.Refuses e .normal text

/-- One node of the rule, with such nodes within. -/
def Node (r : Rule) (P : List Elaborate.Tree → Prop) (nodes : List Elaborate.Tree) : Prop :=
  ∃ pos text xs, nodes = [.node r pos text xs] ∧ P xs

/-- Nodes of each of the things, in order. -/
def Each {α : Type} (P : α → List Elaborate.Tree → Prop) : List α → List Elaborate.Tree → Prop
  | [] => Silent
  | a :: as => Both (P a) (Each P as)

section

variable {a b e : Peg Rule} {t : String} {ts ts' us : List String}
  {P Q : List Elaborate.Tree → Prop}

theorem Takes.imp (h : Takes e ts us P) (weaker : ∀ nodes, P nodes → Q nodes) :
    Takes e ts us Q := by
  intro text solid laid
  obtain ⟨cs, rest, split, behind, spells⟩ := h text solid laid
  exact ⟨cs, rest, split, behind, spells.imp weaker⟩

/-! ### Single tokens -/

theorem takes_of_spells
    (h : ∀ rest, isParted t rest = true → grammar.Spells e .normal t.toList rest P) :
    Takes e [t] us P := by
  intro text solid laid
  obtain ⟨rest, rfl, parted, behind⟩ := exists_of_isLayout_cons solid laid
  exact ⟨t.toList, rest, rfl, behind, h rest parted⟩

theorem bars_of_refuses
    (h : ∀ rest, isParted t rest = true → grammar.Refuses e .normal (t.toList ++ rest)) :
    Bars e (t :: us) := by
  intro text solid laid
  obtain ⟨rest, rfl, parted, -⟩ := exists_of_isLayout_cons solid laid
  exact h rest parted

theorem bars_nil (h : grammar.Refuses e .normal []) : Bars e [] := by
  intro text solid laid
  rwa [eq_nil_of_isLayout solid laid]

theorem takes_word (w : String) (us : List String) : Takes (.word w) [w] us Silent :=
  takes_of_spells fun rest _ => spells_lit .normal w.toList rest

theorem takes_identifier {name : String} (id : isIdentifier name = true) (us : List String) :
    Takes (.rule .identifier) [name] us (NodeOf .identifier name.toList Silent) := by
  obtain ⟨c, cs, split, start⟩ := exists_cons_of_isIdentifier id
  exact takes_of_spells fun rest parted =>
    spells_identifier id fun d next => (head_of_isParted split start parted d next).1

theorem IsQualifiedName.exists_cons {name : String} (h : IsQualifiedName name) :
    ∃ c cs, name.toList = c :: cs ∧ isNameStart c = true := by
  cases h with
  | identifier id => exact exists_cons_of_isIdentifier id
  | @member first rest id _ =>
    obtain ⟨c, cs, split, start⟩ := exists_cons_of_isIdentifier id
    refine ⟨c, cs ++ ("." ++ rest).toList, ?_, start⟩
    rw [String.append_assoc, String.toList_append, split]
    rfl

theorem takes_qualifiedName {name : String} (h : IsQualifiedName name) (us : List String) :
    Takes (.rule .qualifiedName) [name] us (NodeOf .qualifiedName name.toList Silent) := by
  obtain ⟨c, cs, split, start⟩ := h.exists_cons
  refine takes_of_spells fun rest parted => ?_
  have stops := head_of_isParted split start parted
  exact h.spells (fun d next => (stops d next).1) fun d next => (stops d next).2

/-- What matches at no name bars every name. -/
theorem bars_of_isQualifiedName {name : String} (h : IsQualifiedName name)
    (refuses : ∀ c rest, isNameStart c = true → grammar.Refuses e .normal (c :: rest)) :
    Bars e (name :: us) := by
  obtain ⟨c, cs, split, start⟩ := h.exists_cons
  refine bars_of_refuses fun rest _ => ?_
  rw [split]
  exact refuses c (cs ++ rest) start

/-! ### Nothing -/

theorem Bars.opt (h : Bars e us) : Takes (.opt e) [] us Silent :=
  fun text solid laid => ⟨[], text, rfl, laid, (h text solid laid).opt⟩

theorem Bars.many (h : Bars e us) : Takes (.many e) [] us Silent :=
  fun text solid laid => ⟨[], text, rfl, laid, (h text solid laid).many⟩

theorem Bars.cat (h : Bars a us) : Bars (.cat a b) us :=
  fun text solid laid => (h text solid laid).cat

/-! ### One after the other, with blanks and comments between -/

theorem Takes.seq (first : Takes a ts (ts' ++ us) P) (second : Takes b ts' us Q) :
    Takes (.seq a b) (ts ++ ts') us (Both P Q) := by
  intro text solid laid
  rw [List.append_assoc] at laid
  obtain ⟨cs, rest, rfl, laid, spells⟩ := first text solid laid
  obtain ⟨blanks, split, blank⟩ := grammar.exists_spells_skip rest
  rw [← isLayout_skipped] at laid
  obtain ⟨cs', rest', split', laid, spells'⟩ := second _ (Place.solid_skipped rest) laid
  rw [split'] at split blank
  rw [split] at spells ⊢
  refine ⟨cs ++ (blanks ++ cs'), rest', ?_, laid, Spells.seq blank spells spells'⟩
  simp only [List.append_assoc]

theorem Takes.seq_then (first : Takes a ts (ts' ++ us) Silent) (second : Takes b ts' us Q) :
    Takes (.seq a b) (ts ++ ts') us Q := by
  refine (first.seq second).imp ?_
  rintro _ ⟨_, ys, rfl, rfl, nodes⟩
  exact nodes

theorem Takes.seq_before (first : Takes a ts (ts' ++ us) P) (second : Takes b ts' us Silent) :
    Takes (.seq a b) (ts ++ ts') us P := by
  refine (first.seq second).imp ?_
  rintro _ ⟨xs, _, rfl, nodes, rfl⟩
  rwa [List.append_nil]

/-! ### Choices and rules -/

theorem Takes.alt (h : Takes a ts us P) : Takes (.alt a b) ts us P := by
  intro text solid laid
  obtain ⟨cs, rest, split, behind, spells⟩ := h text solid laid
  exact ⟨cs, rest, split, behind, spells.alt⟩

theorem Takes.opt (h : Takes e ts us P) : Takes (.opt e) ts us P := h.alt

theorem Takes.choice {back : List (Peg Rule)} (h : Takes a ts us P) :
    Takes (.choice (a :: back)) ts us P := by
  intro text solid laid
  obtain ⟨cs, rest, split, behind, spells⟩ := h text solid laid
  exact ⟨cs, rest, split, behind, spells.choice⟩

theorem Bars.or_choice {front back : List (Peg Rule)} (earlier : Bars (.choice front) (ts ++ us))
    (later : Takes (.choice (a :: back)) ts us P) :
    Takes (.choice (front ++ a :: back)) ts us P := by
  intro text solid laid
  obtain ⟨cs, rest, rfl, behind, spells⟩ := later text solid laid
  exact ⟨cs, rest, rfl, behind, (earlier _ solid laid).or_choice spells⟩

theorem Takes.rule {r : Rule} (normal : mode r = .normal) (h : Takes (body r) ts us P) :
    Takes (.rule r) ts us (Node r P) := by
  intro text solid laid
  obtain ⟨cs, rest, split, behind, spells⟩ := h text solid laid
  refine ⟨cs, rest, split, behind, (spells.rule_normal normal).imp ?_⟩
  rintro _ ⟨pos, xs, rfl, within⟩
  exact ⟨pos, _, xs, rfl, within⟩

theorem Node.gives {α : Type} {f : Elaborate.Tree → Except BuildError α} {R : α → Prop} {r : Rule}
    {nodes : List Elaborate.Tree} (h : Node r P nodes)
    (read : ∀ pos text xs, P xs → ∃ v, f (.node r pos text xs) = .ok v ∧ R v) :
    Gives f R nodes := by
  obtain ⟨pos, text, xs, rfl, within⟩ := h
  obtain ⟨v, done, good⟩ := read pos text xs within
  exact ⟨_, v, rfl, done, good⟩

/-! ### Repetitions -/

section

variable {α : Type} (toks : α → List String) {P : α → List Elaborate.Tree → Prop}

/-- What follows one of the things is another one, or what follows them all. -/
theorem follow_flatMap {follow : List String → Prop} (last : follow us)
    (starts : ∀ x us, follow (toks x ++ us)) (xs : List α) : follow (xs.flatMap toks ++ us) := by
  cases xs with
  | nil => exact last
  | cons x xs =>
    rw [List.flatMap_cons, List.append_assoc]
    exact starts x _

section

variable (follow : List String → Prop) (stop : Bars e us) (last : follow us)
  (starts : ∀ x us, follow (toks x ++ us)) (xs : List α)
  (each : ∀ x ∈ xs, ∀ us, follow us → Takes e (toks x) us (P x))

include stop last starts each

theorem takes_loop (text : List Char) (laid : isLayout (xs.flatMap toks ++ us) text = true) :
    ∃ cs rest, text = cs ++ rest ∧ isLayout us rest = true ∧
      grammar.Spells (.loop (.cat .skip e)) .normal cs rest (Each P xs) := by
  induction xs generalizing text with
  | nil =>
    obtain ⟨blanks, split, blank⟩ := grammar.exists_spells_skip text
    refine ⟨[], text, rfl, laid, Refuses.loop ?_⟩
    rw [List.flatMap_nil, List.nil_append, ← isLayout_skipped] at laid
    rw [split]
    exact blank.refuses_cat (stop _ (Place.solid_skipped text) laid)
  | cons x xs ih =>
    obtain ⟨blanks, split, blank⟩ := grammar.exists_spells_skip text
    rw [List.flatMap_cons, List.append_assoc, ← isLayout_skipped] at laid
    have first := each x (List.mem_cons_self ..) _ (follow_flatMap toks last starts xs)
    obtain ⟨cs, rest, split', laid, spells⟩ := first _ (Place.solid_skipped text) laid
    obtain ⟨cs', rest', rfl, laid, spells'⟩ :=
      ih (fun y mem => each y (List.mem_cons_of_mem x mem)) rest laid
    rw [split'] at split blank
    refine ⟨blanks ++ cs ++ cs', rest', ?_, laid, (blank.then spells).loop spells'⟩
    rw [split]
    simp only [List.append_assoc]

/-- What is repeated takes each of the things, if it does where another one may follow. -/
theorem takes_many_of_follow : Takes (.many e) (xs.flatMap toks) us (Each P xs) := by
  intro text solid laid
  cases xs with
  | nil => exact stop.many text solid laid
  | cons x xs =>
    rw [List.flatMap_cons, List.append_assoc] at laid
    have first := each x (List.mem_cons_self ..) _ (follow_flatMap toks last starts xs)
    obtain ⟨cs, rest, rfl, laid, spells⟩ := first _ solid laid
    obtain ⟨cs', rest', rfl, laid, spells'⟩ := takes_loop toks follow stop last starts xs
      (fun y mem => each y (List.mem_cons_of_mem x mem)) rest laid
    exact ⟨cs ++ cs', rest', (List.append_assoc ..).symm, laid, spells.many spells'⟩

end

theorem takes_many (stop : Bars e us) (xs : List α)
    (each : ∀ x ∈ xs, ∀ us, Takes e (toks x) us (P x)) :
    Takes (.many e) (xs.flatMap toks) us (Each P xs) :=
  takes_many_of_follow toks (fun _ => True) stop trivial (fun _ _ => trivial) xs
    fun x mem us _ => each x mem us

end

/-- Once, and not again. -/
theorem takes_one (stop : Bars e us) (h : Takes e ts us P) : Takes (.many e) ts us P := by
  intro text solid laid
  obtain ⟨cs, rest, rfl, laid, spells⟩ := h text solid laid
  obtain ⟨blanks, split, blank⟩ := grammar.exists_spells_skip rest
  refine ⟨cs, rest, rfl, laid, spells.many_one ?_⟩
  rw [← isLayout_skipped] at laid
  rw [split]
  exact blank.refuses_cat (stop _ (Place.solid_skipped rest) laid)

end

/-! ## Whole texts -/

/-- A text of modules is read as a whole, with blanks and comments in front and behind. -/
theorem spells_unit_of_takes {ts : List String} {P : List Elaborate.Tree → Prop} {text : List Char}
    (modules : Takes (.many (.rule .moduleDecl)) ts [] P) (laid : isLayout ts text = true) :
    grammar.Spells (.rule .unit) .normal text []
      (NodeOf .unit text (Both P (NodeOf .endOfInput [] Silent))) := by
  obtain ⟨before, split, blank⟩ := grammar.exists_spells_skip text
  rw [← isLayout_skipped, ← List.append_nil ts] at laid
  obtain ⟨cs, rest, split', laid, spells⟩ := modules _ (Place.solid_skipped text) laid
  obtain ⟨behind, split'', blank'⟩ := grammar.exists_spells_skip rest
  rw [isLayout, List.isEmpty_iff] at laid
  rw [laid, List.append_nil] at split''
  rw [laid] at blank'
  subst split''
  have ended : grammar.Spells (.rule .endOfInput) .normal [] [] (NodeOf .endOfInput [] Silent) :=
    (spells_endOfText .normal).rule_normal rfl
  have closed : grammar.Spells (.seq (.many (.rule .moduleDecl)) (.rule .endOfInput)) .normal
      (cs ++ rest) [] (Both P (NodeOf .endOfInput [] Silent)) := by
    rw [← List.append_nil rest] at spells ⊢
    exact Spells.seq blank' spells ended
  rw [split', ← List.append_nil (cs ++ rest)] at blank
  have opened := Spells.seq_then blank (spells_empty .normal _) closed
  rw [List.nil_append, ← split', ← split] at opened
  exact opened.rule_normal rfl

end Concrete

end DeltaLang
