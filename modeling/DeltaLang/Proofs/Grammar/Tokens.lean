import DeltaLang.Proofs.Grammar.Spelling

/-!
# Names and reserved words

An identifier is read as a whole wherever no further character of a name follows, also if it starts
with a reserved word: what asks for the reserved word does not match there.
-/

namespace DeltaLang

namespace Grammar

variable {ρ : Type} {g : Grammar ρ} {mode : RuleMode} {text : List Char}

/-- Of several words the first that stands at the start of the text is read. -/
theorem words_cases (ws : List String) (mode : RuleMode) (text : List Char) :
    g.Refuses (.choice (ws.map .word)) mode text ∨ ∃ w ∈ ws, ∃ rest, text = w.toList ++ rest ∧
      g.Spells (.choice (ws.map .word)) mode w.toList rest Silent := by
  by_cases found : ∃ w ∈ ws, w.toList <+: text
  · right
    obtain ⟨w, front, back, rfl, ⟨rest, rfl⟩, earlier⟩ :
        ∃ w front back, ws = front ++ w :: back ∧ w.toList <+: text ∧
          ∀ w' ∈ front, ¬ w'.toList <+: text := by
      induction ws with
      | nil => simp at found
      | cons w ws ih =>
        by_cases here : w.toList <+: text
        · exact ⟨w, [], ws, rfl, here, List.forall_mem_nil _⟩
        · rw [List.exists_mem_cons_iff, or_iff_right here] at found
          obtain ⟨w', front, back, rfl, there, earlier⟩ := ih found
          exact ⟨w', w :: front, back, rfl, there, List.forall_mem_cons.2 ⟨here, earlier⟩⟩
    refine ⟨w, List.mem_append_right _ (List.mem_cons_self ..), rest, rfl, ?_⟩
    rw [List.map_append, List.map_cons]
    refine Refuses.or_choice (refuses_choice fun a mem => ?_) (spells_lit mode w.toList rest).choice
    obtain ⟨w', mem', rfl⟩ := List.mem_map.1 mem
    exact refuses_lit (earlier w' mem')
  · left
    refine refuses_choice fun a mem => ?_
    obtain ⟨w, mem', rfl⟩ := List.mem_map.1 mem
    exact refuses_lit fun here => found ⟨w, mem', here⟩

end Grammar

namespace Concrete

open Grammar Peg

/-! ## Identifiers -/

/-- Whether a text is an identifier: it starts and goes on like a name, and is not reserved. -/
def isIdentifier (name : String) : Bool :=
  name.toList.head?.any isNameStart && name.toList.all isNameChar && !keywords.contains name

/-- No name goes on at the start of the text. -/
def NameEnds (text : List Char) : Prop := ∀ c ∈ text.head?, isNameChar c = false

theorem nameEnds_cons {c : Char} {rest : List Char} (h : isNameChar c = false) :
    NameEnds (c :: rest) := by
  intro d same
  obtain rfl := Option.some.inj same
  exact h

/-- Reserved words are words. -/
theorem isNameChar_of_mem_keywords {w : String} (h : w ∈ keywords) :
    ∀ c ∈ w.toList, isNameChar c = true := by
  have all : ∀ w ∈ keywords, w.toList.all isNameChar = true := by decide
  exact List.all_eq_true.1 (all w h)

section

variable {name w : String} {x rest : List Char} {mode : RuleMode}

theorem isNameChar_of_isIdentifier (h : isIdentifier name = true) :
    ∀ c ∈ name.toList, isNameChar c = true := by
  simp only [isIdentifier, Bool.and_eq_true, List.all_eq_true] at h
  exact h.1.2

theorem notMem_keywords_of_isIdentifier (h : isIdentifier name = true) : name ∉ keywords := by
  rw [isIdentifier, Bool.and_eq_true, Bool.not_eq_true', ← Bool.not_eq_true,
    List.contains_iff_mem] at h
  exact h.2

theorem exists_cons_of_isIdentifier (h : isIdentifier name = true) :
    ∃ c cs, name.toList = c :: cs ∧ isNameStart c = true := by
  simp only [isIdentifier, Bool.and_eq_true] at h
  cases split : name.toList with
  | nil => simp [split] at h
  | cons c cs => exact ⟨c, cs, rfl, by simpa [split] using h.1.1⟩

theorem isNameChar_of_isNameStart {c : Char} (h : isNameStart c = true) : isNameChar c = true := by
  rw [isNameChar, h, Bool.true_or]

theorem solid_of_isNameChar {c : Char} (h : isNameChar c = true) : Place.Solid (c :: rest) := by
  refine Place.solid_cons ?_ ?_
  · rw [← Bool.not_eq_true]
    intro blank
    simp only [Place.isBlank, Bool.or_eq_true, beq_iff_eq] at blank
    obtain ((rfl | rfl) | rfl) | rfl := blank <;> exact absurd h (by decide)
  · rintro rfl
    exact absurd h (by decide)

theorem solid_of_isIdentifier (id : isIdentifier name = true) (rest : List Char) :
    Place.Solid (name.toList ++ rest) := by
  obtain ⟨c, cs, split, start⟩ := exists_cons_of_isIdentifier id
  rw [split]
  exact solid_of_isNameChar (isNameChar_of_isNameStart start)

/-- A word at the start of a text is no longer than the name there. -/
theorem exists_longer (letters : ∀ c ∈ w.toList, isNameChar c = true) (ended : NameEnds rest)
    (starts : w.toList <+: x ++ rest) : ∃ y, x = w.toList ++ y := by
  rcases List.prefix_or_prefix_of_prefix starts (List.prefix_append x rest) with
    ⟨y, here⟩ | ⟨y, here⟩
  · exact ⟨y, here.symm⟩
  · rw [← here, List.prefix_append_right_inj] at starts
    cases y with
    | nil => exact ⟨[], by rw [← here, List.append_nil, List.append_nil]⟩
    | cons c y =>
      obtain ⟨more, rfl⟩ := starts
      have ended := ended c rfl
      rw [letters c (here ▸ List.mem_append_right x (List.mem_cons_self ..))] at ended
      cases ended

theorem spells_boundary (ended : NameEnds rest) :
    grammar.Spells boundary mode [] rest Silent := (refuses_one ended).not

theorem refuses_boundary {c : Char} (more : isNameChar c = true) :
    grammar.Refuses boundary mode (c :: rest) := (spells_one mode more rest).not

/-- A reserved word, one of several that are asked for, is not read in front of a longer name. -/
theorem refuses_reserved (ws : List String) (reserved : ws ⊆ keywords)
    (id : isIdentifier name = true) (ended : NameEnds rest) :
    grammar.Refuses (.seq (.choice (ws.map .word)) boundary) .atomic (name.toList ++ rest) := by
  obtain refused | ⟨w, mem, more, split, spelled⟩ := words_cases ws .atomic (name.toList ++ rest)
  · exact refused.cat
  have letters := isNameChar_of_mem_keywords (reserved mem)
  obtain ⟨y, longer⟩ := exists_longer letters ended ⟨more, split.symm⟩
  rw [split]
  refine Spells.refuses_seq (spells_skip_atomic more) spelled ?_
  rw [longer, List.append_assoc, List.append_cancel_left_eq] at split
  rw [← split]
  cases y with
  | nil =>
    rw [List.append_nil, String.toList_inj] at longer
    exact absurd (reserved mem) (longer ▸ notMem_keywords_of_isIdentifier id)
  | cons c y =>
    refine refuses_boundary (isNameChar_of_isIdentifier id c ?_)
    rw [longer]
    exact List.mem_append_right _ (List.mem_cons_self ..)

theorem refuses_keyword (id : isIdentifier name = true) (ended : NameEnds rest) :
    grammar.Refuses (.rule .keyword) mode (name.toList ++ rest) :=
  Refuses.rule rfl (refuses_reserved keywords (List.Subset.refl _) id ended)

/-- What is not reserved and starts like a name is read up to its end. -/
theorem spells_name {c : Char} {cs : List Char} (start : isNameStart c = true)
    (all : ∀ d ∈ cs, isNameChar d = true) (ended : NameEnds rest)
    (free : grammar.Refuses (.rule .keyword) .atomic (c :: cs ++ rest)) :
    grammar.Spells (body .identifier) .atomic (c :: cs) rest Silent := by
  have tail := Spells.seq_then (spells_skip_atomic _) (spells_one (g := grammar) .atomic start _)
    (spells_span .atomic all ended)
  exact Spells.seq_then (spells_skip_atomic _) free.not tail

theorem spells_identifier_body (id : isIdentifier name = true) (ended : NameEnds rest) :
    grammar.Spells (body .identifier) .atomic name.toList rest Silent := by
  have free : grammar.Refuses (.rule .keyword) .atomic (name.toList ++ rest) :=
    refuses_keyword id ended
  have all := isNameChar_of_isIdentifier id
  obtain ⟨c, cs, split, start⟩ := exists_cons_of_isIdentifier id
  rw [split] at free all ⊢
  exact spells_name start (fun d mem => all d (List.mem_cons_of_mem c mem)) ended free

theorem spells_identifier (id : isIdentifier name = true) (ended : NameEnds rest) :
    grammar.Spells (.rule .identifier) .normal name.toList rest
      (NodeOf .identifier name.toList Silent) :=
  (spells_identifier_body id ended).rule rfl (by decide)

theorem spells_identifier_atomic (id : isIdentifier name = true) (ended : NameEnds rest) :
    grammar.Spells (.rule .identifier) .atomic name.toList rest Silent :=
  (spells_identifier_body id ended).rule_atomic rfl

theorem not_prefix_of_mem_keywords {c : Char} (reserved : w ∈ keywords)
    (other : isNameStart c = false) : ¬ w.toList <+: c :: rest := by
  have all : ∀ w ∈ keywords, w.toList.head?.any isNameStart = true := by decide
  have start := all w reserved
  intro starts
  cases split : w.toList with
  | nil => simp [split] at start
  | cons d ds =>
    rw [split, List.cons_prefix_cons] at starts
    rw [split, starts.1] at start
    exact absurd (start.symm.trans other) (by decide)

theorem refuses_identifier {c : Char} (other : isNameStart c = false) :
    grammar.Refuses (.rule .identifier) mode (c :: rest) := by
  have reserved : grammar.Refuses (.rule .keyword) .atomic (c :: rest) := by
    refine Refuses.rule rfl (Refuses.cat (refuses_choice fun a mem => ?_))
    obtain ⟨w, mem', rfl⟩ := List.mem_map.1 mem
    exact refuses_lit (not_prefix_of_mem_keywords mem' other)
  have stop : grammar.Refuses (.one isNameStart) .atomic (c :: rest) := by
    refine refuses_one fun d same => ?_
    obtain rfl := Option.some.inj same
    exact other
  exact Refuses.rule rfl (Spells.refuses_seq (spells_skip_atomic (c :: rest)) reserved.not
    stop.cat :)

/-- At a word an identifier is read as a whole or not at all. -/
theorem identifier_cases {c : Char} {cs : List Char} (all : ∀ d ∈ c :: cs, isNameChar d = true)
    (ended : NameEnds rest) :
    grammar.Refuses (.rule .identifier) .atomic (c :: cs ++ rest) ∨
      grammar.Spells (.rule .identifier) .atomic (c :: cs) rest Silent := by
  cases start : isNameStart c with
  | false => exact .inl (refuses_identifier start)
  | true =>
    have keyword : grammar.Refuses (.rule .keyword) .atomic (c :: cs ++ rest) ∨
        grammar.Refuses (.not (.rule .keyword)) .atomic (c :: cs ++ rest) := by
      obtain refused | ⟨w, -, more, split, spelled⟩ :=
        words_cases (g := grammar) keywords .atomic (c :: cs ++ rest)
      · exact .inl (Refuses.rule rfl refused.cat)
      by_cases ends : NameEnds more
      · right
        rw [split]
        have whole := Spells.seq_then (spells_skip_atomic more) spelled (spells_boundary ends)
        rw [List.append_nil, List.append_nil] at whole
        exact (whole.rule_atomic rfl).not
      · left
        rw [split]
        refine Refuses.rule rfl (Spells.refuses_seq (spells_skip_atomic more) spelled ?_)
        cases more with
        | nil => exact absurd (by simp [NameEnds]) ends
        | cons d more =>
          refine refuses_boundary ?_
          rw [← Bool.not_eq_false]
          exact mt nameEnds_cons ends
    rcases keyword with free | reserved
    · right
      have tail (d : Char) (mem : d ∈ cs) := all d (List.mem_cons_of_mem c mem)
      exact (spells_name start tail ended free).rule_atomic rfl
    · exact .inl (Refuses.rule rfl reserved.cat)

end

/-! ## Qualified names -/

/-- An identifier, or one and a dot in front of a qualified name. -/
inductive IsQualifiedName : String → Prop
  | identifier {name : String} (id : isIdentifier name = true) : IsQualifiedName name
  | member {name rest : String} (id : isIdentifier name = true) (more : IsQualifiedName rest) :
    IsQualifiedName (name ++ "." ++ rest)

section

variable {name : String} {rest : List Char}

theorem IsQualifiedName.solid (h : IsQualifiedName name) (rest : List Char) :
    Place.Solid (name.toList ++ rest) := by
  cases h with
  | identifier id => exact solid_of_isIdentifier id rest
  | member id more =>
    rw [String.toList_append, String.toList_append, List.append_assoc, List.append_assoc]
    exact solid_of_isIdentifier id _

/-- What follows the first identifier of a qualified name. -/
def dotted : Peg Rule := seq (word ".") (.rule .identifier)

/-- After its first identifier a qualified name is read to its end, both from there and from within
the repetition. -/
theorem IsQualifiedName.spells_dotted (h : IsQualifiedName name) (ended : NameEnds rest)
    (noDot : ∀ c ∈ rest.head?, c ≠ '.') :
    ∃ first more, isIdentifier first = true ∧ name.toList = first.toList ++ more ∧
      NameEnds (more ++ rest) ∧ grammar.Spells (.many dotted) .atomic more rest Silent ∧
      grammar.Spells (.loop (.cat .skip dotted)) .atomic more rest Silent := by
  induction h with
  | @identifier name id =>
    have stop : grammar.Refuses dotted .atomic rest := (refuses_lit_of_head noDot).cat
    exact ⟨name, [], id, (List.append_nil _).symm, ended, stop.many,
      ((spells_skip_atomic rest).refuses_cat stop).loop⟩
  | @member name rest' id _ ih =>
    obtain ⟨first, more, isFirst, split, ended', -, loop⟩ := ih
    have step := Spells.seq_then (spells_skip_atomic _)
      (spells_lit (g := grammar) .atomic ".".toList _) (spells_identifier_atomic isFirst ended')
    refine ⟨name, ".".toList ++ (first.toList ++ more), id, ?_, nameEnds_cons rfl, ?_, ?_⟩
    · rw [String.toList_append, String.toList_append, split, List.append_assoc]
    · refine (step.many loop).imp ?_
      rintro _ ⟨_, _, rfl, rfl, rfl⟩
      rfl
    · refine (((spells_skip_atomic _).then step).loop loop).imp ?_
      rintro _ ⟨_, _, rfl, rfl, rfl⟩
      rfl

theorem IsQualifiedName.spells (h : IsQualifiedName name) (ended : NameEnds rest)
    (noDot : ∀ c ∈ rest.head?, c ≠ '.') :
    grammar.Spells (.rule .qualifiedName) .normal name.toList rest
      (NodeOf .qualifiedName name.toList Silent) := by
  obtain ⟨first, more, isFirst, split, ended', many, -⟩ := h.spells_dotted ended noDot
  rw [split]
  exact (Spells.seq_then (spells_skip_atomic _) (spells_identifier_atomic isFirst ended')
    many).rule rfl (by decide)

end

end Concrete

end DeltaLang
