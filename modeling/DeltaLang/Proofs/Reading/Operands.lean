import DeltaLang.Proofs.Program.Written

/-!
# Reading operands

What operators and calls are applied to is read by the first alternative that begins like it and
does not fail later.  Alternatives that begin with a reserved word fail at a name that only starts
with this word.
-/

namespace DeltaLang

open Grammar Concrete

/-- One node, of which `f` makes a value with the property. -/
def Gives {α : Type} (f : Elaborate.Tree → Except BuildError α) (P : α → Prop)
    (ts : List Elaborate.Tree) : Prop := ∃ t a, ts = [t] ∧ f t = .ok a ∧ P a

/-- One node, of this expression aside from locations. -/
def Yields (file : Option String) (e : Expr) : List Elaborate.Tree → Prop :=
  Gives (Elaborate.expr file) fun e' => e'.unlocated = e.unlocated

theorem Grammar.NodeOf.gives {α : Type} {f : Elaborate.Tree → Except BuildError α} {P : α → Prop}
    {r : Rule} {cs : List Char} {Q : List Elaborate.Tree → Prop} {ts : List Elaborate.Tree}
    (h : NodeOf r cs Q ts)
    (read : ∀ pos xs, Q xs → ∃ a, f (.node r pos (String.ofList cs) xs) = .ok a ∧ P a) :
    Gives f P ts := by
  obtain ⟨pos, xs, rfl, within⟩ := h
  obtain ⟨a, done, good⟩ := read pos xs within
  exact ⟨_, a, rfl, done, good⟩

namespace Concrete

/-! ## What follows -/

/-- An expression ends here, within parentheses, in front of a comma or at a semicolon. -/
inductive Closed : List Char → Prop
  | parenthesis (rest : List Char) : Closed (')' :: rest)
  | comma (rest : List Char) : Closed (',' :: rest)
  | semicolon (rest : List Char) : Closed (';' :: rest)

section

variable {gap rest : List Char}

theorem head_blanks {p : Char → Prop} (blank : ∀ c ∈ gap, Place.isBlank c = true)
    (blanks : ∀ c, Place.isBlank c = true → p c) (next : ∀ c ∈ rest.head?, p c) :
    ∀ c ∈ (gap ++ rest).head?, p c := by
  cases gap with
  | nil => exact next
  | cons d gap =>
    intro c same
    obtain rfl := Option.some.inj same
    exact blanks d (blank d (List.mem_cons_self ..))

theorem isNameChar_of_isBlank {c : Char} (h : Place.isBlank c = true) : isNameChar c = false := by
  simp only [Place.isBlank, Bool.or_eq_true, beq_iff_eq] at h
  obtain ((rfl | rfl) | rfl) | rfl := h <;> decide

theorem NameEnds.blanks (blank : ∀ c ∈ gap, Place.isBlank c = true) (ended : NameEnds rest) :
    NameEnds (gap ++ rest) := head_blanks blank (fun _ => isNameChar_of_isBlank) ended

theorem ne_of_isBlank {c d : Char} (visible : Place.isBlank d = false)
    (h : Place.isBlank c = true) : c ≠ d := by
  rintro rfl
  exact absurd (h.symm.trans visible) (by decide)

theorem Closed.nameEnds (h : Closed rest) : NameEnds rest := by
  cases h <;> exact nameEnds_cons (by decide)

theorem Closed.solid (h : Closed rest) : Place.Solid rest := by
  cases h <;> exact Place.solid_cons (by decide) (by decide)

theorem Closed.head_ne {d : Char} (h : Closed rest) (other : d ∉ [')', ',', ';']) :
    ∀ c ∈ rest.head?, c ≠ d := by
  rintro c same rfl
  cases h <;> obtain rfl := Option.some.inj same <;> exact other (by decide)

end

/-- Arguments in parentheses. -/
def argumentList : Peg Rule := Peg.sequence [Peg.word "(", Peg.opt args, Peg.word ")"]

/-! ## Alternatives that fail -/

section

variable {name w : String} {e : Peg Rule} {gap rest : List Char} {mode : RuleMode}

theorem refuses_varRef {c : Char} (other : isNameStart c = false) :
    grammar.Refuses (.rule .varRef) .normal (c :: rest) := by
  have within : grammar.Refuses (.rule .identifier) .normal (c :: rest) := refuses_identifier other
  exact within.rule rfl

/-- At something that is no name all alternatives fail that begin with a name or a reserved word. -/
theorem refuses_names {c : Char} (other : isNameStart c = false) :
    grammar.Refuses
      (.choice [.rule .newExpr, .rule .originalCall, .rule .thisField, .rule .thisExpr,
        .rule .boolLit, .rule .nullLit, .rule .varRef]) .normal (c :: rest) := by
  have word {w : String} {mode : RuleMode} (reserved : w ∈ keywords) :
      grammar.Refuses (.word w) mode (c :: rest) :=
    refuses_lit (not_prefix_of_mem_keywords reserved other)
  refine refuses_choice ?_
  simp only [List.forall_mem_cons]
  refine ⟨Refuses.rule rfl (word (by decide)).cat, Refuses.rule rfl (word (by decide)).cat,
    Refuses.rule rfl (word (by decide)).cat, Refuses.rule rfl (word (by decide)).cat,
    Refuses.rule rfl (Refuses.cat ((word (by decide)).alt (word (by decide)))),
    Refuses.rule rfl (word (by decide)).cat,
    refuses_varRef other, List.forall_mem_nil _⟩

/-- At a name, a reserved word is read only where the name goes on. -/
theorem refuses_word_seq (reserved : w ∈ keywords) (id : isIdentifier name = true)
    (ended : NameEnds rest)
    (more : ∀ c cs, name.toList = w.toList ++ c :: cs →
      grammar.Refuses e .normal (c :: cs ++ rest)) :
    grammar.Refuses (.seq (.word w) e) .normal (name.toList ++ rest) := by
  by_cases starts : w.toList <+: name.toList ++ rest
  · obtain ⟨y, longer⟩ := exists_longer (isNameChar_of_mem_keywords reserved) ended starts
    rw [longer, List.append_assoc]
    cases y with
    | nil =>
      rw [List.append_nil, String.toList_inj] at longer
      exact absurd reserved (longer ▸ notMem_keywords_of_isIdentifier id)
    | cons c cs =>
      have letter : isNameChar c = true := by
        refine isNameChar_of_isIdentifier id c ?_
        rw [longer]
        exact List.mem_append_right _ (List.mem_cons_self ..)
      exact (Spells.refuses_seq (spells_skip_nil (solid_of_isNameChar letter))
        (spells_lit .normal w.toList _) (more c cs longer) :)
  · exact (refuses_lit starts).cat

/-- A mark does not stand within a name. -/
theorem refuses_mark_of_isNameChar {c d : Char} (letter : isNameChar c = true)
    (mark : isNameChar d = false) : grammar.Refuses (.lit [d]) mode (c :: rest) := by
  refine refuses_lit_cons ?_
  rintro rfl
  exact absurd (letter.symm.trans mark) (by decide)

/-- A word asks for a local creation only if it is all there is. -/
theorem refuses_localKw {x : List Char} (letters : ∀ d ∈ x, isNameChar d = true)
    (ended : NameEnds rest) (other : x ≠ "local".toList) :
    grammar.Refuses (.rule .localKw) mode (x ++ rest) := by
  suffices within : grammar.Refuses (body .localKw) .atomic (x ++ rest) from within.rule rfl
  by_cases starts : "local".toList <+: x ++ rest
  · obtain ⟨y, rfl⟩ := exists_longer (isNameChar_of_mem_keywords (by decide)) ended starts
    cases y with
    | nil => exact absurd (List.append_nil _) other
    | cons c cs =>
      have longer : grammar.Refuses boundary .atomic (c :: cs ++ rest) :=
        refuses_boundary (letters c (List.mem_append_right _ (List.mem_cons_self ..)))
      rw [List.append_assoc]
      exact (Spells.refuses_seq (spells_skip_atomic _) (spells_lit .atomic "local".toList _)
        longer :)
  · exact (refuses_lit starts).cat

theorem spells_localKw (ended : NameEnds rest) :
    grammar.Spells (.rule .localKw) .normal "local".toList rest
      (NodeOf .localKw "local".toList Silent) :=
  (Spells.seq_then (spells_skip_atomic ([] ++ rest)) (spells_lit .atomic "local".toList _)
    (spells_boundary ended)).rule rfl (by decide)

theorem refuses_qualifiedName {c : Char} (other : isNameStart c = false) :
    grammar.Refuses (.rule .qualifiedName) mode (c :: rest) := by
  have first : grammar.Refuses (.rule .identifier) .atomic (c :: rest) := refuses_identifier other
  exact Refuses.rule rfl first.cat

/-- Where a word is followed by no parenthesis, no class is named that could be created. -/
theorem refuses_created {c : Char} {cs : List Char} (blank : ∀ c ∈ gap, Place.isBlank c = true)
    (letters : ∀ d ∈ c :: cs, isNameChar d = true) (closed : Closed rest) :
    grammar.Refuses
      (.seq (.opt (.rule .localKw)) (.seq (.rule .qualifiedName) argumentList)) .normal
      (c :: cs ++ (gap ++ rest)) := by
  have ended := closed.nameEnds.blanks blank
  have solid : Place.Solid (c :: cs ++ (gap ++ rest)) :=
    solid_of_isNameChar (letters c (List.mem_cons_self ..))
  have noCall : grammar.Refuses argumentList .normal rest :=
    (refuses_lit_of_head (closed.head_ne (by decide))).cat
  -- The word is the name of the class, and no argument follows.
  have named : grammar.Refuses (.seq (.rule .qualifiedName) argumentList) .normal
      (c :: cs ++ (gap ++ rest)) := by
    rcases identifier_cases letters ended with refused | spelled
    · exact (Refuses.rule rfl refused.cat).cat
    · have dot : grammar.Refuses dotted .atomic (gap ++ rest) := by
        refine (refuses_lit_of_head ?_).cat
        exact head_blanks blank (fun _ => ne_of_isBlank (by decide)) (closed.head_ne (by decide))
      have whole := (Spells.seq_then (spells_skip_atomic ([] ++ (gap ++ rest))) spelled dot.many :)
      simp only [List.append_nil] at whole
      exact Spells.refuses_seq (spells_skip blank closed.solid)
        (whole.rule (r := Rule.qualifiedName) rfl (by decide)) noCall
  -- Or the word asks for a local creation, and no class is named.
  by_cases isLocal : c :: cs = "local".toList
  · have unnamed : grammar.Refuses (.rule .qualifiedName) .normal rest := by
      cases closed <;> exact refuses_qualifiedName (by decide)
    rw [isLocal]
    exact (Spells.refuses_seq (spells_skip blank closed.solid) (spells_localKw ended).opt
      unnamed.cat :)
  · have noLocal : grammar.Refuses (.rule .localKw) .normal (c :: cs ++ (gap ++ rest)) :=
      refuses_localKw letters ended isLocal
    exact (Spells.refuses_seq (spells_skip_nil solid) noLocal.opt named :)

/-- At a name all alternatives fail that ask for a reserved word. -/
theorem refuses_reserved_operands (blank : ∀ c ∈ gap, Place.isBlank c = true)
    (id : isIdentifier name = true) (closed : Closed rest) :
    grammar.Refuses
      (.choice [.rule .newExpr, .rule .originalCall, .rule .thisField, .rule .thisExpr,
        .rule .boolLit, .rule .nullLit]) .normal (name.toList ++ (gap ++ rest)) := by
  have ended := closed.nameEnds.blanks blank
  have letters {w : List Char} {c : Char} {cs : List Char} (split : name.toList = w ++ c :: cs) :
      ∀ d ∈ c :: cs, isNameChar d = true := by
    intro d mem
    refine isNameChar_of_isIdentifier id d ?_
    rw [split]
    exact List.mem_append_right _ mem
  have mark {w : List Char} {c d : Char} {cs : List Char} {e : Peg Rule}
      (split : name.toList = w ++ c :: cs) (mark : isNameChar d = false) :
      grammar.Refuses (.seq (.lit [d]) e) .normal (c :: cs ++ (gap ++ rest)) :=
    (refuses_mark_of_isNameChar (letters split c (List.mem_cons_self ..)) mark).cat
  refine refuses_choice ?_
  simp only [List.forall_mem_cons]
  refine ⟨Refuses.rule rfl ?_, Refuses.rule rfl ?_, Refuses.rule rfl ?_, Refuses.rule rfl ?_,
    Refuses.rule rfl ?_, Refuses.rule rfl ?_, List.forall_mem_nil _⟩
  · exact refuses_word_seq (w := "new") (by decide) id ended fun c cs split =>
      refuses_created blank (letters split) closed
  · exact refuses_word_seq (w := "original") (by decide) id ended fun c cs split =>
      mark split (by decide)
  · exact refuses_word_seq (w := "this") (by decide) id ended fun c cs split =>
      mark split (by decide)
  · exact refuses_reserved ["this"] (by decide) id ended
  · exact refuses_reserved ["true", "false"] (by decide) id ended
  · exact refuses_reserved ["null"] (by decide) id ended

end

/-! ## Operands -/

section

variable (file : Option String) (loc : Option Location) {name : String} {gap cs rest : List Char}
  {a : Peg Rule} {P Q : List Elaborate.Tree → Prop}

theorem spells_bool (v : Bool) (ended : NameEnds rest) :
    grammar.Spells primary .normal (Expr.written gap (.bool v loc)) rest
      (Yields file (.bool v loc)) := by
  have earlier : grammar.Refuses
      (.choice [.rule .newExpr, .rule .originalCall, .rule .thisField, .rule .thisExpr]) .normal
      (Expr.written gap (.bool v loc) ++ rest) := by
    cases v with
    | true =>
      show grammar.Refuses _ .normal ('t' :: 'r' :: 'u' :: 'e' :: rest)
      exact refuses_of_match? 60 fun _ _ => ⟨_, rfl⟩
    | false =>
      show grammar.Refuses _ .normal ('f' :: 'a' :: 'l' :: 's' :: 'e' :: rest)
      exact refuses_of_match? 60 fun _ _ => ⟨_, rfl⟩
  have value : grammar.Spells (.choice [.word "true", .word "false"]) .atomic
      (Expr.written gap (.bool v loc)) rest Silent := by
    cases v with
    | true => exact (spells_lit .atomic "true".toList rest).alt
    | false =>
      refine Refuses.orElse ?_ (spells_lit .atomic "false".toList rest)
      show grammar.Refuses _ .atomic ('f' :: 'a' :: 'l' :: 's' :: 'e' :: rest)
      exact refuses_of_match? 60 fun _ _ => ⟨_, rfl⟩
  have token : grammar.Spells (.rule .boolLit) .normal (Expr.written gap (.bool v loc)) rest
      (NodeOf .boolLit (Expr.written gap (.bool v loc)) Silent) := by
    have body := Spells.seq_then (spells_skip_atomic ([] ++ rest)) value (spells_boundary ended)
    rw [List.append_nil, List.append_nil] at body
    exact body.rule rfl (by decide)
  refine earlier.or_choice (Spells.choice (token.imp fun ts node => node.gives ?_))
  rintro pos _ rfl
  cases v <;> exact ⟨_, rfl, rfl⟩

theorem spells_null (ended : NameEnds rest) :
    grammar.Spells primary .normal (Expr.written gap (.null loc)) rest
      (Yields file (.null loc)) := by
  have earlier : grammar.Refuses
      (.choice [.rule .newExpr, .rule .originalCall, .rule .thisField, .rule .thisExpr,
        .rule .boolLit]) .normal ('n' :: 'u' :: 'l' :: 'l' :: rest) :=
    refuses_of_match? 60 fun _ _ => ⟨_, rfl⟩
  have token : grammar.Spells (.rule .nullLit) .normal "null".toList rest
      (NodeOf .nullLit "null".toList Silent) :=
    (Spells.seq_then (spells_skip_atomic ([] ++ rest)) (spells_lit .atomic _ _)
      (spells_boundary ended)).rule rfl (by decide)
  refine earlier.or_choice (Spells.choice (token.imp fun ts node => node.gives ?_))
  rintro pos _ rfl
  exact ⟨_, rfl, rfl⟩

theorem refuses_created_this (rest : List Char) :
    grammar.Refuses (.choice [.rule .newExpr, .rule .originalCall]) .normal
      ("this".toList ++ rest) := by
  show grammar.Refuses _ .normal ('t' :: 'h' :: 'i' :: 's' :: rest)
  exact refuses_of_match? 60 fun _ _ => ⟨_, rfl⟩

theorem spells_this (blank : ∀ c ∈ gap, Place.isBlank c = true) (closed : Closed rest) :
    grammar.Spells primary .normal (Expr.written gap (.this loc)) (gap ++ rest)
      (Yields file (.this loc)) := by
  have noField : grammar.Refuses (.rule .thisField) .normal ("this".toList ++ (gap ++ rest)) := by
    have dot : grammar.Refuses (.word ".") .normal rest :=
      refuses_lit_of_head (closed.head_ne (by decide))
    exact Refuses.rule rfl (Spells.refuses_seq (spells_skip blank closed.solid)
      (spells_lit .normal _ _) dot.cat)
  have token : grammar.Spells (.rule .thisExpr) .normal "this".toList (gap ++ rest)
      (NodeOf .thisExpr "this".toList Silent) :=
    (Spells.seq_then (spells_skip_atomic ([] ++ (gap ++ rest))) (spells_lit .atomic _ _)
      (spells_boundary (closed.nameEnds.blanks blank))).rule rfl (by decide)
  refine (refuses_created_this _).or_choice (Refuses.orElse noField (Spells.choice
    (token.imp fun ts node => node.gives ?_)))
  rintro pos _ rfl
  exact ⟨_, rfl, rfl⟩

theorem spells_field (blank : ∀ c ∈ gap, Place.isBlank c = true) (id : isIdentifier name = true)
    (closed : Closed rest) :
    grammar.Spells primary .normal (Expr.written gap (.field name loc) ++ gap) rest
      (Yields file (.field name loc)) := by
  have noCall : grammar.Refuses (.word "(") .normal rest :=
    refuses_lit_of_head (closed.head_ne (by decide))
  have named := Spells.seq_blanks (spells_skip blank closed.solid)
    (spells_identifier id (closed.nameEnds.blanks blank)) noCall.not
  have dotted := Spells.seq_then
    (spells_skip blank (Place.solid_append (solid_of_isIdentifier id) _ _))
    (spells_lit .normal ".".toList _) named
  have start : Place.Solid (".".toList ++ (gap ++ (name.toList ++ gap)) ++ rest) :=
    Place.solid_append (Place.solid_word (by decide)) _ _
  have token : grammar.Spells (.rule .thisField) .normal
      ("this".toList ++ (gap ++ (".".toList ++ (gap ++ (name.toList ++ gap))))) rest
      (NodeOf .thisField _ (NodeOf .identifier name.toList Silent)) :=
    (Spells.seq_then (spells_skip blank start) (spells_lit .normal "this".toList _)
      dotted).rule_normal rfl
  have same : Expr.written gap (.field name loc) ++ gap =
      "this".toList ++ (gap ++ (".".toList ++ (gap ++ (name.toList ++ gap)))) := by
    show "this".toList ++ (gap ++ (".".toList ++ (gap ++ name.toList))) ++ gap = _
    simp only [List.append_assoc]
  rw [same]
  have earlier := refuses_created_this
    (gap ++ (".".toList ++ (gap ++ (name.toList ++ gap))) ++ rest)
  rw [← List.append_assoc] at earlier
  refine Refuses.or_choice earlier (Spells.choice (token.imp fun ts node => node.gives ?_))
  rintro pos _ ⟨pos', _, rfl, rfl⟩
  exact ⟨_, rfl, by simp [Expr.unlocated]⟩

theorem spells_var (blank : ∀ c ∈ gap, Place.isBlank c = true) (id : isIdentifier name = true)
    (closed : Closed rest) :
    grammar.Spells primary .normal (Expr.written gap (.var name loc)) (gap ++ rest)
      (Yields file (.var name loc)) := by
  have token : grammar.Spells (.rule .varRef) .normal name.toList (gap ++ rest)
      (NodeOf .varRef name.toList (NodeOf .identifier name.toList Silent)) :=
    (spells_identifier id (closed.nameEnds.blanks blank)).rule rfl (by decide)
  refine (refuses_reserved_operands blank id closed).or_choice (Spells.choice
    (token.imp fun ts node => node.gives ?_))
  rintro pos _ ⟨pos', _, rfl, rfl⟩
  exact ⟨_, rfl, by simp [Expr.unlocated]⟩

theorem natOfDigits_toDigits (n : Nat) : natOfDigits (Nat.toDigits 10 n) = n :=
  Nat.ofDigitChars_toDigits (by decide) (by decide)

theorem isDigit_of_mem_toDigits {n : Nat} {c : Char} (mem : c ∈ Nat.toDigits 10 n) :
    isDigit c = true := Nat.isDigit_of_mem_toDigits (by decide) (by decide) mem

theorem isNameChar_of_isDigit {c : Char} (h : isDigit c = true) : isNameChar c = true := by
  rw [isNameChar, h, Bool.or_true]

theorem isNameStart_of_isDigit {c : Char} (h : isDigit c = true) : isNameStart c = false := by
  simp only [isDigit, Bool.and_eq_true, decide_eq_true_eq] at h
  have below (d : Char) (less : '9' < d) : c < d := UInt32.lt_of_le_of_lt h.2 less
  have notLetter : isLetter c = false := by
    simp only [isLetter, Bool.or_eq_false_iff, Bool.and_eq_false_iff, decide_eq_false_iff_not,
      Char.not_le]
    exact ⟨.inl (below 'a' (by decide)), .inl (below 'A' (by decide))⟩
  rw [isNameStart, notLetter, Bool.false_or, beq_eq_false_iff_ne]
  exact Char.ne_of_lt (below '_' (by decide))

theorem spells_digits {c : Char} (digits : ∀ d ∈ c :: cs, isDigit d = true)
    (ended : NameEnds rest) :
    grammar.Spells primary .normal (c :: cs) rest (NodeOf .intLit (c :: cs) Silent) := by
  have stop : ∀ d ∈ rest.head?, isDigit d = false := by
    intro d next
    rw [← Bool.not_eq_true]
    intro digit
    exact absurd ((isNameChar_of_isDigit digit).symm.trans (ended d next)) (by decide)
  have first := digits c (List.mem_cons_self ..)
  have token : grammar.Spells (.rule .intLit) .normal (c :: cs) rest
      (NodeOf .intLit (c :: cs) Silent) :=
    ((spells_one .atomic first _).then (spells_span .atomic
      (fun d mem => digits d (List.mem_cons_of_mem c mem)) stop)).rule rfl (by decide)
  exact (refuses_names (isNameStart_of_isDigit first)).or_choice token.choice

theorem written_int (n : Nat) : Expr.written gap (.int n loc) = Nat.toDigits 10 n := by
  show (toString n).toList = _
  rw [Nat.toString_eq_ofList_toDigits, String.toList_ofList]

theorem spells_int {n : Int} (nonneg : 0 ≤ n) (fits : n ≤ maxInt) (ended : NameEnds rest) :
    grammar.Spells primary .normal (Expr.written gap (.int n loc)) rest
      (Yields file (.int n loc)) := by
  obtain ⟨k, rfl⟩ := Int.eq_ofNat_of_zero_le nonneg
  rw [written_int]
  cases split : Nat.toDigits 10 k with
  | nil => exact absurd split Nat.toDigits_ne_nil
  | cons c cs =>
    have digits (d : Char) (mem : d ∈ c :: cs) : isDigit d = true :=
      isDigit_of_mem_toDigits (split ▸ mem)
    refine (spells_digits digits ended).imp fun ts node => node.gives fun pos xs _ => ?_
    refine ⟨.int k (Elaborate.locate file pos), ?_, rfl⟩
    have value : natOfDigits (c :: cs) = k := by rw [← split, natOfDigits_toDigits]
    have literal : Elaborate.intLiteral (String.ofList (c :: cs)) = .ok k := by
      simp only [Elaborate.intLiteral, String.toList_ofList, value, if_pos fits]
    show (do
      let n ← Elaborate.intLiteral (String.ofList (c :: cs))
      return Expr.int n (Elaborate.locate file pos)) = _
    rw [literal]
    rfl

theorem spells_str {s : String} (plain : '"' ∉ s.toList) (rest : List Char) :
    grammar.Spells primary .normal (Expr.written gap (.str s loc)) rest
      (Yields file (.str s loc)) := by
  have earlier : grammar.Refuses (.choice [.rule .newExpr, .rule .originalCall, .rule .thisField,
      .rule .thisExpr, .rule .boolLit, .rule .nullLit, .rule .varRef, .rule .intLit]) .normal
      (Expr.written gap (.str s loc) ++ rest) := by
    show grammar.Refuses _ .normal ('"' :: (s.toList ++ ['"'] ++ rest))
    exact refuses_of_match? 60 fun _ _ => ⟨_, rfl⟩
  have blank (more : List Char) : grammar.Spells .skip .compound [] more Silent :=
    spells_skip_of_ne (by decide) more
  have inner : grammar.Spells (.rule .stringInner) .compound s.toList ("\"".toList ++ rest)
      (NodeOf .stringInner s.toList Silent) := by
    refine (spells_span .atomic (fun c mem => ?_) fun c next => ?_).rule rfl (by decide)
    · rw [bne_iff_ne]
      exact ne_of_mem_of_not_mem mem plain
    · obtain rfl := Option.some.inj next
      rfl
  have token : grammar.Spells (.rule .stringLit) .normal (Expr.written gap (.str s loc)) rest
      (NodeOf .stringLit _ (NodeOf .stringInner s.toList Silent)) :=
    (Spells.seq_then (blank _) (spells_lit .compound "\"".toList _)
      (Spells.seq_before (blank _) inner (spells_lit .compound "\"".toList rest))).rule rfl
        (by decide)
  refine earlier.or_choice (Spells.choice (token.imp fun ts node => node.gives ?_))
  rintro pos _ ⟨pos', _, rfl, rfl⟩
  exact ⟨_, rfl, by simp [Expr.unlocated]⟩

/-- Something in parentheses, between which blanks may stand. -/
theorem spells_inParens (blank : ∀ c ∈ gap, Place.isBlank c = true)
    (solid : Place.Solid (cs ++ (")".toList ++ rest)))
    (within : grammar.Spells a .normal cs (")".toList ++ rest) P) :
    grammar.Spells (.sequence [.word "(", a, .word ")"]) .normal (Expr.inParens gap cs) rest P := by
  have closed : Place.Solid (")".toList ++ rest) := Place.solid_word (by decide) rest
  rw [← List.append_assoc] at solid
  exact Spells.seq_then (spells_skip blank solid) (spells_lit .normal "(".toList _)
    (Spells.seq_before (spells_skip_nil closed) within (spells_lit .normal ")".toList rest))

/-- An expression in parentheses is read as what it is without them. -/
theorem spells_parenthesized (blank : ∀ c ∈ gap, Place.isBlank c = true)
    (solid : Place.Solid (cs ++ (")".toList ++ rest)))
    (within : grammar.Spells expr .normal cs (")".toList ++ rest) P) :
    grammar.Spells primary .normal (Expr.inParens gap cs) rest P := by
  have earlier : grammar.Refuses (.choice [.rule .newExpr, .rule .originalCall, .rule .thisField,
      .rule .thisExpr, .rule .boolLit, .rule .nullLit, .rule .varRef, .rule .intLit,
      .rule .stringLit]) .normal (Expr.inParens gap cs ++ rest) := by
    show grammar.Refuses _ .normal ('(' :: (gap ++ (cs ++ ")".toList) ++ rest))
    exact refuses_of_match? 60 fun _ _ => ⟨_, rfl⟩
  exact earlier.or_choice (spells_inParens blank solid within)

end

end Concrete

end DeltaLang
