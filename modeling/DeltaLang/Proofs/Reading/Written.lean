import DeltaLang.Proofs.Grammar.Depth
import DeltaLang.Proofs.Reading.Calls
import DeltaLang.Proofs.Reading.Operators

/-!
# Reading what is written

An expression written with all its operands, call targets and futures in parentheses is read as
itself, whatever blanks stand between its tokens.
-/

namespace DeltaLang

open Grammar Concrete

/-! ## How texts start -/

namespace Concrete

/-- The text starts neither with a blank or a comment nor with a unary operator. -/
def Opens (text : List Char) : Prop :=
  ∃ c cs, text = c :: cs ∧ Place.isBlank c = false ∧ ∀ d ∈ ['/', '!', '-'], c ≠ d

section

variable {text : List Char}

theorem Opens.solid (h : Opens text) (rest : List Char) : Place.Solid (text ++ rest) := by
  obtain ⟨c, cs, rfl, visible, plain⟩ := h
  exact Place.solid_cons visible (plain '/' (by decide))

theorem Opens.refuses_unaryOp (h : Opens text) (rest : List Char) :
    grammar.Refuses (.rule .unaryOp) .normal (text ++ rest) := by
  obtain ⟨c, cs, rfl, visible, plain⟩ := h
  exact Concrete.refuses_unaryOp (plain '!' (by decide)) (plain '-' (by decide))

theorem opens_word {w : String}
    (visible : w.toList.head?.any
      (fun c => !Place.isBlank c && !(['/', '!', '-'].contains c)) = true)
    (rest : List Char) : Opens (w.toList ++ rest) := by
  cases split : w.toList with
  | nil => simp [split] at visible
  | cons c cs =>
    rw [split] at visible
    simp only [List.head?_cons, Option.any_some, Bool.and_eq_true, Bool.not_eq_true'] at visible
    refine ⟨c, cs ++ rest, rfl, visible.1, ?_⟩
    rintro d mem rfl
    rw [List.contains_iff_mem.2 mem] at visible
    exact absurd visible.2 (by decide)

theorem opens_of_isNameChar {c : Char} {cs : List Char} (h : isNameChar c = true) :
    Opens (c :: cs) := by
  refine ⟨c, cs, rfl, ?_, ?_⟩
  · rw [← Bool.not_eq_true]
    exact fun blank => absurd (h.symm.trans (isNameChar_of_isBlank blank)) (by decide)
  · have marks : ['/', '!', '-'].all (fun d => !isNameChar d) = true := by decide
    rintro d mem rfl
    have mark := List.all_eq_true.1 marks c mem
    rw [h] at mark
    cases mark

theorem opens_of_isIdentifier {name : String} (id : isIdentifier name = true) :
    Opens name.toList := by
  obtain ⟨c, cs, split, start⟩ := exists_cons_of_isIdentifier id
  rw [split]
  exact opens_of_isNameChar (isNameChar_of_isNameStart start)

theorem opens_inParens (gap text rest : List Char) : Opens (Expr.inParens gap text ++ rest) := by
  rw [Expr.inParens, List.append_assoc]
  exact opens_word (by decide) _

end

/-! ## What may follow -/

section

variable {gap rest : List Char} {n : Nat}

theorem Closed.refuses_joint (closed : Closed rest) (h : n < 6) :
    grammar.Refuses (joint n) .normal rest := by
  have other : ∀ n < 6, (jointStarts n).contains ')' = false ∧
      (jointStarts n).contains ',' = false ∧ (jointStarts n).contains ';' = false := by decide
  cases closed with
  | parenthesis => exact Concrete.refuses_joint (other n h).1
  | comma => exact Concrete.refuses_joint (other n h).2.1
  | semicolon => exact Concrete.refuses_joint (other n h).2.2

/-- The operator of a looser level ends what a tighter one reads. -/
theorem refuses_joint_symbol {op : BinaryOp} (h : n < op.level) (rest : List Char) :
    grammar.Refuses (joint n) .normal (op.symbol.toList ++ rest) := by
  have other : ∀ n < op.level,
      op.symbol.toList.head?.any (fun c => !(jointStarts n).contains c) = true := by
    cases op <;> decide
  have start := other n h
  cases split : op.symbol.toList with
  | nil => simp [split] at start
  | cons c cs =>
    rw [split, List.head?_cons, Option.any_some, Bool.not_eq_true'] at start
    exact Concrete.refuses_joint start

theorem refuses_suffix {c : Char} (other : c ≠ '!') (other' : c ≠ '.') :
    grammar.Refuses suffix .normal (c :: rest) := by
  exact (Refuses.rule rfl (refuses_lit_cons other).cat).alt
    ((Refuses.rule rfl (refuses_lit_cons other').cat).alt
      (Refuses.rule rfl (refuses_lit_cons other').cat))

/-- Nothing is applied to the left operand of an operator; an inequality is no call. -/
theorem refuses_suffix_symbol (op : BinaryOp) (rest : List Char) :
    grammar.Refuses suffix .normal (op.symbol.toList ++ rest) := by
  by_cases inequality : op = .ne
  · subst inequality
    show grammar.Refuses suffix .normal ('!' :: '=' :: rest)
    exact refuses_of_match? 60 fun _ _ => ⟨_, rfl⟩
  · have start : op.symbol.toList.head?.any (fun c => c != '!' && c != '.') = true := by
      cases op with
      | ne => exact absurd rfl inequality
      | _ => decide
    cases split : op.symbol.toList with
    | nil => simp [split] at start
    | cons c cs =>
      simp only [split, List.head?_cons, Option.any_some, Bool.and_eq_true, bne_iff_ne] at start
      exact refuses_suffix start.1 start.2

/-- A symbol does not begin a comment. -/
theorem solid_symbol (op : BinaryOp) (next : ∀ c ∈ rest.head?, c ≠ '/' ∧ c ≠ '*') :
    Place.Solid (op.symbol.toList ++ rest) := by
  by_cases division : op = .div
  · subst division
    show Place.Solid ('/' :: rest)
    intro pos
    unfold Place.skipBlanks
    cases rest with
    | nil => rfl
    | cons c cs =>
      rw [Place.skipFrom]
      · rfl
      · intro _ _ same
        exact (next c rfl).1 (List.cons.inj same).1
      · intro _ _ same
        exact (next c rfl).2 (List.cons.inj same).1
  · refine Place.solid_word ?_ rest
    cases op with
    | div => exact absurd rfl division
    | _ => decide

end

end Concrete

/-! ## Expressions -/

/-- Wherever an expression may end, the text of this one and the blanks after it are read as the
expression. -/
structure Reads (file : Option String) (gap : List Char) (e : Expr) : Prop where
  solid : ∀ rest, Place.Solid (e.written gap ++ rest)
  spells : ∀ rest, Closed rest →
    grammar.Spells expr .normal (e.written gap ++ gap) rest (Yields file e)

section

variable {file : Option String} {gap : List Char}

/-- What the tightest rule reads in front of blanks is read by all, with the blanks. -/
theorem spells_expr {e : Expr} {rest cs blanks : List Char} (closed : Closed rest)
    (blank : ∀ c ∈ blanks, Place.isBlank c = true)
    (operand : grammar.Spells (.rule .unaryExpr) .normal cs (blanks ++ rest) (Yields file e)) :
    grammar.Spells expr .normal (cs ++ blanks) rest (Yields file e) :=
  spells_rung_of_le (n := 1) (m := 6) file (by decide) (by decide) closed.solid
    (fun _ _ => closed.refuses_joint)
    (spells_rung_succ (n := 0) file blanks (by decide) blank closed.solid
      (closed.refuses_joint (by decide)) operand)

/-- What is read as an operand in front of blanks is read as an expression, with the blanks. -/
theorem spells_expr_of_primary {e : Expr} {rest cs blanks : List Char} (opens : Opens cs)
    (closed : Closed rest) (blank : ∀ c ∈ blanks, Place.isBlank c = true)
    (operand : grammar.Spells primary .normal cs (blanks ++ rest) (Yields file e)) :
    grammar.Spells expr .normal (cs ++ blanks) rest (Yields file e) := by
  have whole := spells_operand file blank closed.solid closed.refuses_suffix operand
  have unary : grammar.Spells (.rule .unaryExpr) .normal (cs ++ blanks) ([] ++ rest)
      (Yields file e) := by
    refine spells_unaryExpr file ?_ ?_ whole
    · exact Place.solid_append opens.solid _ _
    · rw [List.append_assoc]
      exact opens.refuses_unaryOp _
  have all := spells_expr closed (List.forall_mem_nil _) unary
  rwa [List.append_nil] at all

variable (blank : ∀ c ∈ gap, Place.isBlank c = true) (loc : Option Location)

include blank

/-! ### Lists of expressions -/

omit blank in
theorem closed_listedMore (gap : List Char) (es : List Expr) (rest : List Char) :
    Closed (Expr.listedMore gap es ++ (")".toList ++ rest)) := by
  cases es with
  | nil => exact .parenthesis _
  | cons e es => exact .comma _

omit blank in
theorem YieldsAll.cons {e : Expr} {es : List Expr} {ts : List Elaborate.Tree}
    (h : Both (Yields file e) (YieldsAll file es) ts) : YieldsAll file (e :: es) ts := by
  obtain ⟨_, ts, rfl, ⟨t, e', rfl, done, same⟩, es', doneAll, sameAll⟩ := h
  refine ⟨e' :: es', ?_, ?_⟩
  · show (do return (← Elaborate.expr file t) :: (← Elaborate.exprs file ts)) = _
    rw [done, doneAll]
    rfl
  · simp only [Expr.unlocatedAll, same, sameAll]

/-- A comma and an expression. -/
theorem Reads.spells_comma {e : Expr} (h : Reads file gap e) {rest : List Char}
    (closed : Closed rest) :
    grammar.Spells (.seq (.word ",") expr) .normal (",".toList ++ (gap ++ (e.written gap ++ gap)))
      rest (Yields file e) := by
  exact Spells.seq_then (spells_skip blank (Place.solid_append h.solid _ _))
    (spells_lit .normal ",".toList _) (h.spells rest closed)

theorem spells_listedMore_loop {es : List Expr} (all : ∀ e ∈ es, Reads file gap e)
    (rest : List Char) :
    grammar.Spells (.loop (.cat .skip (.seq (.word ",") expr))) .normal
      (Expr.listedMore gap es) (")".toList ++ rest) (YieldsAll file es) := by
  induction es with
  | nil =>
    have stop : grammar.Refuses (.seq (.word ",") expr) .normal (")".toList ++ rest) :=
      (refuses_lit (by simp)).cat
    refine (((spells_skip_nil (Place.solid_word (by decide) rest)).refuses_cat stop).loop).imp ?_
    rintro _ rfl
    exact ⟨[], rfl, rfl⟩
  | cons e es ih =>
    have first := (all e (List.mem_cons_self ..)).spells_comma blank (closed_listedMore gap es rest)
    have skip : grammar.Spells .skip .normal []
        (",".toList ++ (gap ++ (e.written gap ++ gap)) ++
          (Expr.listedMore gap es ++ (")".toList ++ rest))) Silent :=
      spells_skip_nil (Place.solid_append (Place.solid_word (by decide)) _ _)
    exact ((skip.then first).loop (ih fun e' mem => all e' (List.mem_cons_of_mem e mem))).imp
      fun ts => YieldsAll.cons

theorem spells_listedMore {es : List Expr} (all : ∀ e ∈ es, Reads file gap e) (rest : List Char) :
    grammar.Spells (.many (.seq (.word ",") expr)) .normal (Expr.listedMore gap es)
      (")".toList ++ rest) (YieldsAll file es) := by
  cases es with
  | nil =>
    have stop : grammar.Refuses (.seq (.word ",") expr) .normal (")".toList ++ rest) :=
      (refuses_lit (by simp)).cat
    refine stop.many.imp ?_
    rintro _ rfl
    exact ⟨[], rfl, rfl⟩
  | cons e es =>
    have first := (all e (List.mem_cons_self ..)).spells_comma blank (closed_listedMore gap es rest)
    exact (first.many (spells_listedMore_loop blank
      (fun e' mem => all e' (List.mem_cons_of_mem e mem)) rest)).imp fun ts => YieldsAll.cons

theorem spells_listed {es : List Expr} (all : ∀ e ∈ es, Reads file gap e) (rest : List Char) :
    grammar.Spells (.opt args) .normal (Expr.listed gap es) (")".toList ++ rest)
      (YieldsAll file es) := by
  cases es with
  | nil =>
    have stop : grammar.Refuses args .normal (')' :: rest) :=
      refuses_of_match? 60 fun _ _ => ⟨_, rfl⟩
    refine stop.opt.imp ?_
    rintro _ rfl
    exact ⟨[], rfl, rfl⟩
  | cons e es =>
    have closed := closed_listedMore gap es rest
    have whole := Spells.seq (spells_skip_nil closed.solid)
      ((all e (List.mem_cons_self ..)).spells _ closed)
      (spells_listedMore blank (fun e' mem => all e' (List.mem_cons_of_mem e mem)) rest)
    exact whole.opt.imp fun ts => YieldsAll.cons

theorem spells_argumentList {es : List Expr} (all : ∀ e ∈ es, Reads file gap e)
    (rest : List Char) :
    grammar.Spells argumentList .normal (Expr.inParens gap (Expr.listed gap es)) rest
      (YieldsAll file es) := by
  refine spells_inParens blank ?_ (spells_listed blank all rest)
  cases es with
  | nil => exact Place.solid_word (by decide) rest
  | cons e es =>
    show Place.Solid (e.written gap ++ gap ++ Expr.listedMore gap es ++ (")".toList ++ rest))
    rw [List.append_assoc, List.append_assoc]
    exact (all e (List.mem_cons_self ..)).solid _

/-! ### Operands in parentheses -/

theorem Reads.spells_parenthesized {e : Expr} (h : Reads file gap e) (rest : List Char) :
    grammar.Spells primary .normal (Expr.inParens gap (e.written gap ++ gap)) rest
      (Yields file e) := by
  exact Concrete.spells_parenthesized blank (Place.solid_append h.solid _ _)
    (h.spells _ (.parenthesis rest))

/-- In front of something that is not applied to it, an operand in parentheses ends with the blanks
behind them. -/
theorem Reads.spells_operand {e : Expr} (h : Reads file gap e) {rest : List Char}
    (solid : Place.Solid rest) (stop : grammar.Refuses suffix .normal rest) :
    grammar.Spells (.rule .postfixExpr) .normal (Expr.inParens gap (e.written gap ++ gap) ++ gap)
      rest (Yields file e) :=
  Concrete.spells_operand file blank solid stop (h.spells_parenthesized blank _)

theorem Reads.spells_unaryExpr {e : Expr} (h : Reads file gap e) {rest : List Char}
    (solid : Place.Solid rest) (stop : grammar.Refuses suffix .normal rest) :
    grammar.Spells (.rule .unaryExpr) .normal (Expr.inParens gap (e.written gap ++ gap) ++ gap)
      rest (Yields file e) := by
  have opens := opens_inParens gap (e.written gap ++ gap) gap
  exact Concrete.spells_unaryExpr file (opens.solid rest) (opens.refuses_unaryOp rest)
    (h.spells_operand blank solid stop)

/-! ### One form of expression after the other -/

/-- Expressions that are read as operands, in front of blanks. -/
theorem Reads.of_primary {e : Expr} (opens : Opens (e.written gap))
    (operand : ∀ rest, Closed rest →
      grammar.Spells primary .normal (e.written gap) (gap ++ rest) (Yields file e)) :
    Reads file gap e :=
  ⟨opens.solid, fun rest closed => spells_expr_of_primary opens closed blank (operand rest closed)⟩

theorem reads_bool (v : Bool) : Reads file gap (.bool v loc) := by
  refine .of_primary blank ?_ fun rest closed =>
    spells_bool file loc v (closed.nameEnds.blanks blank)
  cases v with
  | true => exact opens_word (w := "true") (by decide) []
  | false => exact opens_word (w := "false") (by decide) []

theorem reads_null : Reads file gap (.null loc) :=
  .of_primary blank (opens_word (w := "null") (by decide) []) fun _ closed =>
    spells_null file loc (closed.nameEnds.blanks blank)

theorem reads_this : Reads file gap (.this loc) :=
  .of_primary blank (opens_word (w := "this") (by decide) []) fun _ closed =>
    spells_this file loc blank closed

theorem reads_int {n : Int} (nonneg : 0 ≤ n) (fits : n ≤ maxInt) :
    Reads file gap (.int n loc) := by
  refine .of_primary blank ?_ fun rest closed =>
    spells_int file loc nonneg fits (closed.nameEnds.blanks blank)
  obtain ⟨k, rfl⟩ := Int.eq_ofNat_of_zero_le nonneg
  rw [written_int]
  cases split : Nat.toDigits 10 k with
  | nil => exact absurd split Nat.toDigits_ne_nil
  | cons c cs =>
    have digit : isDigit c = true := isDigit_of_mem_toDigits (split ▸ List.mem_cons_self ..)
    exact opens_of_isNameChar (isNameChar_of_isDigit digit)

theorem reads_str {s : String} (plain : '"' ∉ s.toList) : Reads file gap (.str s loc) :=
  .of_primary blank (opens_word (w := "\"") (by decide) _) fun _ _ =>
    spells_str file loc plain _

theorem reads_var {name : String} (id : isIdentifier name = true) :
    Reads file gap (.var name loc) :=
  .of_primary blank (opens_of_isIdentifier id) fun _ closed => spells_var file loc blank id closed

theorem reads_field {name : String} (id : isIdentifier name = true) :
    Reads file gap (.field name loc) := by
  have opens (rest : List Char) : Opens ((Expr.field name loc).written gap ++ rest) := by
    show Opens ("this".toList ++ (gap ++ (".".toList ++ (gap ++ name.toList))) ++ rest)
    rw [List.append_assoc]
    exact opens_word (by decide) _
  refine ⟨fun rest => ?_, fun rest closed => ?_⟩
  · have start := (opens rest).solid []
    rwa [List.append_nil] at start
  · have whole := spells_expr_of_primary (opens gap) closed (List.forall_mem_nil _)
      (spells_field file loc blank id closed)
    rwa [List.append_nil] at whole

theorem reads_original {as : List Expr} (all : ∀ a ∈ as, Reads file gap a) :
    Reads file gap (.original as loc) :=
  .of_primary blank (opens_word (w := "original") (by decide) _) fun _ _ =>
    spells_original file loc blank (spells_argumentList blank all _)

theorem reads_new {c : String} {as : List Expr} (named : IsQualifiedName c)
    (all : ∀ a ∈ as, Reads file gap a) (isLocal : Bool) :
    Reads file gap (.new c as isLocal loc) := by
  refine .of_primary blank (opens_word (w := "new") (by decide) _) fun rest closed => ?_
  cases isLocal with
  | true => exact spells_createdLocally file loc blank (spells_argumentList blank all _) named
  | false => exact spells_created file loc blank (spells_argumentList blank all _) named

/-- Something that is applied to a target in parentheses. -/
theorem Reads.of_suffix {t e : Expr} (target : Reads file gap t) {cs : List Char}
    (text : e.written gap = Expr.inParens gap (t.written gap ++ gap) ++ (gap ++ cs))
    (solid : ∀ rest, Place.Solid (cs ++ rest))
    (applied : ∀ rest, Closed rest →
      grammar.Spells suffix .normal cs (gap ++ rest) (Extends file t e)) :
    Reads file gap e := by
  have opens := opens_inParens gap (t.written gap ++ gap) (gap ++ cs)
  rw [← text] at opens
  refine ⟨opens.solid, fun rest closed => spells_expr closed blank ?_⟩
  refine Concrete.spells_unaryExpr file (opens.solid _) (opens.refuses_unaryOp _) ?_
  rw [text]
  exact spells_suffixed file blank closed (solid _) (target.spells_parenthesized blank _)
    (applied rest closed)

theorem reads_call {t : Expr} {m : String} {as : List Expr} (target : Reads file gap t)
    (id : isIdentifier m = true) (all : ∀ a ∈ as, Reads file gap a) (async : Bool) :
    Reads file gap (.call t m as async loc) := by
  refine target.of_suffix blank (e := .call t m as async loc) rfl (fun rest => ?_) fun rest _ =>
    spells_call file loc blank (spells_argumentList blank all _) id async
  rw [List.append_assoc]
  cases async with
  | true => exact Place.solid_word (w := "!") (by decide) _
  | false => exact Place.solid_word (w := ".") (by decide) _

theorem reads_get {t : Expr} (target : Reads file gap t) : Reads file gap (.get t loc) :=
  target.of_suffix blank (e := .get t loc) rfl (Place.solid_word (by decide)) fun _ closed =>
    spells_get file loc blank closed

theorem reads_unary (op : UnaryOp) {e : Expr} (operand : Reads file gap e) :
    Reads file gap (.unary op e loc) := by
  have opens := opens_inParens gap (e.written gap ++ gap) gap
  refine ⟨fun rest => ?_, fun rest closed => ?_⟩
  · show Place.Solid (op.symbol.toList ++ (gap ++ Expr.inParens gap (e.written gap ++ gap)) ++ rest)
    rw [List.append_assoc]
    cases op with
    | not => exact Place.solid_word (w := "!") (by decide) _
    | neg => exact Place.solid_word (w := "-") (by decide) _
  · have unary := spells_unary file op loc blank (opens.solid rest) (opens.refuses_unaryOp rest)
      (operand.spells_operand blank closed.solid closed.refuses_suffix)
    have whole := spells_expr closed (List.forall_mem_nil _) unary
    have text : (Expr.unary op e loc).written gap ++ gap = op.symbol.toList ++
        (gap ++ (Expr.inParens gap (e.written gap ++ gap) ++ gap)) := by
      show op.symbol.toList ++ (gap ++ Expr.inParens gap (e.written gap ++ gap)) ++ gap = _
      rw [List.append_assoc, List.append_assoc]
    rwa [List.append_nil, ← text] at whole

/-- The operands of an operator are read by the rule that binds next tighter, up to the operator. -/
theorem reads_binary (op : BinaryOp) {l r : Expr} (left : Reads file gap l)
    (right : Reads file gap r) : Reads file gap (.binary op l r loc) := by
  have opensLeft := opens_inParens gap (l.written gap ++ gap)
  refine ⟨fun rest => ?_, fun rest closed => ?_⟩
  · have start := (opensLeft (gap ++ (op.symbol.toList ++
      (gap ++ Expr.inParens gap (r.written gap ++ gap))))).solid rest
    exact start
  -- The symbol and what follows it.
  have next (p : Char → Prop) (blanks : ∀ c, Place.isBlank c = true → p c) (opening : p '(') :
      ∀ c ∈ (gap ++ (Expr.inParens gap (r.written gap ++ gap) ++ gap ++ rest)).head?, p c := by
    refine head_blanks blank blanks fun c same => ?_
    obtain rfl := Option.some.inj same
    exact opening
  have solidSymbol := solid_symbol op (next (fun c => c ≠ '/' ∧ c ≠ '*')
    (fun c isBlank => ⟨ne_of_isBlank rfl isBlank, ne_of_isBlank rfl isBlank⟩) (by decide))
  have solidRight := (opens_inParens gap (r.written gap ++ gap) gap).solid rest
  have level := op.level_lt
  have leftOperand := spells_rung_of_le (n := 0) (m := op.level) file (Nat.zero_le _) level.le
    solidSymbol (fun k _ less => refuses_joint_symbol less _)
    (left.spells_unaryExpr blank solidSymbol (refuses_suffix_symbol op _))
  have rightOperand := spells_rung_of_le (n := 0) (m := op.level) file (Nat.zero_le _) level.le
    closed.solid (fun k _ less => closed.refuses_joint (less.trans level))
    (right.spells_unaryExpr blank closed.solid closed.refuses_suffix)
  rw [← List.append_assoc gap, ← List.append_assoc op.symbol.toList] at leftOperand
  have joined := spells_binary file op loc blank closed.solid solidRight solidSymbol
    (next (· ≠ '=') (fun c => ne_of_isBlank rfl) (by decide)) (closed.refuses_joint level)
    leftOperand rightOperand
  have text : (Expr.binary op l r loc).written gap ++ gap =
      Expr.inParens gap (l.written gap ++ gap) ++ gap ++ (op.symbol.toList ++
        (gap ++ (Expr.inParens gap (r.written gap ++ gap) ++ gap))) := by
    show Expr.inParens gap (l.written gap ++ gap) ++ (gap ++ (op.symbol.toList ++
      (gap ++ Expr.inParens gap (r.written gap ++ gap)))) ++ gap = _
    simp only [List.append_assoc]
  rw [text]
  exact spells_rung_of_le (n := op.level + 1) (m := 6) file level le_rfl closed.solid
    (fun k _ less => closed.refuses_joint less) joined

end

/-! ### All expressions -/

section

variable {file : Option String} {gap : List Char}

mutual

theorem reads (blank : ∀ c ∈ gap, Place.isBlank c = true) :
    (e : Expr) → e.Writable → Reads file gap e
  | .bool v loc, _ => reads_bool blank loc v
  | .int _ loc, ⟨nonneg, fits⟩ => reads_int blank loc nonneg fits
  | .str _ loc, plain => reads_str blank loc plain
  | .null loc, _ => reads_null blank loc
  | .this loc, _ => reads_this blank loc
  | .var _ loc, id => reads_var blank loc id
  | .field _ loc, id => reads_field blank loc id
  | .unary op e loc, h => reads_unary blank loc op (reads blank e h)
  | .binary op l r loc, ⟨left, right⟩ =>
    reads_binary blank loc op (reads blank l left) (reads blank r right)
  | .call t _ as async loc, ⟨target, id, all⟩ =>
    reads_call blank loc (reads blank t target) id (readsAll blank as all) async
  | .get e loc, h => reads_get blank loc (reads blank e h)
  | .new _ as isLocal loc, ⟨named, all⟩ =>
    reads_new blank loc named (readsAll blank as all) isLocal
  | .original as loc, all => reads_original blank loc (readsAll blank as all)

theorem readsAll (blank : ∀ c ∈ gap, Place.isBlank c = true) :
    (es : List Expr) → Expr.WritableAll es → ∀ e ∈ es, Reads file gap e
  | [], _ => List.forall_mem_nil _
  | e :: es, ⟨h, all⟩ => List.forall_mem_cons.2 ⟨reads blank e h, readsAll blank es all⟩

end

end

end DeltaLang
