import DeltaLang.Proofs.Reading.Operands

/-!
# Reading operators

Seven rules read expressions, each from operands of the next tighter one.  What one of them reads is
read as the same expression by the looser ones, wherever none of their operators follows.
-/

namespace DeltaLang

open Grammar Concrete

/-- How many rules bind tighter than the one that reads the operator. -/
def BinaryOp.level : BinaryOp → Nat
  | mul | div | mod => 0
  | add | sub => 1
  | lt | le | gt | ge => 2
  | eq | ne => 3
  | and => 4
  | or => 5

theorem BinaryOp.level_lt (op : BinaryOp) : op.level < 6 := by cases op <;> decide

/-- Nodes that stand for an operator between operands; some operators leave none. -/
def JointOf (op : BinaryOp) (ts : List Elaborate.Tree) : Prop :=
  if op = .and ∨ op = .or then ts = [] else ∃ r pos xs, ts = [.node r pos op.symbol xs]

namespace Concrete

/-! ## The rules of expressions -/

/-- The rules that read operands of the levels, from the tightest on. -/
def rung : Nat → Rule
  | 0 => .unaryExpr
  | 1 => .mulExpr
  | 2 => .addExpr
  | 3 => .relExpr
  | 4 => .eqExpr
  | 5 => .andExpr
  | _ => .orExpr

/-- What stands between the operands of a level. -/
def joint : Nat → Peg Rule
  | 0 => .rule .mulOp
  | 1 => .rule .addOp
  | 2 => .rule .relOp
  | 3 => .rule .eqOp
  | 4 => .word "&&"
  | _ => .word "||"

/-- The characters that operators of a level start with. -/
def jointStarts : Nat → List Char
  | 0 => ['*', '/', '%']
  | 1 => ['+', '-']
  | 2 => ['<', '>']
  | 3 => ['=', '!']
  | 4 => ['&']
  | _ => ['|']

/-- What follows the first operand of a level: comparisons are not chained. -/
def furtherOperands (n : Nat) : Peg Rule :=
  if n = 2 ∨ n = 3 then .opt (.seq (joint n) (.rule (rung n)))
  else .many (.seq (joint n) (.rule (rung n)))

theorem body_rung {n : Nat} (h : n < 6) :
    body (rung (n + 1)) = .seq (.rule (rung n)) (furtherOperands n) := by
  match n, h with
  | 0, _ | 1, _ | 2, _ | 3, _ | 4, _ | 5, _ => rfl

theorem mode_rung (n : Nat) : mode (rung n) = .normal := by
  unfold rung
  split <;> rfl

section

variable {n : Nat} {op : BinaryOp} {c : Char} {cs rest : List Char}
  {P : List Elaborate.Tree → Prop}

theorem refuses_joint (other : (jointStarts n).contains c = false) :
    grammar.Refuses (joint n) .normal (c :: rest) := by
  have mark {d : Char} {ds : List Char} (mem : d ∈ jointStarts n) :
      grammar.Refuses (.lit (d :: ds)) .normal (c :: rest) := by
    refine refuses_lit_cons fun same => ?_
    rw [same, List.contains_iff_mem.2 mem] at other
    cases other
  match n with
  | 0 => exact Refuses.rule rfl ((mark (by decide)).alt ((mark (by decide)).alt (mark (by decide))))
  | 1 => exact Refuses.rule rfl ((mark (by decide)).alt (mark (by decide)))
  | 2 =>
    exact Refuses.rule rfl ((mark (by decide)).alt ((mark (by decide)).alt
      ((mark (by decide)).alt (mark (by decide)))))
  | 3 => exact Refuses.rule rfl ((mark (by decide)).alt (mark (by decide)))
  | 4 => exact mark (by decide)
  | n + 5 => exact mark (List.mem_singleton.2 rfl)

theorem spells_joint (op : BinaryOp) (next : ∀ c ∈ rest.head?, c ≠ '=') :
    grammar.Spells (joint op.level) .normal op.symbol.toList rest (JointOf op) := by
  have node {r : Rule} (normal : mode r = .normal) (plain : ¬ (op = .and ∨ op = .or))
      (h : grammar.Spells (body r) .normal op.symbol.toList rest Silent) :
      grammar.Spells (.rule r) .normal op.symbol.toList rest (JointOf op) := by
    refine (h.rule_normal normal).imp ?_
    rintro _ ⟨pos, xs, rfl, -⟩
    rw [JointOf, if_neg plain, String.ofList_toList]
    exact ⟨r, pos, xs, rfl⟩
  have word (w : String) : grammar.Spells (.word w) .normal w.toList rest Silent :=
    spells_lit .normal w.toList rest
  have after {w : String} {b : Peg Rule} (other : ¬ w.toList <+: op.symbol.toList ++ rest)
      (h : grammar.Spells b .normal op.symbol.toList rest Silent) :
      grammar.Spells (.alt (.word w) b) .normal op.symbol.toList rest Silent :=
    (refuses_lit other).orElse h
  have noEquals : ¬ ['='] <+: rest := by
    rintro ⟨more, rfl⟩
    exact next '=' rfl rfl
  cases op with
  | mul => exact node rfl (by decide) (word "*").alt
  | div => exact node rfl (by decide) (after (by simp [BinaryOp.symbol]) (word "/").alt)
  | mod =>
    exact node rfl (by decide) (after (by simp [BinaryOp.symbol])
      (after (by simp [BinaryOp.symbol]) (word "%")))
  | add => exact node rfl (by decide) (word "+").alt
  | sub => exact node rfl (by decide) (after (by simp [BinaryOp.symbol]) (word "-"))
  | le => exact node rfl (by decide) (word "<=").alt
  | ge => exact node rfl (by decide) (after (by simp [BinaryOp.symbol]) (word ">=").alt)
  | lt =>
    -- The longer symbols come first: without an equals sign they do not match.
    exact node rfl (by decide) (after (by simpa [BinaryOp.symbol] using noEquals)
      (after (by simp [BinaryOp.symbol]) (word "<").alt))
  | gt =>
    exact node rfl (by decide) (after (by simp [BinaryOp.symbol])
      (after (by simpa [BinaryOp.symbol] using noEquals)
        (after (by simp [BinaryOp.symbol]) (word ">"))))
  | eq => exact node rfl (by decide) (word "==").alt
  | ne => exact node rfl (by decide) (after (by simp [BinaryOp.symbol]) (word "!="))
  | and => exact (word "&&").imp fun ts none => by rwa [JointOf, if_pos (.inl rfl)]
  | or => exact (word "||").imp fun ts none => by rwa [JointOf, if_pos (.inr rfl)]

/-! ## Going up -/

theorem refuses_furtherOperands (stop : grammar.Refuses (joint n) .normal rest) :
    grammar.Spells (furtherOperands n) .normal [] rest Silent := by
  unfold furtherOperands
  split
  · exact stop.cat.opt
  · exact stop.cat.many

/-- One operand more, and no further one. -/
theorem spells_furtherOperands (solid : Place.Solid rest)
    (stop : grammar.Refuses (joint n) .normal rest)
    (once : grammar.Spells (.seq (joint n) (.rule (rung n))) .normal cs rest P) :
    grammar.Spells (furtherOperands n) .normal cs rest P := by
  unfold furtherOperands
  split
  · exact once.opt
  · exact once.many_one ((spells_skip_nil solid).refuses_cat stop.cat)

theorem expr_rung (file : Option String) (h : n < 6) (pos : Position) (text : String)
    (t : Elaborate.Tree) :
    Elaborate.expr file (.node (rung (n + 1)) pos text [t]) = Elaborate.expr file t := by
  match n, h with
  | 0, _ | 1, _ | 2, _ | 3, _ | 4, _ | 5, _ =>
    show (Elaborate.expr file t).bind _ = _
    cases Elaborate.expr file t with
    | error e => rfl
    | ok e => rfl

end

section

variable (file : Option String) {n m : Nat} {gap cs cs' rest : List Char} {e l r : Expr}

/-- An operand and the blanks after it, with no operator behind. -/
theorem spells_rung_succ (gap : List Char) (h : n < 6) (blank : ∀ c ∈ gap, Place.isBlank c = true)
    (solid : Place.Solid rest) (stop : grammar.Refuses (joint n) .normal rest)
    (operand : grammar.Spells (.rule (rung n)) .normal cs (gap ++ rest) (Yields file e)) :
    grammar.Spells (.rule (rung (n + 1))) .normal (cs ++ gap) rest (Yields file e) := by
  have body : grammar.Spells (body (rung (n + 1))) .normal (cs ++ gap) rest (Yields file e) := by
    rw [body_rung h]
    exact Spells.seq_blanks (spells_skip blank solid) operand (refuses_furtherOperands stop)
  refine (body.rule_normal (mode_rung _)).imp fun ts node => node.gives ?_
  rintro pos _ ⟨t, e', rfl, done, same⟩
  exact ⟨e', by rw [expr_rung file h, done], same⟩

theorem spells_rung_of_le (le : n ≤ m) (h : m ≤ 6) (solid : Place.Solid rest)
    (stop : ∀ k, n ≤ k → k < m → grammar.Refuses (joint k) .normal rest)
    (operand : grammar.Spells (.rule (rung n)) .normal cs rest (Yields file e)) :
    grammar.Spells (.rule (rung m)) .normal cs rest (Yields file e) := by
  induction m, le using Nat.le_induction with
  | base => exact operand
  | succ m le ih =>
    have below := ih (by omega) fun k ge less => stop k ge (by omega)
    have above := spells_rung_succ file [] (by omega) (List.forall_mem_nil _) solid
      (stop m le (by omega)) below
    rwa [List.append_nil] at above

/-! ## Operators -/

theorem expr_joined {op : BinaryOp} {ops : List Elaborate.Tree} {t t' : Elaborate.Tree}
    (joined : JointOf op ops) (left : Elaborate.expr file t = .ok l)
    (right : Elaborate.expr file t' = .ok r) (pos : Position) (text : String) :
    Elaborate.expr file (.node (rung (op.level + 1)) pos text (t :: (ops ++ [t']))) =
      .ok (.binary op l r (Elaborate.locate file pos)) := by
  have fold : (do
      let lhs ← Elaborate.expr file t
      let rhs ← Elaborate.expr file t'
      return Expr.binary op lhs rhs (Elaborate.locate file pos)) =
      .ok (.binary op l r (Elaborate.locate file pos)) := by
    rw [left, right]
    rfl
  by_cases implicit : op = .and ∨ op = .or
  · rw [JointOf, if_pos implicit] at joined
    subst joined
    rcases implicit with rfl | rfl <;> exact fold
  · rw [JointOf, if_neg implicit] at joined
    obtain ⟨r', pos', xs, rfl⟩ := joined
    -- The symbol in the tree is the one of the operator, which is found again.
    cases op with
    | and => exact absurd (.inl rfl) implicit
    | or => exact absurd (.inr rfl) implicit
    | _ => exact fold

theorem spells_binary (op : BinaryOp) (loc : Option Location)
    (blank : ∀ c ∈ gap, Place.isBlank c = true) (solid : Place.Solid rest)
    (solidRight : Place.Solid (cs' ++ rest))
    (solidSymbol : Place.Solid (op.symbol.toList ++ (gap ++ (cs' ++ rest))))
    (next : ∀ c ∈ (gap ++ (cs' ++ rest)).head?, c ≠ '=')
    (stop : grammar.Refuses (joint op.level) .normal rest)
    (left : grammar.Spells (.rule (rung op.level)) .normal cs
      (op.symbol.toList ++ (gap ++ cs') ++ rest) (Yields file l))
    (right : grammar.Spells (.rule (rung op.level)) .normal cs' rest (Yields file r)) :
    grammar.Spells (.rule (rung (op.level + 1))) .normal
      (cs ++ (op.symbol.toList ++ (gap ++ cs'))) rest (Yields file (.binary op l r loc)) := by
  have h := op.level_lt
  have once := Spells.seq (spells_skip blank solidRight) (spells_joint op next) right
  have body : grammar.Spells (body (rung (op.level + 1))) .normal
      (cs ++ (op.symbol.toList ++ (gap ++ cs'))) rest
      (Both (Yields file l) (Both (JointOf op) (Yields file r))) := by
    rw [body_rung h]
    refine (Spells.seq (spells_skip_nil ?_) left (spells_furtherOperands solid stop once) :)
    rwa [List.append_assoc, List.append_assoc]
  refine (body.rule_normal (mode_rung _)).imp fun ts node => node.gives ?_
  rintro pos _ ⟨_, _, rfl, ⟨t, l', rfl, doneLeft, sameLeft⟩, ops, _, rfl, joined,
    t', r', rfl, doneRight, sameRight⟩
  refine ⟨_, expr_joined file joined doneLeft doneRight pos _, ?_⟩
  simp only [Expr.unlocated, sameLeft, sameRight]

/-- A symbol in front of an operand. -/
theorem refuses_unaryOp {c : Char} (other : c ≠ '!') (other' : c ≠ '-') :
    grammar.Refuses (.rule .unaryOp) .normal (c :: rest) := by
  exact Refuses.rule rfl ((refuses_lit_cons other).alt (refuses_lit_cons other'))

theorem unary_singleton {t : Elaborate.Tree} {loc : Option Location}
    (h : Elaborate.expr file t = .ok e) : Elaborate.unary file loc [t] = .ok e := by
  obtain ⟨r, pos, text, ts⟩ := t
  by_cases op : r = .unaryOp
  · subst op
    cases h
  · rw [Elaborate.unary, h]
    intro _ _ _ same
    exact op (ParseTree.node.inj same).1

theorem spells_unary (op : UnaryOp) (loc : Option Location)
    (blank : ∀ c ∈ gap, Place.isBlank c = true) (solid : Place.Solid (cs ++ rest))
    (single : grammar.Refuses (.rule .unaryOp) .normal (cs ++ rest))
    (operand : grammar.Spells (.rule .postfixExpr) .normal cs rest (Yields file e)) :
    grammar.Spells (.rule .unaryExpr) .normal (op.symbol.toList ++ (gap ++ cs)) rest
      (Yields file (.unary op e loc)) := by
  have skip : grammar.Spells .skip .normal gap (cs ++ rest) Silent := spells_skip blank solid
  have symbol : grammar.Spells (.choice [.word "!", .word "-"]) .normal op.symbol.toList
      (gap ++ (cs ++ rest)) Silent := by
    cases op with
    | not => exact (spells_lit .normal "!".toList _).alt
    | neg =>
      refine Refuses.orElse (refuses_lit ?_) (spells_lit .normal "-".toList _)
      simp [UnaryOp.symbol]
  have once : grammar.Spells (.many (.rule .unaryOp)) .normal op.symbol.toList
      (gap ++ (cs ++ rest)) (NodeOf .unaryOp op.symbol.toList Silent) :=
    (symbol.rule_normal (r := .unaryOp) rfl).many_one (skip.refuses_cat single)
  have token : grammar.Spells (.rule .unaryExpr) .normal (op.symbol.toList ++ (gap ++ cs)) rest
      (NodeOf .unaryExpr _ (Both (NodeOf .unaryOp op.symbol.toList Silent) (Yields file e))) :=
    (Spells.seq skip once operand).rule_normal rfl
  refine token.imp fun ts node => node.gives ?_
  rintro pos _ ⟨_, _, rfl, ⟨pos', _, rfl, rfl⟩, t, e', rfl, done, same⟩
  refine ⟨.unary op e' (Elaborate.locate file pos), ?_, by simp only [Expr.unlocated, same]⟩
  rw [String.ofList_toList]
  show (do
    let e ← Elaborate.unary file (Elaborate.locate file pos) [t]
    return Expr.unary (if op.symbol == "!" then .not else .neg) e (Elaborate.locate file pos)) = _
  rw [unary_singleton file done]
  cases op <;> rfl

/-- No operator in front of the operand. -/
theorem spells_unaryExpr (solid : Place.Solid (cs ++ rest))
    (plain : grammar.Refuses (.rule .unaryOp) .normal (cs ++ rest))
    (operand : grammar.Spells (.rule .postfixExpr) .normal cs rest (Yields file e)) :
    grammar.Spells (.rule .unaryExpr) .normal cs rest (Yields file e) := by
  have token : grammar.Spells (.rule .unaryExpr) .normal cs rest
      (NodeOf .unaryExpr cs (Yields file e)) :=
    (Spells.seq_then (spells_skip_nil solid) plain.many operand).rule_normal rfl
  refine token.imp fun ts node => node.gives ?_
  rintro pos _ ⟨t, e', rfl, done, same⟩
  exact ⟨e', unary_singleton file done, same⟩

end

end Concrete

end DeltaLang
