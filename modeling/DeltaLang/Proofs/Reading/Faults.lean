import DeltaLang.Proofs.Grammar.Derivations
import DeltaLang.Proofs.Grammar.Tokens
import DeltaLang.Reading.Parse

/-!
# Faults of derived trees

Reading a tree that the grammar derives meets no shape that it does not expect.  If it ends with an
error, then the tree holds what the error is about: a literal that is too large, or a class with a
second init or recover block.
-/

namespace DeltaLang

open Concrete

/-! ## Errors -/

/-- The tree of a source text holds what the error is about. -/
inductive BuildError.Shown (source : List Char) : BuildError → Elaborate.Tree → Prop
  | integerTooLarge {pos : Position} {digits : String} {ts : List Elaborate.Tree}
    {before after : List Char} (written : source = before ++ (digits.toList ++ after))
    (number : ∀ c ∈ digits.toList, isDigit c = true) (large : maxInt < natOfDigits digits.toList) :
    Shown source (.integerTooLarge digits) (.node .intLit pos digits ts)
  | secondInit {pos pos' : Position} {text name : String} {xs ts : List Elaborate.Tree}
    (twice : 2 ≤ ts.countP fun t => t.rule = .initBlock) :
    Shown source (.secondInit name)
      (.node .classDecl pos text (.node .identifier pos' name xs :: ts))
  | secondRecover {pos pos' : Position} {text name : String} {xs ts : List Elaborate.Tree}
    (twice : 2 ≤ ts.countP fun t => t.rule = .recoverBlock) :
    Shown source (.secondRecover name)
      (.node .classDecl pos text (.node .identifier pos' name xs :: ts))
  | within {err : BuildError} {r : Rule} {pos : Position} {text : String} {t : Elaborate.Tree}
    {ts : List Elaborate.Tree} (mem : t ∈ ts) (h : Shown source err t) :
    Shown source err (.node r pos text ts)

/-- No tree of an unexpected shape is told of. -/
theorem BuildError.Shown.ne_malformed {source : List Char} {err : BuildError} {t : Elaborate.Tree}
    (h : err.Shown source t) : err ≠ .malformed := by
  induction h with
  | integerTooLarge | secondInit | secondRecover => exact BuildError.noConfusion
  | within _ _ ih => exact ih

/-- One of the trees holds what the error is about. -/
def BuildError.ShownAmong (source : List Char) (ts : List Elaborate.Tree) (err : BuildError) :
    Prop := ∃ t ∈ ts, err.Shown source t

/-- If it is an error, it is as `B` says. -/
def Blames {α : Type} (x : Except BuildError α) (B : BuildError → Prop) : Prop :=
  ∀ err, x = .error err → B err

section

variable {α β : Type} {x : Except BuildError α} {f : α → Except BuildError β}
  {B B' : BuildError → Prop}

theorem blames_ok (a : α) : Blames (.ok a) B := by
  intro err failed
  cases failed

theorem Blames.imp (h : Blames x B) (weaker : ∀ err, B err → B' err) : Blames x B' :=
  fun err failed => weaker err (h err failed)

theorem Blames.bind_of_ok (h : Blames x B) (more : ∀ a, x = .ok a → Blames (f a) B) :
    Blames (x >>= f) B := by
  intro err failed
  cases x with
  | error =>
    cases failed
    exact h _ rfl
  | ok a => exact more a rfl err failed

theorem Blames.bind (h : Blames x B) (more : ∀ a, Blames (f a) B) : Blames (x >>= f) B :=
  h.bind_of_ok fun a _ => more a

theorem blames_mapM {f : β → Except BuildError α} {bs : List β} (each : ∀ b ∈ bs, Blames (f b) B) :
    Blames (bs.mapM f) B := by
  induction bs with
  | nil => exact blames_ok []
  | cons b bs ih =>
    rw [List.mapM_cons]
    rw [List.forall_mem_cons] at each
    exact each.1.bind fun a => (ih each.2).bind fun as => blames_ok (a :: as)

theorem blames_filterMapM {f : β → Except BuildError (Option α)} {bs : List β}
    (each : ∀ b ∈ bs, Blames (f b) B) : Blames (bs.filterMapM f) B := by
  induction bs with
  | nil => exact blames_ok []
  | cons b bs ih =>
    rw [List.filterMapM_cons]
    rw [List.forall_mem_cons] at each
    refine each.1.bind fun found => ?_
    cases found with
    | none => exact ih each.2
    | some a => exact (ih each.2).bind fun as => blames_ok (a :: as)

theorem blames_foldlM {f : α → β → Except BuildError α} {bs : List β}
    (each : ∀ b ∈ bs, ∀ a, Blames (f a b) B) (a : α) : Blames (bs.foldlM f a) B := by
  induction bs generalizing a with
  | nil => exact blames_ok a
  | cons b bs ih =>
    rw [List.foldlM_cons]
    rw [List.forall_mem_cons] at each
    exact (each.1 a).bind (ih each.2)

end

/-- An induction over a tree with what holds of all nodes within. -/
theorem ParseTree.induction {ρ : Type} {P : ParseTree ρ → Prop}
    (node : ∀ r pos text ts, (∀ t ∈ ts, P t) → P (.node r pos text ts)) : ∀ t, P t
  | .node r pos text ts => node r pos text ts fun t _ => ParseTree.induction node t

section

variable {α : Type} {x : Except BuildError α} {source : List Char} {t : Elaborate.Tree}
  {ts : List Elaborate.Tree} {r : Rule} {pos : Position} {text : String}

theorem Blames.among (h : Blames x fun err => err.Shown source t) (mem : t ∈ ts) :
    Blames x (BuildError.ShownAmong source ts) := h.imp fun _ shown => ⟨t, mem, shown⟩

theorem Blames.mono {ts' : List Elaborate.Tree} (h : Blames x (BuildError.ShownAmong source ts))
    (part : ts ⊆ ts') : Blames x (BuildError.ShownAmong source ts') :=
  h.imp fun _ ⟨t, mem, shown⟩ => ⟨t, part mem, shown⟩

theorem Blames.within (h : Blames x (BuildError.ShownAmong source ts)) :
    Blames x fun err => err.Shown source (.node r pos text ts) :=
  h.imp fun _ ⟨_, mem, shown⟩ => .within mem shown

/-- A tree that the grammar derives from a piece of the source text. -/
abbrev Derived (source : List Char) (t : Elaborate.Tree) : Prop :=
  grammar.Derives ⟨.start, source⟩ t

theorem Derived.forall_mem (h : Derived source (.node r pos text ts)) :
    ∀ t ∈ ts, Derived source t := by
  cases h with
  | leaf => exact fun _ mem => absurd mem List.not_mem_nil
  | node _ _ _ within => exact fun t mem => (within.forall_mem t mem).2

theorem Derived.exists_fits (h : Derived source t) (is : t.rule = r) (proper : mode r ≠ .atomic) :
    ∃ pos text ts, t = .node r pos text ts ∧ (body r).Fits (Derived source) ts := by
  obtain ⟨r', pos, text, ts⟩ := t
  obtain rfl : r' = r := is
  exact ⟨pos, text, ts, rfl, h.fits proper⟩

end

namespace Elaborate

variable {source : List Char} {file : Option String} {t : Tree} {ts : List Tree}
  {B : BuildError → Prop}

/-! ## Types and signatures -/

theorem blames_typeParts
    (each : ∀ t ∈ ts, t.rule ∈ [.bracketed, .qualifiedName, .typeUse] ∧ Derived source t)
    (args : ∀ t ∈ ts, t.rule = .typeUse → Blames (typeUse t) B) (type : TypeUse) :
    Blames (typeParts type ts) B := by
  induction ts generalizing type with
  | nil =>
    rw [typeParts]
    exact blames_ok type
  | cons t ts ih =>
    rw [List.forall_mem_cons] at each args
    obtain ⟨⟨is, derived⟩, each⟩ := each
    have rest (type : TypeUse) : Blames (typeParts type ts) B := ih each args.2 type
    simp only [List.mem_cons, List.not_mem_nil, or_false] at is
    rcases is with is | is | is
    · obtain ⟨pos, text, xs, rfl, fits⟩ := derived.exists_fits is (by decide)
      obtain ⟨pos', a, ys, rfl, -⟩ := fits.of_word_seq.of_seq_word.of_rule
      rw [typeParts]
      exact rest _
    · obtain ⟨r, pos, text, xs⟩ := t
      obtain rfl : r = .qualifiedName := is
      rw [typeParts]
      exact rest _
    · obtain ⟨r, pos, text, xs⟩ := t
      obtain rfl : r = .typeUse := is
      rw [typeParts]
      · exact (args.1 rfl).bind fun arg => rest _
      · simp
      · simp

/-- Reading a type does not fail. -/
theorem blames_typeUse (derived : Derived source t) (is : t.rule = .typeUse) :
    Blames (typeUse t) B := by
  induction t using ParseTree.induction with
  | node r pos text ts ih =>
    obtain rfl : r = .typeUse := is
    have each := (Grammar.Derives.fits derived (by decide)).forall_mem_of
      [.bracketed, .qualifiedName, .typeUse] (by decide)
    rw [typeUse]
    exact blames_typeParts each (fun t mem is => ih t mem (each t mem).2 is) _

theorem blames_param (derived : Derived source t) (is : t.rule = .param) :
    Blames (param file t) B := by
  obtain ⟨pos, text, ts, rfl, fits⟩ := derived.exists_fits is (by decide)
  obtain ⟨pos₁, text₁, xs, _, rfl, type, fits⟩ := fits.of_rule_seq
  obtain ⟨pos₂, name, ys, rfl, -⟩ := fits.of_rule
  exact (blames_typeUse type rfl).bind fun u => blames_ok _

theorem blames_signature (derived : Derived source t) (is : t.rule = .methodSig) :
    Blames (signature file t) B := by
  obtain ⟨pos, text, ts, rfl, fits⟩ := derived.exists_fits is (by decide)
  obtain ⟨pos₁, text₁, xs, _, rfl, type, fits⟩ := fits.of_rule_seq
  obtain ⟨pos₂, name, ys, ps, rfl, -, fits⟩ := fits.of_rule_seq
  have params (t : Tree) (mem : t ∈ ps) : Blames (param file t) B := by
    obtain ⟨is, derived⟩ := fits.forall_rule_eq (r := .param) (by decide) t mem
    exact blames_param derived is
  exact (blames_typeUse type rfl).bind fun u => (blames_mapM params).bind fun ps => blames_ok _

/-! ## Texts of tokens -/

section

variable {r : Rule} {pos : Position} {text : String}

theorem Derived.text_mem {ws : List String} (h : Derived source (.node r pos text ts))
    (words : Concrete.body r = .choice (ws.map .word)) : text ∈ ws := by
  obtain ⟨mode, p, q, -, ⟨depth, seen, nodes, seen', matched⟩, rfl⟩ := h.exists_matches
  rw [show grammar.body r = .choice (ws.map .word) from words] at matched
  obtain refused | ⟨w, mem, rest, split, spells⟩ :=
    Grammar.words_cases (g := grammar) ws mode p.rest
  · obtain ⟨depth', seen₁, failed⟩ := refused p rfl seen
    have same := (Grammar.match?_of_le matched (le_max_left depth depth')).symm.trans
      (Grammar.match?_of_le failed (le_max_right depth depth'))
    cases same
  · obtain ⟨depth', q', nodes', seen₁, found, reads, -⟩ := spells p split seen
    have same := (Grammar.match?_of_le matched (le_max_left depth depth')).symm.trans
      (Grammar.match?_of_le found (le_max_right depth depth'))
    cases same
    rwa [reads.textUntil, String.ofList_toList]

theorem Derived.exists_digits (h : Derived source (.node .intLit pos text ts)) :
    ∃ before after, source = before ++ (text.toList ++ after) ∧
      ∀ c ∈ text.toList, isDigit c = true := by
  obtain ⟨mode, p, q, ⟨before, reached⟩, matched, rfl⟩ := h.exists_matches
  obtain ⟨p', first, more⟩ := Grammar.Matches.cat matched
  obtain ⟨c, digit, reads⟩ := first.one
  obtain ⟨cs, digits, reads'⟩ := more.span
  have whole := reads.trans reads'
  rw [whole.textUntil, String.toList_ofList]
  exact ⟨before, q.rest, by rw [← whole.rest]; exact reached.rest,
    List.forall_mem_cons.2 ⟨digit, digits⟩⟩

end

/-! ## Expressions -/

/-- The rules whose nodes are read as expressions. -/
def exprRules : List Rule :=
  [.orExpr, .andExpr, .eqExpr, .relExpr, .addExpr, .mulExpr, .unaryExpr, .postfixExpr, .newExpr,
    .originalCall, .thisField, .thisExpr, .boolLit, .nullLit, .varRef, .intLit, .stringLit]

section

variable {loc : Option Location}

theorem blames_exprs (each : ∀ t ∈ ts, Blames (expr file t) B) : Blames (exprs file ts) B := by
  induction ts with
  | nil =>
    rw [exprs]
    exact blames_ok []
  | cons t ts ih =>
    rw [List.forall_mem_cons] at each
    rw [exprs]
    exact each.1.bind fun e => (ih each.2).bind fun es => blames_ok _

theorem blames_sameOperator (op : BinaryOp) (each : ∀ t ∈ ts, Blames (expr file t) B)
    (lhs : Expr) : Blames (sameOperator file op loc lhs ts) B := by
  induction ts generalizing lhs with
  | nil =>
    rw [sameOperator]
    exact blames_ok lhs
  | cons t ts ih =>
    rw [List.forall_mem_cons] at each
    rw [sameOperator]
    exact each.1.bind fun e => ih each.2 _

/-- Operators, each with an operand behind it. -/
inductive Paired (isOperand : Tree → Prop) : List Tree → Prop
  | nil : Paired isOperand []
  | cons {r : Rule} {pos : Position} {symbol : String} {op : BinaryOp} {xs ts : List Tree}
    {t : Tree} (found : BinaryOp.ofSymbol? symbol = some op) (operand : isOperand t)
    (more : Paired isOperand ts) : Paired isOperand (.node r pos symbol xs :: t :: ts)

theorem blames_operators (paired : Paired (fun t => Blames (expr file t) B) ts) (lhs : Expr) :
    Blames (operators file loc lhs ts) B := by
  induction paired generalizing lhs with
  | nil =>
    rw [operators]
    exact blames_ok lhs
  | cons found operand _ ih =>
    rw [operators]
    simp only [found]
    exact operand.bind fun e => ih _

theorem blames_unary {ops : List Tree} (each : ∀ t ∈ ops, t.rule = .unaryOp)
    (notOp : t.rule ≠ .unaryOp) (operand : Blames (expr file t) B) :
    Blames (unary file loc (ops ++ [t])) B := by
  induction ops with
  | nil =>
    obtain ⟨r, pos, text, xs⟩ := t
    rw [List.nil_append, unary]
    · exact operand
    · rintro _ _ _ same
      cases same
      exact absurd rfl notOp
  | cons op ops ih =>
    obtain ⟨r, pos, text, xs⟩ := op
    rw [List.forall_mem_cons] at each
    obtain rfl : r = .unaryOp := each.1
    rw [List.cons_append, unary]
    exact (ih each.2).bind fun e => blames_ok _

theorem blames_suffixes (each : ∀ t ∈ ts, t.rule ∈ [.syncCall, .asyncCall, .getSuffix] ∧
      Derived source t)
    (args : ∀ t ∈ ts, t.rule = .syncCall ∨ t.rule = .asyncCall →
      Blames (exprs file t.children.tail) B) (e : Expr) :
    Blames (suffixes file e ts) B := by
  induction ts generalizing e with
  | nil =>
    rw [suffixes]
    exact blames_ok e
  | cons t ts ih =>
    rw [List.forall_mem_cons] at each args
    obtain ⟨⟨is, derived⟩, each⟩ := each
    have rest (e : Expr) : Blames (suffixes file e ts) B := ih each args.2 e
    simp only [List.mem_cons, List.not_mem_nil, or_false] at is
    rcases is with is | is | is
    · obtain ⟨pos, text, xs, rfl, fits⟩ := derived.exists_fits is (by decide)
      obtain ⟨pos', name, ys, as, rfl, -⟩ := fits.of_word_seq.of_rule_seq
      rw [suffixes]
      exact (args.1 (.inl rfl)).bind fun es => rest _
    · obtain ⟨pos, text, xs, rfl, fits⟩ := derived.exists_fits is (by decide)
      obtain ⟨pos', name, ys, as, rfl, -⟩ := fits.of_word_seq.of_rule_seq
      rw [suffixes]
      exact (args.1 (.inr rfl)).bind fun es => rest _
    · obtain ⟨r, pos, text, xs⟩ := t
      obtain rfl : r = .getSuffix := is
      rw [suffixes]
      exact rest _

/-- Pairs of an operator with one of these texts and of an operand. -/
theorem Paired.append {o r : Rule} {ws : List String} {isOperand : Tree → Prop} {xs : List Tree}
    (words : Concrete.body o = .choice (ws.map .word))
    (known : ∀ w ∈ ws, (BinaryOp.ofSymbol? w).isSome = true)
    (h : Peg.Fits (Derived source) (.seq (.rule o) (.rule r)) xs)
    (operand : ∀ t ∈ xs, t.rule = r → isOperand t) (more : Paired isOperand ts) :
    Paired isOperand (xs ++ ts) := by
  obtain ⟨pos, symbol, ys, _, rfl, operator, h⟩ := h.of_rule_seq
  obtain ⟨pos', text, zs, rfl, -⟩ := h.of_rule
  obtain ⟨op, found⟩ := Option.isSome_iff_exists.1 (known symbol (Derived.text_mem operator words))
  exact .cons found (operand _ (by simp) rfl) more

theorem paired_opt {o r : Rule} (ws : List String) {isOperand : Tree → Prop}
    (words : Concrete.body o = .choice (ws.map .word))
    (known : ∀ w ∈ ws, (BinaryOp.ofSymbol? w).isSome = true)
    (h : Peg.Fits (Derived source) (.opt (.seq (.rule o) (.rule r))) ts)
    (operand : ∀ t ∈ ts, t.rule = r → isOperand t) : Paired isOperand ts := by
  rcases h.of_opt with rfl | h
  · exact .nil
  · rw [← List.append_nil ts]
    exact .append words known h operand .nil

theorem paired_many {o r : Rule} (ws : List String) {isOperand : Tree → Prop}
    (words : Concrete.body o = .choice (ws.map .word))
    (known : ∀ w ∈ ws, (BinaryOp.ofSymbol? w).isSome = true)
    (h : Peg.Fits (Derived source) (.many (.seq (.rule o) (.rule r))) ts)
    (operand : ∀ t ∈ ts, t.rule = r → isOperand t) : Paired isOperand ts := by
  revert operand
  refine h.many_induction
    (motive := fun ts => (∀ t ∈ ts, t.rule = r → isOperand t) → Paired isOperand ts)
    (fun _ => .nil) fun xs ys first ih operand => ?_
  rw [List.forall_mem_append] at operand
  exact .append words known first operand.1 (ih operand.2)

theorem blames_intLiteral {digits : String} {B : BuildError → Prop}
    (large : maxInt < natOfDigits digits.toList → B (.integerTooLarge digits)) :
    Blames (intLiteral digits) B := by
  unfold intLiteral
  dsimp only
  split
  · exact blames_ok _
  · rename_i above
    intro err failed
    cases failed
    exact large (Int.not_le.1 above)

/-- Nodes of which expressions are read, and the arguments of calls. -/
def ReadWithin (source : List Char) (file : Option String) (ts : List Tree) : Prop :=
  ∀ t ∈ ts, (t.rule ∈ exprRules → Blames (expr file t) (BuildError.ShownAmong source ts)) ∧
    (t.rule = .syncCall ∨ t.rule = .asyncCall →
      Blames (exprs file t.children.tail) (BuildError.ShownAmong source ts))

section

variable {r : Rule} {pos : Position} {text : String} (h : ReadWithin source file ts)

include h

theorem ReadWithin.operand {pos' : Position} {text' : String} {xs : List Tree}
    (mem : .node r pos' text' xs ∈ ts) (is : r ∈ exprRules) :
    Blames (expr file (.node r pos' text' xs)) (BuildError.ShownAmong source ts) :=
  (h _ mem).1 is

theorem ReadWithin.operands {e : Peg Rule} {xs : List Tree} (fits : e.Fits (Derived source) xs)
    (part : xs ⊆ ts) (only : ∀ r ∈ e.rules, r ∈ exprRules) :
    ∀ t ∈ xs, Blames (expr file t) (BuildError.ShownAmong source ts) :=
  fun t mem => (h t (part mem)).1 (fits.forall_mem_of exprRules only t mem).1

theorem blames_orExpr (fits : (Concrete.body .orExpr).Fits (Derived source) ts) :
    Blames (expr file (.node .orExpr pos text ts)) (BuildError.ShownAmong source ts) := by
  obtain ⟨pos', text', xs, ys, rfl, -, more⟩ := fits.of_rule_seq
  show Blames (do sameOperator file .or (locate file pos) (← expr file _) ys) _
  exact (h.operand (by simp) (by decide)).bind
    (blames_sameOperator .or (h.operands more (by simp) (by decide)))

theorem blames_andExpr (fits : (Concrete.body .andExpr).Fits (Derived source) ts) :
    Blames (expr file (.node .andExpr pos text ts)) (BuildError.ShownAmong source ts) := by
  obtain ⟨pos', text', xs, ys, rfl, -, more⟩ := fits.of_rule_seq
  show Blames (do sameOperator file .and (locate file pos) (← expr file _) ys) _
  exact (h.operand (by simp) (by decide)).bind
    (blames_sameOperator .and (h.operands more (by simp) (by decide)))

theorem blames_eqExpr (fits : (Concrete.body .eqExpr).Fits (Derived source) ts) :
    Blames (expr file (.node .eqExpr pos text ts)) (BuildError.ShownAmong source ts) := by
  obtain ⟨pos', text', xs, ys, rfl, -, more⟩ := fits.of_rule_seq
  have pairs := paired_opt ["==", "!="] rfl (by decide) more fun t mem is =>
    (h t (List.mem_cons_of_mem _ mem)).1 (by rw [is]; decide)
  show Blames (do operators file (locate file pos) (← expr file _) ys) _
  exact (h.operand (by simp) (by decide)).bind (blames_operators pairs)

theorem blames_relExpr (fits : (Concrete.body .relExpr).Fits (Derived source) ts) :
    Blames (expr file (.node .relExpr pos text ts)) (BuildError.ShownAmong source ts) := by
  obtain ⟨pos', text', xs, ys, rfl, -, more⟩ := fits.of_rule_seq
  have pairs := paired_opt ["<=", ">=", "<", ">"] rfl (by decide) more fun t mem is =>
    (h t (List.mem_cons_of_mem _ mem)).1 (by rw [is]; decide)
  show Blames (do operators file (locate file pos) (← expr file _) ys) _
  exact (h.operand (by simp) (by decide)).bind (blames_operators pairs)

theorem blames_addExpr (fits : (Concrete.body .addExpr).Fits (Derived source) ts) :
    Blames (expr file (.node .addExpr pos text ts)) (BuildError.ShownAmong source ts) := by
  obtain ⟨pos', text', xs, ys, rfl, -, more⟩ := fits.of_rule_seq
  have pairs := paired_many ["+", "-"] rfl (by decide) more fun t mem is =>
    (h t (List.mem_cons_of_mem _ mem)).1 (by rw [is]; decide)
  show Blames (do operators file (locate file pos) (← expr file _) ys) _
  exact (h.operand (by simp) (by decide)).bind (blames_operators pairs)

theorem blames_mulExpr (fits : (Concrete.body .mulExpr).Fits (Derived source) ts) :
    Blames (expr file (.node .mulExpr pos text ts)) (BuildError.ShownAmong source ts) := by
  obtain ⟨pos', text', xs, ys, rfl, -, more⟩ := fits.of_rule_seq
  have pairs := paired_many ["*", "/", "%"] rfl (by decide) more fun t mem is =>
    (h t (List.mem_cons_of_mem _ mem)).1 (by rw [is]; decide)
  show Blames (do operators file (locate file pos) (← expr file _) ys) _
  exact (h.operand (by simp) (by decide)).bind (blames_operators pairs)

theorem blames_unaryExpr (fits : (Concrete.body .unaryExpr).Fits (Derived source) ts) :
    Blames (expr file (.node .unaryExpr pos text ts)) (BuildError.ShownAmong source ts) := by
  obtain ⟨ops, _, rfl, first, last⟩ := fits.of_seq
  obtain ⟨pos', text', xs, rfl, -⟩ := last.of_rule
  show Blames (unary file (locate file pos) _) _
  exact blames_unary (fun t mem => (first.forall_rule_eq (r := .unaryOp) (by decide) t mem).1)
    (by simp [ParseTree.rule]) (h.operand (by simp) (by decide))

theorem blames_postfixExpr (fits : (Concrete.body .postfixExpr).Fits (Derived source) ts) :
    Blames (expr file (.node .postfixExpr pos text ts)) (BuildError.ShownAmong source ts) := by
  obtain ⟨xs, ys, rfl, first, more⟩ := fits.of_seq
  obtain ⟨t, rfl⟩ := first.exists_eq_singleton (by decide)
  have is := (first.forall_mem_of exprRules (by decide) t (by simp)).1
  have calls := more.forall_mem_of [.syncCall, .asyncCall, .getSuffix] (by decide)
  rw [List.singleton_append] at h ⊢
  show Blames (do suffixes file (← expr file t) ys) _
  exact ((h t (by simp)).1 is).bind
    (blames_suffixes calls fun c mem => (h c (List.mem_cons_of_mem t mem)).2)

theorem blames_newExpr (fits : (Concrete.body .newExpr).Fits (Derived source) ts) :
    Blames (expr file (.node .newExpr pos text ts)) (BuildError.ShownAmong source ts) := by
  obtain ⟨xs, _, rfl, isLocal, fits⟩ := fits.of_word_seq.of_seq
  obtain ⟨pos₁, cls, zs, as, rfl, -, args⟩ := fits.of_rule_seq
  have each := h.operands args (by simp) (by decide)
  rcases isLocal.of_opt with rfl | isLocal
  · rw [List.nil_append] at each ⊢
    show Blames (do return Expr.new cls (← exprs file as) false (locate file pos)) _
    exact (blames_exprs each).bind fun es => blames_ok _
  · obtain ⟨pos₂, text₂, us, rfl, -⟩ := isLocal.of_rule
    rw [List.singleton_append] at each ⊢
    show Blames (do return Expr.new cls (← exprs file as) true (locate file pos)) _
    exact (blames_exprs each).bind fun es => blames_ok _

theorem blames_originalCall (fits : (Concrete.body .originalCall).Fits (Derived source) ts) :
    Blames (expr file (.node .originalCall pos text ts)) (BuildError.ShownAmong source ts) := by
  show Blames (do return Expr.original (← exprs file ts) (locate file pos)) _
  exact (blames_exprs (h.operands fits (List.Subset.refl ts) (by decide))).bind
    fun es => blames_ok _

omit h in
theorem blames_thisField (fits : (Concrete.body .thisField).Fits (Derived source) ts) :
    Blames (expr file (.node .thisField pos text ts)) B := by
  obtain ⟨pos', name, xs, ys, rfl, -, fits⟩ := fits.of_word_seq.of_word_seq.of_rule_seq
  obtain rfl := fits.eq_nil rfl
  exact blames_ok (Expr.field name (locate file pos))

omit h in
theorem blames_varRef (fits : (Concrete.body .varRef).Fits (Derived source) ts) :
    Blames (expr file (.node .varRef pos text ts)) B := by
  obtain ⟨pos', name, xs, rfl, -⟩ := fits.of_rule
  exact blames_ok (Expr.var name (locate file pos))

omit h in
theorem blames_stringLit (fits : (Concrete.body .stringLit).Fits (Derived source) ts) :
    Blames (expr file (.node .stringLit pos text ts)) B := by
  obtain ⟨pos', inner, xs, rfl, -⟩ := fits.of_word_seq.of_seq_word.of_rule
  exact blames_ok (Expr.str inner (locate file pos))

omit h in
theorem blames_intLit (derived : Derived source (.node .intLit pos text ts)) :
    Blames (expr file (.node .intLit pos text ts))
      fun err => err.Shown source (.node .intLit pos text ts) := by
  obtain ⟨before, after, written, number⟩ := Derived.exists_digits derived
  show Blames (do return Expr.int (← intLiteral text) (locate file pos)) _
  exact (blames_intLiteral fun large => .integerTooLarge written number large).bind
    fun n => blames_ok _

end

/-- An expression is read as such, and so are the arguments of a call. -/
theorem blames_expr_and_args (derived : Derived source t) :
    (t.rule ∈ exprRules → Blames (expr file t) fun err => err.Shown source t) ∧
      (t.rule = .syncCall ∨ t.rule = .asyncCall →
        Blames (exprs file t.children.tail) fun err => err.Shown source t) := by
  induction t using ParseTree.induction with
  | node r pos text ts ih =>
    have h : ReadWithin source file ts := fun t mem =>
      have good := ih t mem (Derived.forall_mem derived t mem)
      ⟨fun is => (good.1 is).among mem, fun is => (good.2 is).among mem⟩
    refine ⟨fun is => ?_, fun is => ?_⟩
    · simp only [exprRules, ParseTree.rule, List.mem_cons, List.not_mem_nil, or_false] at is
      rcases is with rfl | rfl | rfl | rfl | rfl | rfl | rfl | rfl | rfl | rfl | rfl | rfl | rfl |
        rfl | rfl | rfl | rfl
      · exact (blames_orExpr h (derived.fits (by decide))).within
      · exact (blames_andExpr h (derived.fits (by decide))).within
      · exact (blames_eqExpr h (derived.fits (by decide))).within
      · exact (blames_relExpr h (derived.fits (by decide))).within
      · exact (blames_addExpr h (derived.fits (by decide))).within
      · exact (blames_mulExpr h (derived.fits (by decide))).within
      · exact (blames_unaryExpr h (derived.fits (by decide))).within
      · exact (blames_postfixExpr h (derived.fits (by decide))).within
      · exact (blames_newExpr h (derived.fits (by decide))).within
      · exact (blames_originalCall h (derived.fits (by decide))).within
      · exact blames_thisField (derived.fits (by decide))
      · exact blames_ok (Expr.this (locate file pos))
      · exact blames_ok (Expr.bool (text == "true") (locate file pos))
      · exact blames_ok (Expr.null (locate file pos))
      · exact blames_varRef (derived.fits (by decide))
      · exact blames_intLit derived
      · exact blames_stringLit (derived.fits (by decide))
    · -- The arguments stand behind the name of the method.
      have args {mark : String}
          (fits : Peg.Fits (Derived source) (.sequence [.word mark, .rule .identifier, .word "(",
            .opt args, .word ")"]) ts) :
          Blames (exprs file ts.tail) (BuildError.ShownAmong source ts) := by
        obtain ⟨pos', name, xs, ys, rfl, -, fits⟩ := fits.of_word_seq.of_rule_seq
        exact blames_exprs (h.operands fits (by simp) (by decide))
      rcases is with is | is
      · obtain rfl : r = .syncCall := is
        exact (args (derived.fits (by decide))).within
      · obtain rfl : r = .asyncCall := is
        exact (args (derived.fits (by decide))).within

theorem blames_expr (derived : Derived source t) (is : t.rule = .orExpr) :
    Blames (expr file t) fun err => err.Shown source t :=
  (blames_expr_and_args derived).1 (by rw [is]; decide)

end

end Elaborate

end DeltaLang
