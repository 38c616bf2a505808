import DeltaLang.Proofs.Reading.Faults

/-!
# Reading what the grammar accepts

A text that the grammar accepts is read, or it holds a literal that is too large or a class with a
second init or recover block.  Any other error is at a position of the text.
-/

namespace DeltaLang

open Concrete

namespace Elaborate

variable {source : List Char} {file : Option String} {t : Tree} {ts : List Tree}

/-! ## Statements -/

section

variable {pos : Position} {text : String}

theorem blames_value? (fits : Peg.Fits (Derived source) (.opt initialValue) ts) :
    Blames (value? file ts) (BuildError.ShownAmong source ts) := by
  rcases fits.of_opt with rfl | fits
  · exact blames_ok none
  · obtain ⟨pos, text, xs, rfl, derived⟩ := fits.of_word_seq.of_rule
    exact ((blames_expr derived rfl).among (by simp)).bind fun e => blames_ok _

theorem blames_target
    (fits : Peg.Fits (Derived source) (.choice [.rule .thisField, .rule .varRef]) ts)
    (mem : t ∈ ts) {B : BuildError → Prop} : Blames (target t) B := by
  have ⟨is, derived⟩ := fits.forall_mem_of [.thisField, .varRef] (by decide) t mem
  simp only [List.mem_cons, List.not_mem_nil, or_false] at is
  rcases is with is | is
  · obtain ⟨pos, text, xs, rfl, fits⟩ := derived.exists_fits is (by decide)
    obtain ⟨pos', name, ys, zs, rfl, -, fits⟩ := fits.of_word_seq.of_word_seq.of_rule_seq
    obtain rfl := fits.eq_nil rfl
    exact blames_ok _
  · obtain ⟨pos, text, xs, rfl, fits⟩ := derived.exists_fits is (by decide)
    obtain ⟨pos', name, ys, rfl, -⟩ := fits.of_rule
    exact blames_ok _

theorem blames_stmts {B : BuildError → Prop} (each : ∀ t ∈ ts, Blames (stmt file t) B) :
    Blames (stmts file ts) B := by
  induction ts with
  | nil =>
    rw [stmts]
    exact blames_ok []
  | cons t ts ih =>
    rw [List.forall_mem_cons] at each
    rw [stmts]
    exact each.1.bind fun s => (ih each.2).bind fun ss => blames_ok _

/-- The rules whose nodes are read as statements. -/
def stmtRules : List Rule :=
  [.varDecl, .assignStmt, .exprStmt, .returnStmt, .skipStmt, .ifStmt, .whileStmt]

section

variable (blocks : ∀ t ∈ ts, t.rule = .block →
  Blames (block file t) (BuildError.ShownAmong source ts))

theorem blames_varDecl (fits : (body .varDecl).Fits (Derived source) ts) :
    Blames (stmt file (.node .varDecl pos text ts)) (BuildError.ShownAmong source ts) := by
  obtain ⟨pos₁, text₁, xs, _, rfl, type, fits⟩ := fits.of_rule_seq
  obtain ⟨pos₂, name, ys, vs, rfl, -, fits⟩ := fits.of_rule_seq
  rw [stmt]
  exact (blames_typeUse type rfl).bind fun u =>
    ((blames_value? fits.of_seq_word).mono (by simp)).bind fun v => blames_ok _

theorem blames_assignStmt (fits : (body .assignStmt).Fits (Derived source) ts) :
    Blames (stmt file (.node .assignStmt pos text ts)) (BuildError.ShownAmong source ts) := by
  obtain ⟨xs, _, rfl, first, behind⟩ := fits.of_seq
  obtain ⟨t, rfl⟩ := first.exists_eq_singleton (by decide)
  obtain ⟨pos₁, text₁, ys, rfl, value⟩ := behind.of_word_seq.of_seq_word.of_rule
  rw [List.singleton_append, stmt]
  exact (blames_target first (by simp)).bind fun tgt =>
    ((blames_expr value rfl).among (by simp)).bind fun v => blames_ok _

theorem blames_exprStmt (fits : (body .exprStmt).Fits (Derived source) ts) :
    Blames (stmt file (.node .exprStmt pos text ts)) (BuildError.ShownAmong source ts) := by
  obtain ⟨pos₁, text₁, xs, rfl, value⟩ := fits.of_seq_word.of_rule
  rw [stmt]
  exact ((blames_expr value rfl).among (by simp)).bind fun v => blames_ok _

theorem blames_returnStmt (fits : (body .returnStmt).Fits (Derived source) ts) :
    Blames (stmt file (.node .returnStmt pos text ts)) (BuildError.ShownAmong source ts) := by
  obtain ⟨pos₁, text₁, xs, rfl, value⟩ := fits.of_word_seq.of_seq_word.of_rule
  rw [stmt]
  exact ((blames_expr value rfl).among (by simp)).bind fun v => blames_ok _

include blocks

theorem blames_ifStmt (fits : (body .ifStmt).Fits (Derived source) ts) :
    Blames (stmt file (.node .ifStmt pos text ts)) (BuildError.ShownAmong source ts) := by
  obtain ⟨pos₁, text₁, xs, _, rfl, cond, fits⟩ := fits.of_word_seq.of_word_seq.of_rule_seq
  obtain ⟨pos₂, text₂, ys, _, rfl, -, fits⟩ := fits.of_word_seq.of_rule_seq
  rcases fits.of_opt with rfl | fits
  · rw [stmt]
    exact ((blames_expr cond rfl).among (by simp)).bind fun c =>
      (blocks _ (by simp) rfl).bind fun yes => blames_ok _
  · obtain ⟨pos₃, text₃, zs, rfl, -⟩ := fits.of_word_seq.of_rule
    rw [stmt]
    exact ((blames_expr cond rfl).among (by simp)).bind fun c =>
      (blocks _ (by simp) rfl).bind fun yes => (blocks _ (by simp) rfl).bind fun no => blames_ok _

theorem blames_whileStmt (fits : (body .whileStmt).Fits (Derived source) ts) :
    Blames (stmt file (.node .whileStmt pos text ts)) (BuildError.ShownAmong source ts) := by
  obtain ⟨pos₁, text₁, xs, _, rfl, cond, fits⟩ := fits.of_word_seq.of_word_seq.of_rule_seq
  obtain ⟨pos₂, text₂, ys, rfl, -⟩ := fits.of_word_seq.of_rule
  rw [stmt]
  exact ((blames_expr cond rfl).among (by simp)).bind fun c =>
    (blocks _ (by simp) rfl).bind fun b => blames_ok _

end

theorem blames_stmt_and_block (derived : Derived source t) :
    (t.rule ∈ stmtRules → Blames (stmt file t) fun err => err.Shown source t) ∧
      (t.rule = .block → Blames (block file t) fun err => err.Shown source t) := by
  induction t using ParseTree.induction with
  | node r pos text ts ih =>
    have good (t : Tree) (mem : t ∈ ts) := ih t mem (Derived.forall_mem derived t mem)
    have blocks (t : Tree) (mem : t ∈ ts) (is : t.rule = .block) :
        Blames (block file t) (BuildError.ShownAmong source ts) :=
      ((good t mem).2 is).among mem
    refine ⟨fun is => ?_, fun is => ?_⟩
    · simp only [stmtRules, ParseTree.rule, List.mem_cons, List.not_mem_nil, or_false] at is
      rcases is with rfl | rfl | rfl | rfl | rfl | rfl | rfl
      · exact (blames_varDecl (derived.fits (by decide))).within
      · exact (blames_assignStmt (derived.fits (by decide))).within
      · exact (blames_exprStmt (derived.fits (by decide))).within
      · exact (blames_returnStmt (derived.fits (by decide))).within
      · rw [stmt_skipStmt]
        exact blames_ok _
      · exact (blames_ifStmt blocks (derived.fits (by decide))).within
      · exact (blames_whileStmt blocks (derived.fits (by decide))).within
    · obtain rfl : r = .block := is
      have each := (Grammar.Derives.fits derived (by decide)).forall_mem_of stmtRules (by decide)
      rw [block]
      exact (blames_stmts fun t mem => ((good t mem).1 (each t mem).1).among mem).within

theorem blames_block (derived : Derived source t) (is : t.rule = .block) :
    Blames (block file t) fun err => err.Shown source t :=
  (blames_stmt_and_block derived).2 is

end

/-! ## Methods and traits -/

theorem blames_method (derived : Derived source t) (is : t.rule = .methodImpl) :
    Blames (method file t) fun err => err.Shown source t := by
  obtain ⟨pos, text, ts, rfl, fits⟩ := derived.exists_fits is (by decide)
  obtain ⟨pos₁, text₁, xs, _, rfl, sig, fits⟩ := fits.of_rule_seq
  obtain ⟨pos₂, text₂, ys, rfl, body⟩ := fits.of_rule
  exact ((blames_signature sig rfl).bind fun s =>
    ((blames_block body rfl).among (by simp)).bind fun b => blames_ok _).within

/-- Of nodes of one rule, which are read one by one, a list is read. -/
theorem blames_mapM_of_rule {α : Type} {f : Tree → Except BuildError α} {e : Peg Rule} {r : Rule}
    (fits : e.Fits (Derived source) ts) (only : ∀ r' ∈ e.rules, r' = r)
    (read : ∀ t, Derived source t → t.rule = r → Blames (f t) fun err => err.Shown source t) :
    Blames (ts.mapM f) (BuildError.ShownAmong source ts) := by
  refine blames_mapM fun t mem => ?_
  obtain ⟨is, derived⟩ := fits.forall_rule_eq only t mem
  exact (read t derived is).among mem

theorem blames_interface (derived : Derived source t) (is : t.rule = .interfaceDecl) :
    Blames (interface file t) fun err => err.Shown source t := by
  obtain ⟨pos, text, ts, rfl, fits⟩ := derived.exists_fits is (by decide)
  obtain ⟨pos₁, name, xs, _, rfl, -, fits⟩ := fits.of_word_seq.of_rule_seq
  obtain ⟨ns, ms, rfl, parents, behind⟩ := fits.of_seq
  have sigs : Blames (ms.mapM (signature file)) (BuildError.ShownAmong source ms) :=
    blames_mapM_of_rule (r := .methodSig) behind (by decide) fun t derived is =>
      blames_signature derived is
  rcases parents.of_opt with rfl | parents
  · rw [List.nil_append]
    refine Blames.within ?_
    cases ms with
    | nil => exact blames_ok _
    | cons m ms =>
      have sig := (behind.forall_rule_eq (r := .methodSig) (by decide) m (by simp)).1
      obtain ⟨r, pos₂, text₂, ys⟩ := m
      obtain rfl : r = .methodSig := sig
      exact (sigs.mono (by simp)).bind fun sigs => blames_ok _
  · obtain ⟨pos₂, text₂, ys, rfl, -⟩ := parents.of_rule
    exact ((sigs.mono (by simp)).bind fun sigs => blames_ok _).within

theorem blames_sigSet (derived : Derived source t) (is : t.rule = .sigSet) :
    Blames (sigSet file t) fun err => err.Shown source t := by
  obtain ⟨pos, text, ts, rfl, fits⟩ := derived.exists_fits is (by decide)
  exact (blames_mapM_of_rule (r := .methodSig) fits (by decide) fun t derived is =>
    blames_signature derived is).within

theorem blames_traitAtom (derived : Derived source t) (is : t.rule ∈ [.methodSet, .traitRef]) :
    Blames (traitAtom file t) fun err => err.Shown source t := by
  simp only [List.mem_cons, List.not_mem_nil, or_false] at is
  rcases is with is | is
  · obtain ⟨pos, text, ts, rfl, fits⟩ := derived.exists_fits is (by decide)
    have methods : Blames (ts.mapM (method file)) (BuildError.ShownAmong source ts) :=
      blames_mapM_of_rule (r := .methodImpl) fits (by decide) fun t => blames_method
    exact (methods.bind fun ms => blames_ok _).within
  · obtain ⟨pos, text, ts, rfl, fits⟩ := derived.exists_fits is (by decide)
    obtain ⟨pos₁, name, xs, rfl, -⟩ := fits.of_rule
    exact blames_ok _

/-- The right operand of an operator that a mark announces. -/
theorem exists_operand {w : String} (fits : Peg.Fits (Derived source)
    (.seq (.word w) Concrete.traitAtom) ts) :
    ∃ t, ts = [t] ∧ t.rule ∈ [.methodSet, .traitRef] ∧ Derived source t := by
  obtain ⟨t, rfl⟩ := fits.of_word_seq.exists_eq_singleton (by decide)
  exact ⟨t, rfl, fits.of_word_seq.forall_mem_of [.methodSet, .traitRef] (by decide) t (by simp)⟩

theorem blames_traitOp (derived : Derived source t)
    (is : t.rule ∈ [.traitAdds, .traitModifies, .traitRemoves]) (base : TraitExpr) :
    Blames (traitOp file base t) fun err => err.Shown source t := by
  simp only [List.mem_cons, List.not_mem_nil, or_false] at is
  rcases is with is | is | is
  · obtain ⟨pos, text, ts, rfl, fits⟩ := derived.exists_fits is (by decide)
    obtain ⟨t, rfl, is, operand⟩ := exists_operand fits
    exact (((blames_traitAtom operand is).among (by simp)).bind fun e => blames_ok _).within
  · obtain ⟨pos, text, ts, rfl, fits⟩ := derived.exists_fits is (by decide)
    obtain ⟨t, rfl, is, operand⟩ := exists_operand fits
    exact (((blames_traitAtom operand is).among (by simp)).bind fun e => blames_ok _).within
  · obtain ⟨pos, text, ts, rfl, fits⟩ := derived.exists_fits is (by decide)
    obtain ⟨pos₁, text₁, xs, rfl, sigs⟩ := fits.of_word_seq.of_rule
    exact (((blames_sigSet sigs rfl).among (by simp)).bind fun s => blames_ok _).within

theorem blames_traitExpr (derived : Derived source t) (is : t.rule = .traitExpr) :
    Blames (traitExpr file t) fun err => err.Shown source t := by
  obtain ⟨pos, text, ts, rfl, fits⟩ := derived.exists_fits is (by decide)
  obtain ⟨xs, ops, rfl, first, more⟩ := fits.of_seq
  obtain ⟨t, rfl⟩ := first.exists_eq_singleton (by decide)
  obtain ⟨is, operand⟩ := first.forall_mem_of [.methodSet, .traitRef] (by decide) t (by simp)
  have each := more.forall_mem_of [.traitAdds, .traitModifies, .traitRemoves] (by decide)
  exact (((blames_traitAtom operand is).among (by simp)).bind (blames_foldlM fun op mem base =>
    (blames_traitOp (each op mem).2 (each op mem).1 base).among (by simp [mem]))).within

theorem blames_traitUse (derived : Derived source t) (is : t.rule = .traitUse) :
    Blames (traitUse file t) fun err => err.Shown source t := by
  obtain ⟨pos, text, ts, rfl, fits⟩ := derived.exists_fits is (by decide)
  have only := fits.of_word_seq.of_seq_word
  obtain ⟨t, rfl⟩ := only.exists_eq_singleton (by decide)
  obtain ⟨is, clause⟩ := only.forall_mem_of [.traitUseModifies, .traitUseRemoves, .traitExpr]
    (by decide) t (by simp)
  refine Blames.within (Blames.among (t := t) ?_ (by simp))
  simp only [List.mem_cons, List.not_mem_nil, or_false] at is
  rcases is with is | is | is
  · obtain ⟨pos₁, text₁, xs, rfl, inner⟩ := clause.exists_fits is (by decide)
    obtain ⟨pos₂, text₂, ys, rfl, operand⟩ := inner.of_word_seq.of_rule
    exact (((blames_traitExpr operand rfl).among (by simp)).bind fun e => blames_ok _).within
  · obtain ⟨pos₁, text₁, xs, rfl, inner⟩ := clause.exists_fits is (by decide)
    obtain ⟨pos₂, text₂, ys, rfl, sigs⟩ := inner.of_word_seq.of_rule
    exact (((blames_sigSet sigs rfl).among (by simp)).bind fun s => blames_ok _).within
  · obtain ⟨r, pos₁, text₁, xs⟩ := t
    obtain rfl : r = .traitExpr := is
    exact (blames_traitExpr clause rfl).bind fun e => blames_ok _

theorem blames_trait (derived : Derived source t) (is : t.rule = .traitDecl) :
    Blames (trait file t) fun err => err.Shown source t := by
  obtain ⟨pos, text, ts, rfl, fits⟩ := derived.exists_fits is (by decide)
  obtain ⟨pos₁, name, xs, _, rfl, -, fits⟩ := fits.of_word_seq.of_rule_seq
  obtain ⟨pos₂, text₂, ys, zs, rfl, expr, fits⟩ := fits.of_word_seq.of_rule_seq
  obtain rfl := fits.eq_nil rfl
  exact (((blames_traitExpr expr rfl).among (by simp)).bind fun e => blames_ok _).within

/-! ## Classes -/

theorem blames_field (derived : Derived source t) (is : t.rule = .fieldDecl) :
    Blames (field file t) fun err => err.Shown source t := by
  obtain ⟨pos, text, ts, rfl, fits⟩ := derived.exists_fits is (by decide)
  obtain ⟨pos₁, text₁, xs, _, rfl, type, fits⟩ := fits.of_rule_seq
  obtain ⟨pos₂, name, ys, vs, rfl, -, fits⟩ := fits.of_rule_seq
  exact ((blames_typeUse type rfl).bind fun u =>
    ((blames_value? fits.of_seq_word).mono (by simp)).bind fun v => blames_ok _).within

/-- The rules whose nodes are read as parts of a class. -/
def partRules : List Rule :=
  [.classParams, .implementsClause, .initBlock, .recoverBlock, .traitUse, .methodImpl, .fieldDecl]

/-- A part of a class is read, or it holds what is wrong, or it is a further block of a sort of
which the class has one. -/
theorem blames_classPart (derived : Derived source t) (is : t.rule ∈ partRules) (c : ClassDecl) :
    Blames (classPart file c t) fun err => err.Shown source t ∨
      (err = .secondInit c.name ∧ t.rule = .initBlock ∧ c.init.isSome = true) ∨
      (err = .secondRecover c.name ∧ t.rule = .recoverBlock ∧ c.recover.isSome = true) := by
  simp only [partRules, List.mem_cons, List.not_mem_nil, or_false] at is
  rcases is with is | is | is | is | is | is | is
  · obtain ⟨pos, text, ts, rfl, fits⟩ := derived.exists_fits is (by decide)
    have params : Blames (ts.mapM (param file)) (BuildError.ShownAmong source ts) :=
      blames_mapM_of_rule (r := .param) fits (by decide) fun t derived is =>
        blames_param derived is
    exact ((params.bind fun ps => blames_ok _).within).imp fun _ => .inl
  · obtain ⟨r, pos, text, ts⟩ := t
    obtain rfl : r = .implementsClause := is
    exact blames_ok _
  · obtain ⟨pos, text, ts, rfl, fits⟩ := derived.exists_fits is (by decide)
    obtain ⟨pos₁, text₁, xs, rfl, body⟩ := fits.of_rule
    rw [classPart]
    split
    · rename_i given
      intro err failed
      cases failed
      exact .inr (.inl ⟨rfl, rfl, given⟩)
    · exact ((((blames_block body rfl).among (by simp)).bind fun b => blames_ok _).within).imp
        fun _ => .inl
  · obtain ⟨pos, text, ts, rfl, fits⟩ := derived.exists_fits is (by decide)
    obtain ⟨pos₁, text₁, xs, rfl, body⟩ := fits.of_word_seq.of_rule
    rw [classPart]
    split
    · rename_i given
      intro err failed
      cases failed
      exact .inr (.inr ⟨rfl, rfl, given⟩)
    · exact ((((blames_block body rfl).among (by simp)).bind fun b => blames_ok _).within).imp
        fun _ => .inl
  · obtain ⟨r, pos, text, ts⟩ := t
    obtain rfl : r = .traitUse := is
    exact ((blames_traitUse derived rfl).bind fun u => blames_ok _).imp fun _ => .inl
  · obtain ⟨r, pos, text, ts⟩ := t
    obtain rfl : r = .methodImpl := is
    exact ((blames_method derived rfl).bind fun m => blames_ok _).imp fun _ => .inl
  · obtain ⟨r, pos, text, ts⟩ := t
    obtain rfl : r = .fieldDecl := is
    exact ((blames_field derived rfl).bind fun f => blames_ok _).imp fun _ => .inl

/-- A part leaves the name of a class, and gives it a block only if it is one. -/
theorem of_classPart_ok {c c' : ClassDecl} (h : classPart file c t = .ok c') :
    c'.name = c.name ∧ (c'.init.isSome = true → c.init.isSome = true ∨ t.rule = .initBlock) ∧
      (c'.recover.isSome = true → c.recover.isSome = true ∨ t.rule = .recoverBlock) := by
  unfold classPart at h
  split at h
  case h_2 =>
    cases h
    exact ⟨rfl, .inl, .inl⟩
  case h_3 =>
    split at h
    · cases h
    · obtain ⟨b, -, h⟩ := exists_of_bind_ok h
      cases h
      exact ⟨rfl, fun _ => .inr rfl, .inl⟩
  case h_4 =>
    split at h
    · cases h
    · obtain ⟨b, -, h⟩ := exists_of_bind_ok h
      cases h
      exact ⟨rfl, .inl, fun _ => .inr rfl⟩
  case h_8 => cases h
  all_goals
    obtain ⟨x, -, h⟩ := exists_of_bind_ok h
    cases h
    exact ⟨rfl, .inl, .inl⟩

/-- All parts of a class are read, or one holds what is wrong, or there are two blocks of one sort,
of which the class may have one so far. -/
theorem blames_classParts (each : ∀ t ∈ ts, t.rule ∈ partRules ∧ Derived source t) (c : ClassDecl)
    (inits recovers : Nat) (init : c.init.isSome = true → 1 ≤ inits)
    (recover : c.recover.isSome = true → 1 ≤ recovers) :
    Blames (ts.foldlM (classPart file) c) fun err => err.ShownAmong source ts ∨
      (err = .secondInit c.name ∧ 2 ≤ inits + ts.countP fun t => t.rule = .initBlock) ∨
      (err = .secondRecover c.name ∧
        2 ≤ recovers + ts.countP fun t => t.rule = .recoverBlock) := by
  induction ts generalizing c inits recovers with
  | nil => exact blames_ok c
  | cons t ts ih =>
    rw [List.forall_mem_cons] at each
    rw [List.foldlM_cons]
    refine Blames.bind_of_ok ((blames_classPart each.1.2 each.1.1 c).imp ?_) fun c' done => ?_
    · rintro err (shown | ⟨rfl, is, given⟩ | ⟨rfl, is, given⟩)
      · exact .inl ⟨t, List.mem_cons_self .., shown⟩
      · refine .inr (.inl ⟨rfl, ?_⟩)
        have some := init given
        rw [List.countP_cons_of_pos (by simpa using is)]
        omega
      · refine .inr (.inr ⟨rfl, ?_⟩)
        have some := recover given
        rw [List.countP_cons_of_pos (by simpa using is)]
        omega
    · obtain ⟨name, blocks, recoverBlocks⟩ := of_classPart_ok done
      have rest := ih each.2 c' (inits + if t.rule = .initBlock then 1 else 0)
        (recovers + if t.rule = .recoverBlock then 1 else 0)
        (fun given => by
          rcases blocks given with before | is
          · exact Nat.le_add_right_of_le (init before)
          · rw [if_pos is]
            exact Nat.le_add_left 1 inits)
        (fun given => by
          rcases recoverBlocks given with before | is
          · exact Nat.le_add_right_of_le (recover before)
          · rw [if_pos is]
            exact Nat.le_add_left 1 recovers)
      rw [name] at rest
      refine rest.imp fun err => Or.imp ?_
        (Or.imp (And.imp_right fun twice => ?_) (And.imp_right fun twice => ?_))
      · exact fun ⟨x, mem, shown⟩ => ⟨x, List.mem_cons_of_mem t mem, shown⟩
      · rw [List.countP_cons]
        simp only [decide_eq_true_eq]
        omega
      · rw [List.countP_cons]
        simp only [decide_eq_true_eq]
        omega

theorem blames_cls (derived : Derived source t) (is : t.rule = .classDecl) :
    Blames (cls file t) fun err => err.Shown source t := by
  obtain ⟨pos, text, ts, rfl, fits⟩ := derived.exists_fits is (by decide)
  obtain ⟨pos₁, name, xs, ys, rfl, -, fits⟩ := fits.of_word_seq.of_rule_seq
  refine (blames_classParts (fits.forall_mem_of partRules (by decide))
    ⟨name, [], [], none, none, [], [], [], locate file pos⟩ 0 0 (by simp) (by simp)).imp ?_
  rintro err (⟨t, mem, shown⟩ | ⟨rfl, twice⟩ | ⟨rfl, twice⟩)
  · exact .within (List.mem_cons_of_mem _ mem) shown
  · exact .secondInit (by rwa [Nat.zero_add] at twice)
  · exact .secondRecover (by rwa [Nat.zero_add] at twice)

/-! ## Products and deltas -/

theorem blames_product (derived : Derived source t) (is : t.rule = .productDecl)
    {B : BuildError → Prop} : Blames (product file t) B := by
  obtain ⟨pos, text, ts, rfl, fits⟩ := derived.exists_fits is (by decide)
  obtain ⟨pos₁, name, xs, ns, rfl, -⟩ := fits.of_word_seq.of_rule_seq
  exact blames_ok _

/-- The rules whose nodes are read as conditions. -/
def conditionRules : List Rule := [.appCond, .appAnd, .appNot, .appFeature]

theorem blames_conditions {B : BuildError → Prop} (join : Condition → Condition → Condition)
    (each : ∀ t ∈ ts, Blames (condition t) B) (lhs : Condition) :
    Blames (conditions join lhs ts) B := by
  induction ts generalizing lhs with
  | nil =>
    rw [conditions]
    exact blames_ok lhs
  | cons t ts ih =>
    rw [List.forall_mem_cons] at each
    rw [conditions]
    exact each.1.bind fun c => ih each.2 _

/-- Reading a condition does not fail. -/
theorem blames_condition (derived : Derived source t) (is : t.rule ∈ conditionRules)
    {B : BuildError → Prop} : Blames (condition t) B := by
  induction t using ParseTree.induction with
  | node r pos text ts ih =>
    have operands {e : Peg Rule} (fits : e.Fits (Derived source) ts)
        (only : ∀ r ∈ e.rules, r ∈ conditionRules) (t : Tree) (mem : t ∈ ts) :
        Blames (condition t) B :=
      have ⟨is, derived⟩ := fits.forall_mem_of conditionRules only t mem
      ih t mem derived is
    simp only [conditionRules, ParseTree.rule, List.mem_cons, List.not_mem_nil, or_false] at is
    rcases is with rfl | rfl | rfl | rfl
    · have fits := Grammar.Derives.fits derived (by decide)
      have each := operands fits (by decide)
      obtain ⟨pos₁, text₁, xs, ys, rfl, -⟩ := fits.of_rule_seq
      rw [List.forall_mem_cons] at each
      rw [condition]
      exact each.1.bind (blames_conditions .or each.2)
    · have fits := Grammar.Derives.fits derived (by decide)
      have each := operands fits (by decide)
      obtain ⟨xs, ys, rfl, first, -⟩ := fits.of_seq
      obtain ⟨t, rfl⟩ := first.exists_eq_singleton (by decide)
      rw [List.singleton_append, List.forall_mem_cons] at each
      rw [List.singleton_append, condition]
      exact each.1.bind (blames_conditions .and each.2)
    · have fits := Grammar.Derives.fits derived (by decide)
      have each := operands fits (by decide)
      obtain ⟨t, rfl⟩ := fits.exists_eq_singleton (by decide)
      rw [condition]
      exact (each t (by simp)).bind fun c => blames_ok _
    · obtain ⟨pos₁, name, xs, rfl, -⟩ := (Grammar.Derives.fits derived (by decide)).of_rule
      rw [condition]
      exact blames_ok _

theorem blames_interfaceOp (derived : Derived source t)
    (is : t.rule ∈ [.interfaceAdds, .interfaceRemoves]) {B : BuildError → Prop} :
    Blames (interfaceOp file t) B := by
  simp only [List.mem_cons, List.not_mem_nil, or_false] at is
  rcases is with is | is
  · obtain ⟨pos, text, ts, rfl, fits⟩ := derived.exists_fits is (by decide)
    obtain ⟨pos₁, text₁, xs, rfl, sig⟩ := fits.of_word_seq.of_seq_word.of_rule
    exact (blames_signature sig rfl).bind fun s => blames_ok _
  · obtain ⟨pos, text, ts, rfl, fits⟩ := derived.exists_fits is (by decide)
    obtain ⟨pos₁, text₁, xs, rfl, sig⟩ := fits.of_word_seq.of_seq_word.of_rule
    exact (blames_signature sig rfl).bind fun s => blames_ok _

/-- The rules whose nodes are read as parts of a class modifier. -/
def classModifierRules : List Rule :=
  [.addedInterfaces, .traitUse, .classAdds, .classModifies, .classRemoves]

theorem blames_classModifierPart (derived : Derived source t) (is : t.rule ∈ classModifierRules)
    (m : ClassModifier) :
    Blames (classModifierPart file m t) fun err => err.Shown source t := by
  simp only [classModifierRules, List.mem_cons, List.not_mem_nil, or_false] at is
  rcases is with is | is | is | is | is
  · obtain ⟨r, pos, text, ts⟩ := t
    obtain rfl : r = .addedInterfaces := is
    exact blames_ok _
  · obtain ⟨r, pos, text, ts⟩ := t
    obtain rfl : r = .traitUse := is
    exact (blames_traitUse derived rfl).bind fun u => blames_ok _
  · obtain ⟨pos, text, ts, rfl, fits⟩ := derived.exists_fits is (by decide)
    rcases fits.of_word_seq.of_rule_alt with ⟨pos₁, text₁, xs, rfl, added⟩ | other
    · exact (((blames_method added rfl).among (by simp)).bind fun m => blames_ok _).within
    · obtain ⟨pos₁, text₁, xs, rfl, added⟩ := other.of_rule
      exact (((blames_field added rfl).among (by simp)).bind fun f => blames_ok _).within
  · obtain ⟨pos, text, ts, rfl, fits⟩ := derived.exists_fits is (by decide)
    obtain ⟨pos₁, text₁, xs, rfl, modified⟩ := fits.of_word_seq.of_rule
    exact (((blames_method modified rfl).among (by simp)).bind fun m => blames_ok _).within
  · obtain ⟨pos, text, ts, rfl, fits⟩ := derived.exists_fits is (by decide)
    rcases fits.of_word_seq.of_rule_alt with ⟨pos₁, text₁, xs, rfl, removed⟩ | other
    · obtain ⟨pos₂, text₂, ys, rfl, sig⟩ :=
        (Grammar.Derives.fits removed (by decide)).of_seq_word.of_rule
      exact (blames_signature sig rfl).bind fun s => blames_ok _
    · obtain ⟨pos₁, text₁, xs, rfl, removed⟩ := other.of_rule
      obtain ⟨pos₂, text₂, ys, _, rfl, -, fits⟩ :=
        (Grammar.Derives.fits removed (by decide)).of_rule_seq
      obtain ⟨pos₃, name, zs, rfl, -⟩ := fits.of_seq_word.of_rule
      exact blames_ok _

theorem blames_deltaAdds (derived : Derived source t) (is : t.rule = .deltaAdds)
    (d : DeltaDecl) : Blames (deltaPart file d t) fun err => err.Shown source t := by
  obtain ⟨pos, text, ts, rfl, fits⟩ := derived.exists_fits is (by decide)
  rcases fits.of_word_seq.of_rule_alt with ⟨pos₁, text₁, xs, rfl, added⟩ | other
  · exact (((blames_interface added rfl).among (by simp)).bind fun i => blames_ok _).within
  rcases other.of_rule_alt with ⟨pos₁, text₁, xs, rfl, added⟩ | other
  · exact (((blames_cls added rfl).among (by simp)).bind fun c => blames_ok _).within
  · obtain ⟨pos₁, text₁, xs, rfl, added⟩ := other.of_rule
    exact (((blames_trait added rfl).among (by simp)).bind fun t => blames_ok _).within

theorem blames_deltaRemoves (derived : Derived source t) (is : t.rule = .deltaRemoves)
    (d : DeltaDecl) {B : BuildError → Prop} : Blames (deltaPart file d t) B := by
  obtain ⟨pos, text, ts, rfl, fits⟩ := derived.exists_fits is (by decide)
  rcases fits.of_word_seq.of_seq_word.of_rule_alt with ⟨pos₁, text₁, xs, rfl, removed⟩ | other
  · obtain ⟨pos₂, name, ys, rfl, -⟩ :=
      (Grammar.Derives.fits removed (by decide)).of_word_seq.of_rule
    exact blames_ok _
  rcases other.of_rule_alt with ⟨pos₁, text₁, xs, rfl, removed⟩ | other
  · obtain ⟨pos₂, name, ys, rfl, -⟩ :=
      (Grammar.Derives.fits removed (by decide)).of_word_seq.of_rule
    exact blames_ok _
  · obtain ⟨pos₁, text₁, xs, rfl, removed⟩ := other.of_rule
    obtain ⟨pos₂, name, ys, rfl, -⟩ :=
      (Grammar.Derives.fits removed (by decide)).of_word_seq.of_rule
    exact blames_ok _

theorem blames_modifiesClass (derived : Derived source t) (is : t.rule = .modifiesClass)
    (d : DeltaDecl) : Blames (deltaPart file d t) fun err => err.Shown source t := by
  obtain ⟨pos, text, ts, rfl, fits⟩ := derived.exists_fits is (by decide)
  obtain ⟨pos₁, name, xs, ys, rfl, -, fits⟩ := fits.of_word_seq.of_word_seq.of_rule_seq
  have each := fits.forall_mem_of classModifierRules (by decide)
  exact ((blames_foldlM (fun t mem m => (blames_classModifierPart (each t mem).2
    (each t mem).1 m).among (by simp [mem])) _).bind fun m => blames_ok _).within

/-- The rules whose nodes are read as parts of a delta. -/
def deltaPartRules : List Rule :=
  [.deltaAfter, .deltaBefore, .deltaWhen, .deltaUses, .deltaAdds, .deltaRemoves, .modifiesClass,
    .modifiesInterface, .modifiesTrait]

theorem blames_deltaPart (derived : Derived source t) (is : t.rule ∈ deltaPartRules)
    (d : DeltaDecl) : Blames (deltaPart file d t) fun err => err.Shown source t := by
  simp only [deltaPartRules, List.mem_cons, List.not_mem_nil, or_false] at is
  rcases is with is | is | is | is | is | is | is | is | is
  · obtain ⟨r, pos, text, ts⟩ := t
    obtain rfl : r = .deltaAfter := is
    exact blames_ok _
  · obtain ⟨r, pos, text, ts⟩ := t
    obtain rfl : r = .deltaBefore := is
    exact blames_ok _
  · obtain ⟨pos, text, ts, rfl, fits⟩ := derived.exists_fits is (by decide)
    obtain ⟨pos₁, text₁, xs, rfl, cond⟩ := fits.of_word_seq.of_rule
    exact (blames_condition cond (by simp [conditionRules, ParseTree.rule])).bind
      fun c => blames_ok _
  · obtain ⟨pos, text, ts, rfl, fits⟩ := derived.exists_fits is (by decide)
    obtain ⟨pos₁, name, xs, rfl, -⟩ := fits.of_word_seq.of_seq_word.of_rule
    exact blames_ok _
  · exact blames_deltaAdds derived is d
  · exact blames_deltaRemoves derived is d
  · exact blames_modifiesClass derived is d
  · obtain ⟨pos, text, ts, rfl, fits⟩ := derived.exists_fits is (by decide)
    obtain ⟨pos₁, name, xs, ys, rfl, -, fits⟩ := fits.of_word_seq.of_word_seq.of_rule_seq
    have each := fits.forall_mem_of [.interfaceAdds, .interfaceRemoves] (by decide)
    exact (blames_mapM fun t mem => blames_interfaceOp (each t mem).2 (each t mem).1).bind
      fun ops => blames_ok _
  · obtain ⟨pos, text, ts, rfl, fits⟩ := derived.exists_fits is (by decide)
    obtain ⟨pos₁, name, xs, _, rfl, -, fits⟩ := fits.of_word_seq.of_word_seq.of_rule_seq
    obtain ⟨pos₂, text₂, ys, rfl, expr⟩ := fits.of_word_seq.of_seq_word.of_rule
    exact (((blames_traitExpr expr rfl).among (by simp)).bind fun e => blames_ok _).within

theorem blames_delta (derived : Derived source t) (is : t.rule = .deltaDecl) :
    Blames (delta file t) fun err => err.Shown source t := by
  obtain ⟨pos, text, ts, rfl, fits⟩ := derived.exists_fits is (by decide)
  obtain ⟨pos₁, name, xs, ys, rfl, -, fits⟩ := fits.of_word_seq.of_rule_seq
  have each := fits.forall_mem_of deltaPartRules (by decide)
  exact (blames_foldlM (fun t mem d => (blames_deltaPart (each t mem).2 (each t mem).1 d).among
    (by simp [mem])) _).within

/-! ## Modules and units -/

theorem blames_decl (derived : Derived source t)
    (is : t.rule ∈ [.interfaceDecl, .classDecl, .traitDecl, .deltaDecl, .productDecl]) :
    Blames (decl file t) fun err => err.Shown source t := by
  obtain ⟨r, pos, text, ts⟩ := t
  simp only [ParseTree.rule, List.mem_cons, List.not_mem_nil, or_false] at is
  rcases is with rfl | rfl | rfl | rfl | rfl
  · exact (blames_interface derived rfl).bind fun i => blames_ok _
  · exact (blames_cls derived rfl).bind fun c => blames_ok _
  · exact (blames_trait derived rfl).bind fun t => blames_ok _
  · exact (blames_delta derived rfl).bind fun d => blames_ok _
  · exact (blames_product derived rfl).bind fun p => blames_ok _

theorem blames_module? (derived : Derived source t) (is : t.rule ∈ [.moduleDecl, .endOfInput]) :
    Blames (module? file t) fun err => err.Shown source t := by
  simp only [List.mem_cons, List.not_mem_nil, or_false] at is
  rcases is with is | is
  · obtain ⟨pos, text, ts, rfl, fits⟩ := derived.exists_fits is (by decide)
    obtain ⟨pos₁, name, xs, ds, rfl, -, fits⟩ := fits.of_word_seq.of_rule_seq
    have each := fits.forall_mem_of
      [.interfaceDecl, .classDecl, .traitDecl, .deltaDecl, .productDecl] (by decide)
    exact ((blames_mapM fun t mem => (blames_decl (each t mem).2 (each t mem).1).among
      (by simp [mem])).bind fun ds => blames_ok _).within
  · obtain ⟨r, pos, text, ts⟩ := t
    obtain rfl : r = .endOfInput := is
    exact blames_ok _

/-- A tree that the grammar derives is read as a unit, or it holds what is wrong. -/
theorem blames_unit (derived : Derived source t) (is : t.rule = .unit) :
    Blames (unit file t) fun err => err.Shown source t := by
  obtain ⟨pos, text, ts, rfl, fits⟩ := derived.exists_fits is (by decide)
  have each := fits.forall_mem_of [.moduleDecl, .endOfInput] (by decide)
  exact ((blames_filterMapM fun t mem => (blames_module? (each t mem).2 (each t mem).1).among
    mem).bind fun ms => blames_ok _).within

end Elaborate

/-! ## Texts -/

section

variable {file : Option String} {text : String}

/-- The furthest failure is at a position of the text. -/
theorem Attempts.Within.exists_location {a : Attempts Rule} (h : a.Within (Place.ofText text)) :
    ∃ before after, text.toList = before ++ after ∧
      (ParseError.ofAttempts file a).location =
        some ⟨file, (before.foldl Position.advance .start).line,
          (before.foldl Position.advance .start).column⟩ := by
  obtain ⟨q, ⟨before, passes⟩, here⟩ := h
  refine ⟨before, q.rest, passes.rest, ?_⟩
  unfold ParseError.ofAttempts ParseError.location
  rw [← here, passes.pos]
  rfl

theorem attempts_none_within : (Attempts.none : Attempts Rule).Within (Place.ofText text) :=
  ⟨Place.ofText text, .refl _, rfl⟩

/-- What the grammar makes of a text. -/
theorem sound_of_match?_unit {result : Outcome Rule}
    (h : grammar.match? (matchDepth (Place.ofText text).rest.length) (.rule .unit) .normal
      (Place.ofText text) .none = some result) :
    grammar.Sound (Place.ofText text) (.rule .unit) .normal result :=
  Grammar.sound_of_match? h (.refl _) attempts_none_within

/-- A text that the grammar does not accept has a fault at one of its positions. -/
theorem exists_location_of_parseTree_eq_error {e : ParseError}
    (h : parseTree file text = .error e) :
    ∃ before after, text.toList = before ++ after ∧
      e.location = some ⟨file, (before.foldl Position.advance .start).line,
        (before.foldl Position.advance .start).column⟩ := by
  unfold parseTree at h
  dsimp only at h
  split at h
  · cases h
  · rename_i failed
    cases h
    exact (sound_of_match?_unit failed).exists_location
  · cases h
    exact attempts_none_within.exists_location

/-- The tree of a text that the grammar accepts is one of a unit, and the grammar derives it. -/
theorem derived_of_parseTree_eq_ok {t : ParseTree Rule} (h : parseTree file text = .ok t) :
    t.rule = .unit ∧ Derived text.toList t := by
  unfold parseTree at h
  dsimp only at h
  split at h
  · rename_i matched
    cases h
    obtain ⟨-, -, -, fits⟩ := sound_of_match?_unit matched
    obtain ⟨pos, text', ts, only, derived⟩ := (fits (by decide)).of_rule
    cases only
    exact ⟨rfl, derived⟩
  · cases h
  · cases h

/-- Of a text that the grammar accepts, the tree is read. -/
theorem parseUnit_of_parseTree {t : ParseTree Rule} (h : parseTree file text = .ok t) :
    parseUnit file text = (Elaborate.unit file t).mapError .build := by
  unfold parseUnit
  rw [h]
  dsimp only [bind, Except.bind]
  cases Elaborate.unit file t with
  | error => rfl
  | ok => rfl

/-- A text of which no unit is read is one that the grammar does not accept, and the error is
located at one of its positions, or its tree holds a literal that is too large or a class with a
second init or recover block, and the error says so without a location. -/
theorem located_or_shown_of_parseUnit_eq_error {file : Option String} {text : String}
    {e : ParseError} (failed : parseUnit file text = .error e) :
    e ≠ .build .malformed ∧
      ((∃ before after, text.toList = before ++ after ∧
          e.location = some ⟨file, (before.foldl Position.advance .start).line,
            (before.foldl Position.advance .start).column⟩) ∨
        (e.location = none ∧ ∃ tree err, parseTree file text = .ok tree ∧ e = .build err ∧
          err.Shown text.toList tree)) := by
  cases parsed : parseTree file text with
  | error e' =>
    unfold parseUnit at failed
    rw [parsed] at failed
    cases failed
    obtain ⟨before, after, split, located⟩ := exists_location_of_parseTree_eq_error parsed
    refine ⟨?_, .inl ⟨before, after, split, located⟩⟩
    rintro rfl
    cases located
  | ok tree =>
    obtain ⟨is, derived⟩ := derived_of_parseTree_eq_ok parsed
    rw [parseUnit_of_parseTree parsed] at failed
    cases read : Elaborate.unit file tree with
    | ok =>
      rw [read] at failed
      cases failed
    | error err =>
      rw [read] at failed
      cases failed
      have shown := Elaborate.blames_unit derived is err read
      refine ⟨?_, .inr ⟨rfl, tree, err, rfl, rfl, shown⟩⟩
      rintro ⟨⟩
      exact shown.ne_malformed rfl

end

theorem eq_error_of_map {ε α : Type} {x : Except ε α} {e : ε}
    (h : x.map (fun _ => ()) = .error e) : x = .error e := by
  cases x with
  | error e' =>
    cases h
    rfl
  | ok a => cases h

/-- The class is not closed. -/
def unclosedText : String := "module M; class C \x7b"

/-- Both blocks are init blocks. -/
def twoBlocksText : String := "module M; class C { { } Int n; { } }"

/-- The literal is greater by one than what fits. -/
def largeText : String := "module M; class C { Int n = 9223372036854775808; }"

theorem located_or_shown_of_faultyTexts :
    (∃ e before after, parseUnit none unclosedText = .error e ∧
      unclosedText.toList = before ++ after ∧
      e.location = some ⟨none, (before.foldl Position.advance .start).line,
        (before.foldl Position.advance .start).column⟩) ∧
    (∃ tree, parseTree none twoBlocksText = .ok tree ∧
      (BuildError.secondInit "C").Shown twoBlocksText.toList tree) ∧
    ∃ tree, parseTree none largeText = .ok tree ∧
      (BuildError.integerTooLarge "9223372036854775808").Shown largeText.toList tree := by
  have unclosed : parseUnit none unclosedText = .error (.unexpected
      [.typeUse, .recoverBlock, .traitUse, .block] ⟨none, 1, 20⟩) :=
    eq_error_of_map (by decide +kernel)
  have twoBlocks : parseUnit none twoBlocksText = .error (.build (.secondInit "C")) :=
    eq_error_of_map (by decide +kernel)
  have large : parseUnit none largeText =
      .error (.build (.integerTooLarge "9223372036854775808")) :=
    eq_error_of_map (by decide +kernel)
  refine ⟨?_, ?_, ?_⟩
  · obtain ⟨before, after, split, located⟩ | ⟨unlocated, -⟩ :=
      (located_or_shown_of_parseUnit_eq_error unclosed).2
    · exact ⟨_, before, after, unclosed, split, located⟩
    · cases unlocated
  · obtain ⟨_, _, _, located⟩ | ⟨-, tree, err, parsed, same, shown⟩ :=
      (located_or_shown_of_parseUnit_eq_error twoBlocks).2
    · cases located
    · cases same
      exact ⟨tree, parsed, shown⟩
  · obtain ⟨_, _, _, located⟩ | ⟨-, tree, err, parsed, same, shown⟩ :=
      (located_or_shown_of_parseUnit_eq_error large).2
    · cases located
    · cases same
      exact ⟨tree, parsed, shown⟩

end DeltaLang
