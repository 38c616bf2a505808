import DeltaLang.Compile
import DeltaLang.Proofs.Program.WellNamed

/-!
# Names in texts

The grammar only reads letters, digits and underscores as an identifier, so that a model read from
texts is well-named, and its traits have plain names.
-/

namespace DeltaLang

/-! ## Parse trees -/

mutual

/-- All identifiers of the tree are words. -/
def ParseTree.PlainIdentifiers : ParseTree Rule → Prop
  | .node rule _ text ts => (rule = .identifier → Word text) ∧ ParseTree.PlainIdentifiersAll ts

def ParseTree.PlainIdentifiersAll : List (ParseTree Rule) → Prop
  | [] => True
  | t :: ts => t.PlainIdentifiers ∧ ParseTree.PlainIdentifiersAll ts

end

namespace ParseTree

theorem plainIdentifiersAll_iff {ts : List (ParseTree Rule)} :
    PlainIdentifiersAll ts ↔ ∀ t ∈ ts, t.PlainIdentifiers := by
  induction ts with
  | nil => simp [PlainIdentifiersAll]
  | cons t ts ih => rw [PlainIdentifiersAll, ih, List.forall_mem_cons]

theorem PlainIdentifiersAll.append {ts ts' : List (ParseTree Rule)} (h : PlainIdentifiersAll ts)
    (h' : PlainIdentifiersAll ts') : PlainIdentifiersAll (ts ++ ts') := by
  rw [plainIdentifiersAll_iff] at h h' ⊢
  exact fun t mem => (List.mem_append.1 mem).elim (h t) (h' t)

end ParseTree

/-! ## The text of an identifier -/

namespace Place

/-- The characters read on the way from a place to a later one. -/
structure Reads (p q : Place) (cs : List Char) : Prop where
  rest : p.rest = cs ++ q.rest
  offset : q.pos.offset = p.pos.offset + cs.length

theorem Reads.trans {p q q' : Place} {cs cs' : List Char} (h : p.Reads q cs)
    (h' : q.Reads q' cs') : p.Reads q' (cs ++ cs') where
  rest := by rw [h.rest, h'.rest, List.append_assoc]
  offset := by rw [h'.offset, h.offset, List.length_append, Nat.add_assoc]

theorem Reads.textUntil {p q : Place} {cs : List Char} (h : p.Reads q cs) :
    p.textUntil q = String.ofList cs := by
  rw [Place.textUntil, h.offset, h.rest, Nat.add_sub_cancel_left, List.take_left]

theorem reads_eatWhile (f : Char → Bool) (pos : Position) (cs : List Char) :
    Reads ⟨pos, cs⟩ (eatWhile f pos cs) (cs.takeWhile f) := by
  refine ⟨?_, ?_⟩
  · rw [rest_eatWhile, List.takeWhile_append_dropWhile]
  · induction cs generalizing pos with
    | nil => rfl
    | cons c cs ih =>
      cases h : f c with
      | true =>
        rw [eatWhile, if_pos h, ih, List.takeWhile_cons_of_pos h, Position.offset_advance,
          List.length_cons, Nat.add_right_comm, Nat.add_assoc]
      | false => rw [eatWhile, h, if_neg (by simp), List.takeWhile_cons_of_neg (by simp [h])]; rfl

end Place

namespace Grammar

variable {ρ : Type} {g : Grammar ρ} {a b : Peg ρ} {mode : RuleMode} {p q : Place}

/-- The expression matches from one place to another. -/
def Matches (g : Grammar ρ) (e : Peg ρ) (mode : RuleMode) (p q : Place) : Prop :=
  ∃ depth seen ts seen', g.match? depth e mode p seen = some (.ok q ts seen')

theorem Matches.cat (h : g.Matches (.cat a b) mode p q) :
    ∃ q', g.Matches a mode p q' ∧ g.Matches b mode q' q := by
  obtain ⟨_ | depth, seen, ts, seen', h⟩ := h
  · cases h
  · simp only [match?] at h
    split at h
    · rename_i q' ts₁ seen₁ first
      split at h
      · rename_i second
        cases h
        exact ⟨q', ⟨depth, seen, ts₁, seen₁, first⟩, ⟨depth, seen₁, _, _, second⟩⟩
      · rename_i failed
        exact absurd h (failed _ _ _)
    · rename_i failed
      exact absurd h (failed _ _ _)

theorem Matches.skip (h : g.Matches .skip .atomic p q) : q = p := by
  obtain ⟨_ | depth, seen, ts, seen', h⟩ := h <;> cases h
  rfl

theorem Matches.not (h : g.Matches (.not a) mode p q) : q = p := by
  obtain ⟨_ | depth, seen, ts, seen', h⟩ := h
  · cases h
  · simp only [match?] at h
    split at h <;> cases h
    rfl

theorem Matches.one {f : Char → Bool} (h : g.Matches (.one f) mode p q) :
    ∃ c, f c = true ∧ p.Reads q [c] := by
  obtain ⟨_ | depth, seen, ts, seen', h⟩ := h
  · cases h
  · simp only [match?] at h
    split at h
    · rename_i c rest found
      split at h
      · rename_i pass
        cases h
        exact ⟨c, pass, found, Position.offset_advance p.pos c⟩
      · cases h
    · cases h

theorem Matches.span {f : Char → Bool} (h : g.Matches (.span f) mode p q) :
    ∃ cs, (∀ c ∈ cs, f c = true) ∧ p.Reads q cs := by
  obtain ⟨_ | depth, seen, ts, seen', h⟩ := h <;> cases h
  exact ⟨p.rest.takeWhile f, fun _ => List.mem_takeWhile_imp, Place.reads_eatWhile f p.pos p.rest⟩

end Grammar

theorem word_ofList {cs : List Char} (h : ∀ c ∈ cs, Concrete.isNameChar c = true) :
    Word (String.ofList cs) := by
  rwa [Word, String.toList_ofList]

namespace Concrete

variable {mode : RuleMode} {p q : Place}

theorem word_of_matches (h : grammar.Matches (body .identifier) .atomic p q) :
    Word (p.textUntil q) := by
  obtain ⟨p₁, keyword, h⟩ := h.cat
  obtain ⟨p₂, skip, h⟩ := h.cat
  obtain ⟨p₃, start, h⟩ := h.cat
  obtain ⟨p₄, skip', rest⟩ := h.cat
  obtain rfl := keyword.not
  obtain rfl := skip.skip
  obtain rfl := skip'.skip
  obtain ⟨c, isStart, reads⟩ := start.one
  obtain ⟨cs, areChars, reads'⟩ := rest.span
  rw [(reads.trans reads').textUntil]
  refine word_ofList fun c' mem => ?_
  rcases List.mem_cons.1 mem with rfl | mem
  · rw [isNameChar, isStart, Bool.true_or]
  · exact areChars c' mem

/-- A match yields trees whose identifiers are words. -/
theorem plainIdentifiersAll_of_match? {depth : Nat} {e : Peg Rule} {seen seen' : Attempts Rule}
    {ts : List (ParseTree Rule)}
    (h : grammar.match? depth e mode p seen = some (.ok q ts seen')) :
    ParseTree.PlainIdentifiersAll ts := by
  induction depth generalizing e mode p seen q ts seen' with
  | zero => cases h
  | succ depth ih =>
    cases e with
    | empty | span f | skip =>
      cases h
      trivial
    | lit cs =>
      simp only [Grammar.match?] at h
      split at h <;> cases h
      trivial
    | one f =>
      simp only [Grammar.match?] at h
      split at h
      · split at h <;> cases h
        trivial
      · cases h
    | endOfText =>
      simp only [Grammar.match?] at h
      split at h <;> cases h
      trivial
    | not a =>
      simp only [Grammar.match?] at h
      split at h <;> cases h
      trivial
    | cat a b =>
      simp only [Grammar.match?] at h
      split at h
      · rename_i first
        split at h
        · rename_i second
          cases h
          exact (ih first).append (ih second)
        · exact ih h
      · exact ih h
    | alt a b =>
      simp only [Grammar.match?] at h
      split at h <;> exact ih h
    | loop a =>
      simp only [Grammar.match?] at h
      split at h
      · cases h
        trivial
      · rename_i first
        split at h
        · rename_i rest
          cases h
          exact (ih first).append (ih rest)
        · exact ih h
      · cases h
    | rule r =>
      simp only [Grammar.match?] at h
      split at h
      · rename_i q' ts' seen' matched
        cases h
        split
        · trivial
        · refine ⟨⟨fun identifier => ?_, ih matched⟩, trivial⟩
          subst identifier
          exact word_of_matches ⟨depth, seen, ts', seen', matched⟩
      · cases h
      · cases h

end Concrete

/-! ## Declarations -/

section

variable {ε α β : Type}

theorem exists_of_bind_ok {x : Except ε α} {f : α → Except ε β} {b : β}
    (h : (x >>= f) = .ok b) : ∃ a, x = .ok a ∧ f a = .ok b := by
  cases x with
  | error err => cases h
  | ok a => exact ⟨a, rfl, h⟩

theorem forall_of_mapM_ok {f : α → Except ε β} {l : List α} {l' : List β} {P : β → Prop}
    (step : ∀ a ∈ l, ∀ b, f a = .ok b → P b) (h : l.mapM f = .ok l') : ∀ b ∈ l', P b := by
  induction l generalizing l' with
  | nil =>
    cases h
    simp
  | cons a l ih =>
    rw [List.mapM_cons] at h
    obtain ⟨b, first, h⟩ := exists_of_bind_ok h
    obtain ⟨bs, rest, h⟩ := exists_of_bind_ok h
    cases h
    rw [List.forall_mem_cons]
    exact ⟨step a List.mem_cons_self b first,
      ih (fun a mem => step a (List.mem_cons_of_mem _ mem)) rest⟩

theorem forall_of_filterMapM_ok {f : α → Except ε (Option β)} {l : List α} {l' : List β}
    {P : β → Prop} (step : ∀ a ∈ l, ∀ b, f a = .ok (some b) → P b)
    (h : l.filterMapM f = .ok l') : ∀ b ∈ l', P b := by
  induction l generalizing l' with
  | nil =>
    cases h
    simp
  | cons a l ih =>
    have rest {bs : List β} (h : l.filterMapM f = .ok bs) : ∀ b ∈ bs, P b :=
      ih (fun a mem => step a (List.mem_cons_of_mem _ mem)) h
    rw [List.filterMapM_cons] at h
    obtain ⟨found, first, h⟩ := exists_of_bind_ok h
    cases found with
    | none => exact rest h
    | some b =>
      obtain ⟨bs, done, h⟩ := exists_of_bind_ok h
      cases h
      rw [List.forall_mem_cons]
      exact ⟨step a List.mem_cons_self b first, rest done⟩

theorem of_foldlM_ok {f : β → α → Except ε β} {l : List α} {b b' : β} {P : β → Prop}
    (step : ∀ a ∈ l, ∀ b b', f b a = .ok b' → P b → P b') (h : l.foldlM f b = .ok b')
    (start : P b) : P b' := by
  induction l generalizing b with
  | nil =>
    cases h
    exact start
  | cons a l ih =>
    rw [List.foldlM_cons] at h
    obtain ⟨next, first, h⟩ := exists_of_bind_ok h
    exact ih (fun a mem => step a (List.mem_cons_of_mem _ mem)) h
      (step a List.mem_cons_self b next first start)

end

namespace Elaborate

variable {file : Option String} {t : Tree}

/-! ### Methods and traits -/

theorem word_signature {sig : Signature} (h : signature file t = .ok sig)
    (plain : t.PlainIdentifiers) : Word sig.name := by
  unfold signature at h
  split at h
  · obtain ⟨ret, -, h⟩ := exists_of_bind_ok h
    obtain ⟨ps, -, h⟩ := exists_of_bind_ok h
    cases h
    exact plain.2.2.1.1 rfl
  · cases h

theorem wellNamed_method {m : Method} (h : method file t = .ok m) (plain : t.PlainIdentifiers) :
    m.WellNamed := by
  unfold method at h
  split at h
  · obtain ⟨sig, read, h⟩ := exists_of_bind_ok h
    obtain ⟨body, -, h⟩ := exists_of_bind_ok h
    cases h
    exact Method.wellNamed_ofVersion (word_signature read plain.2.1)
  · cases h

theorem wellNamed_traitAtom {e : TraitExpr} (h : traitAtom file t = .ok e)
    (plain : t.PlainIdentifiers) : e.WellNamed := by
  unfold traitAtom at h
  split at h
  · obtain ⟨ms, read, h⟩ := exists_of_bind_ok h
    cases h
    have methods := ParseTree.plainIdentifiersAll_iff.1 plain.2
    exact forall_of_mapM_ok (fun t mem m h => wellNamed_method h (methods t mem)) read
  · cases h
    trivial
  · cases h

theorem wellNamed_traitOp {base e : TraitExpr} (h : traitOp file base t = .ok e)
    (plain : t.PlainIdentifiers) (start : base.WellNamed) : e.WellNamed := by
  unfold traitOp at h
  split at h
  case h_1 | h_2 =>
    obtain ⟨extra, read, h⟩ := exists_of_bind_ok h
    cases h
    exact ⟨start, wellNamed_traitAtom read plain.2.1⟩
  case h_3 =>
    obtain ⟨sigs, -, h⟩ := exists_of_bind_ok h
    cases h
    exact start
  case h_4 => cases h

theorem wellNamed_traitExpr {e : TraitExpr} (h : traitExpr file t = .ok e)
    (plain : t.PlainIdentifiers) : e.WellNamed := by
  unfold traitExpr at h
  split at h
  · obtain ⟨base, read, h⟩ := exists_of_bind_ok h
    have ops := ParseTree.plainIdentifiersAll_iff.1 plain.2.2
    exact of_foldlM_ok (P := TraitExpr.WellNamed)
      (fun t mem _ _ h => wellNamed_traitOp h (ops t mem)) h (wellNamed_traitAtom read plain.2.1)
  · cases h

theorem wellNamed_traitUse {u : TraitUse} (h : traitUse file t = .ok u)
    (plain : t.PlainIdentifiers) : u.WellNamed := by
  unfold traitUse at h
  split at h
  case h_1 =>
    obtain ⟨e, read, h⟩ := exists_of_bind_ok h
    cases h
    exact wellNamed_traitExpr read plain.2.1.2.1
  case h_2 =>
    obtain ⟨sigs, -, h⟩ := exists_of_bind_ok h
    cases h
    trivial
  case h_3 =>
    obtain ⟨e, read, h⟩ := exists_of_bind_ok h
    cases h
    exact wellNamed_traitExpr read plain.2.1
  case h_4 => cases h

theorem wellNamed_trait {d : TraitDecl} (h : trait file t = .ok d) (plain : t.PlainIdentifiers) :
    d.WellNamed := by
  unfold trait at h
  split at h
  · obtain ⟨x, read, h⟩ := exists_of_bind_ok h
    cases h
    exact ⟨plain.2.1.1 rfl, wellNamed_traitExpr read plain.2.2.1⟩
  · cases h

/-! ### Classes -/

theorem wellNamed_classPart {c c' : ClassDecl} (h : classPart file c t = .ok c')
    (plain : t.PlainIdentifiers) (start : c.WellNamed) : c'.WellNamed := by
  unfold classPart at h
  split at h
  case h_1 =>
    obtain ⟨ps, -, h⟩ := exists_of_bind_ok h
    cases h
    exact { start with }
  case h_2 =>
    cases h
    exact { start with }
  case h_3 | h_4 =>
    split at h
    · cases h
    · obtain ⟨b, -, h⟩ := exists_of_bind_ok h
      cases h
      exact { start with }
  case h_5 =>
    obtain ⟨u, read, h⟩ := exists_of_bind_ok h
    cases h
    have last := List.forall_mem_singleton.2 (wellNamed_traitUse read plain)
    exact { start with uses := List.forall_mem_append.2 ⟨start.uses, last⟩ }
  case h_6 =>
    obtain ⟨m, read, h⟩ := exists_of_bind_ok h
    cases h
    have last := List.forall_mem_singleton.2 (wellNamed_method read plain)
    exact { start with methods := List.forall_mem_append.2 ⟨start.methods, last⟩ }
  case h_7 =>
    obtain ⟨f, -, h⟩ := exists_of_bind_ok h
    cases h
    exact { start with }
  case h_8 => cases h

theorem wellNamed_cls {c : ClassDecl} (h : cls file t = .ok c) (plain : t.PlainIdentifiers) :
    c.WellNamed := by
  unfold cls at h
  split at h
  · have parts := ParseTree.plainIdentifiersAll_iff.1 plain.2.2
    refine of_foldlM_ok (P := ClassDecl.WellNamed)
      (fun t mem _ _ h => wellNamed_classPart h (parts t mem)) h ⟨plain.2.1.1 rfl, ?_, ?_⟩
    · exact fun _ mem => absurd mem List.not_mem_nil
    · exact fun _ mem => absurd mem List.not_mem_nil
  · cases h

/-! ### Deltas -/

theorem wellNamed_classModifierPart {mod mod' : ClassModifier}
    (h : classModifierPart file mod t = .ok mod') (plain : t.PlainIdentifiers)
    (start : ∀ op ∈ mod.ops, op.WellNamed) : ∀ op ∈ mod'.ops, op.WellNamed := by
  have added {op : ClassOp} (h : classModifierPart.add mod op = .ok mod')
      (wellNamed : op.WellNamed) :
      ∀ op ∈ mod'.ops, op.WellNamed := by
    cases h
    exact List.forall_mem_append.2 ⟨start, List.forall_mem_singleton.2 wellNamed⟩
  unfold classModifierPart at h
  split at h
  case h_1 =>
    cases h
    exact start
  case h_2 =>
    obtain ⟨m, read, h⟩ := exists_of_bind_ok h
    exact added h (wellNamed_method read plain.2.1)
  case h_3 =>
    obtain ⟨f, -, h⟩ := exists_of_bind_ok h
    exact added h trivial
  case h_4 =>
    obtain ⟨m, read, h⟩ := exists_of_bind_ok h
    exact added h (wellNamed_method read plain.2.1)
  case h_5 =>
    obtain ⟨sig, -, h⟩ := exists_of_bind_ok h
    exact added h trivial
  case h_6 => exact added h trivial
  case h_7 =>
    obtain ⟨u, read, h⟩ := exists_of_bind_ok h
    exact added h (wellNamed_traitUse read plain)
  case h_8 => cases h

theorem wellNamed_deltaPart {d d' : DeltaDecl} (h : deltaPart file d t = .ok d')
    (plain : t.PlainIdentifiers) (start : (Decl.delta d).WellNamed) :
    (Decl.delta d').WellNamed := by
  have added {op : DeltaOp} (h : deltaPart.add d op = .ok d') (wellNamed : op.WellNamed) :
      (Decl.delta d').WellNamed := by
    cases h
    exact List.forall_mem_append.2 ⟨start, List.forall_mem_singleton.2 wellNamed⟩
  unfold deltaPart at h
  split at h
  -- Clauses leave the operations as they are.
  case h_1 | h_2 | h_4 =>
    cases h
    exact start
  case h_3 =>
    obtain ⟨c, -, h⟩ := exists_of_bind_ok h
    cases h
    exact start
  case h_5 =>
    obtain ⟨i, -, h⟩ := exists_of_bind_ok h
    exact added h trivial
  case h_6 =>
    obtain ⟨c, read, h⟩ := exists_of_bind_ok h
    exact added h (wellNamed_cls read plain.2.1)
  case h_7 =>
    obtain ⟨tr, read, h⟩ := exists_of_bind_ok h
    exact added h (wellNamed_trait read plain.2.1)
  case h_8 | h_9 | h_10 => exact added h trivial
  case h_11 =>
    obtain ⟨mod, read, h⟩ := exists_of_bind_ok h
    have parts := ParseTree.plainIdentifiersAll_iff.1 plain.2.2
    refine added h ?_
    exact of_foldlM_ok (P := fun mod : ClassModifier => ∀ op ∈ mod.ops, op.WellNamed)
      (fun t mem _ _ h => wellNamed_classModifierPart h (parts t mem)) read
      fun _ mem => absurd mem List.not_mem_nil
  case h_12 =>
    obtain ⟨ops, -, h⟩ := exists_of_bind_ok h
    exact added h trivial
  case h_13 =>
    obtain ⟨e, read, h⟩ := exists_of_bind_ok h
    exact added h (wellNamed_traitExpr read plain.2.2.1)
  case h_14 => cases h

theorem wellNamed_delta {d : DeltaDecl} (h : delta file t = .ok d) (plain : t.PlainIdentifiers) :
    (Decl.delta d).WellNamed := by
  unfold delta at h
  split at h
  · have parts := ParseTree.plainIdentifiersAll_iff.1 plain.2.2
    exact of_foldlM_ok (P := fun d => (Decl.delta d).WellNamed)
      (fun t mem d d' h => wellNamed_deltaPart h (parts t mem)) h fun t mem => by cases mem
  · cases h

/-! ### Modules and units -/

theorem wellNamed_decl {d : Decl} (h : decl file t = .ok d) (plain : t.PlainIdentifiers) :
    d.WellNamed := by
  unfold decl at h
  split at h
  case h_1 | h_5 =>
    obtain ⟨x, -, h⟩ := exists_of_bind_ok h
    cases h
    trivial
  case h_2 =>
    obtain ⟨c, read, h⟩ := exists_of_bind_ok h
    cases h
    exact wellNamed_cls read plain
  case h_3 =>
    obtain ⟨tr, read, h⟩ := exists_of_bind_ok h
    cases h
    exact wellNamed_trait read plain
  case h_4 =>
    obtain ⟨de, read, h⟩ := exists_of_bind_ok h
    cases h
    exact wellNamed_delta read plain
  case h_6 => cases h

theorem wellNamed_module? {m : Module} (h : module? file t = .ok (some m))
    (plain : t.PlainIdentifiers) : ∀ d ∈ m.decls, d.WellNamed := by
  unfold module? at h
  split at h
  · obtain ⟨ds, read, h⟩ := exists_of_bind_ok h
    cases h
    have decls := ParseTree.plainIdentifiersAll_iff.1 plain.2.2
    exact forall_of_mapM_ok (fun t mem d h => wellNamed_decl h (decls t mem)) read
  · cases h
  · cases h

theorem wellNamed_unit {u : CompilationUnit} (h : unit file t = .ok u)
    (plain : t.PlainIdentifiers) : ∀ m ∈ u.modules, ∀ d ∈ m.decls, d.WellNamed := by
  unfold unit at h
  split at h
  · obtain ⟨ms, read, h⟩ := exists_of_bind_ok h
    cases h
    have modules := ParseTree.plainIdentifiersAll_iff.1 plain.2
    exact forall_of_filterMapM_ok (fun t mem m h => wellNamed_module? h (modules t mem)) read
  · cases h

end Elaborate

/-! ## Models -/

theorem plainIdentifiers_parseTree {file : Option String} {text : String} {t : ParseTree Rule}
    (h : parseTree file text = .ok t) : t.PlainIdentifiers := by
  unfold parseTree at h
  dsimp only at h
  split at h
  · rename_i matched
    obtain rfl := Except.ok.inj h
    exact (Concrete.plainIdentifiersAll_of_match? matched).1
  · cases h
  · cases h

theorem wellNamed_parseUnit {file : Option String} {text : String} {u : CompilationUnit}
    (h : parseUnit file text = .ok u) : ∀ m ∈ u.modules, ∀ d ∈ m.decls, d.WellNamed := by
  obtain ⟨t, read, h⟩ := exists_of_bind_ok h
  split at h
  · rename_i built
    cases h
    exact Elaborate.wellNamed_unit built (plainIdentifiers_parseTree read)
  · cases h

/-- The traits of a model that is read from texts have plain names. -/
theorem plainTraits_readUnits (sources : List SourceText) (standardLibrary : Bool) :
    (Model.mk (readUnits sources standardLibrary).1).PlainTraits := by
  intro m mem
  obtain ⟨u, hu, hm⟩ := List.mem_flatMap.1 mem
  obtain ⟨parsed, listed, ok⟩ := List.mem_filterMap.1 hu
  have parsed_eq : ∃ file text, parsed = parseUnit file text := by
    rcases List.mem_append.1 listed with mem | mem
    · cases standardLibrary with
      | true => exact ⟨some standardFile, standardText, List.mem_singleton.1 mem⟩
      | false => cases mem
    · obtain ⟨s, -, eq⟩ := List.mem_map.1 mem
      exact ⟨s.file, s.text, eq.symm⟩
  obtain ⟨file, text, rfl⟩ := parsed_eq
  cases read : parseUnit file text with
  | error err =>
    rw [read] at ok
    cases ok
  | ok u' =>
    rw [read] at ok
    obtain rfl := Option.some.inj ok
    exact fun d hd => (wellNamed_parseUnit read m hm d hd).plainTraits

end DeltaLang
