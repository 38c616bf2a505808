import DeltaLang.Proofs.Reading.Operands

/-!
# Reading calls

Creations and calls of the replaced version stand where operands stand; calls of methods and reads
of futures follow what they are applied to.  Both are read as they are written if their arguments
are.
-/

namespace DeltaLang

open Grammar Concrete

/-- Nodes of these expressions aside from locations. -/
def YieldsAll (file : Option String) (es : List Expr) (ts : List Elaborate.Tree) : Prop :=
  ∃ es', Elaborate.exprs file ts = .ok es' ∧ Expr.unlocatedAll es' = Expr.unlocatedAll es

/-- Nodes of something that is applied to the first expression and gives the second one. -/
def Extends (file : Option String) (t e : Expr) (ts : List Elaborate.Tree) : Prop :=
  ∀ t', t'.unlocated = t.unlocated →
    ∃ e', Elaborate.suffixes file t' ts = .ok e' ∧ e'.unlocated = e.unlocated

namespace Concrete

theorem Closed.refuses_suffix {rest : List Char} (h : Closed rest) :
    grammar.Refuses suffix .normal rest := by
  cases h <;> exact refuses_of_match? 60 fun _ _ => ⟨_, rfl⟩

section

variable (file : Option String) (loc : Option Location) {gap rest : List Char}
  (blank : ∀ c ∈ gap, Place.isBlank c = true) {as : List Expr}
  (spelled : grammar.Spells argumentList .normal (Expr.inParens gap (Expr.listed gap as)) rest
    (YieldsAll file as))

include blank

theorem head_inParens_ne {d : Char} (text rest : List Char) (visible : Place.isBlank d = false)
    (other : d ≠ '(') : ∀ c ∈ (gap ++ (Expr.inParens gap text ++ rest)).head?, c ≠ d := by
  refine head_blanks blank (fun _ => ne_of_isBlank visible) fun c next => ?_
  obtain rfl := Option.some.inj next
  exact other.symm

theorem nameEnds_inParens (text rest : List Char) :
    NameEnds (gap ++ (Expr.inParens gap text ++ rest)) :=
  NameEnds.blanks blank (nameEnds_cons (by decide))

theorem spells_skip_inParens (text rest : List Char) :
    grammar.Spells .skip .normal gap (Expr.inParens gap text ++ rest) Silent :=
  spells_skip blank (Place.solid_word (w := "(") (by decide) _)

include spelled

theorem spells_original :
    grammar.Spells primary .normal (Expr.written gap (.original as loc)) rest
      (Yields file (.original as loc)) := by
  have earlier : grammar.Refuses (.choice [.rule .newExpr]) .normal
      (Expr.written gap (.original as loc) ++ rest) := by
    show grammar.Refuses _ .normal ('o' :: ("riginal".toList ++
      (gap ++ Expr.inParens gap (Expr.listed gap as)) ++ rest))
    exact refuses_of_match? 60 fun _ _ => ⟨_, rfl⟩
  have token : grammar.Spells (.rule .originalCall) .normal
      (Expr.written gap (.original as loc)) rest
      (NodeOf .originalCall _ (YieldsAll file as)) :=
    (Spells.seq_then (spells_skip_inParens blank _ rest) (spells_lit .normal "original".toList _)
      spelled).rule_normal rfl
  refine earlier.or_choice (Spells.choice (token.imp fun ts node => node.gives ?_))
  rintro pos xs ⟨as', done, same⟩
  refine ⟨.original as' (Elaborate.locate file pos), ?_, ?_⟩
  · show (do return Expr.original (← Elaborate.exprs file xs) (Elaborate.locate file pos)) = _
    rw [done]
    rfl
  · simp only [Expr.unlocated, same]

/-- The class and the arguments of a creation. -/
theorem spells_class {c : String} (named : IsQualifiedName c) :
    grammar.Spells (.seq (.rule .qualifiedName) argumentList) .normal
      (c.toList ++ (gap ++ Expr.inParens gap (Expr.listed gap as))) rest
      (Both (NodeOf .qualifiedName c.toList Silent) (YieldsAll file as)) :=
  Spells.seq (spells_skip_inParens blank _ rest)
    (named.spells (nameEnds_inParens blank _ rest)
      (head_inParens_ne blank _ rest (by decide) (by decide))) spelled

/-- No class is named so that a creation of it would seem to be a local one. -/
theorem spells_created {c : String} (named : IsQualifiedName c) :
    grammar.Spells primary .normal (Expr.written gap (.new c as false loc)) rest
      (Yields file (.new c as false loc)) := by
  have space : ∀ c ∈ ' ' :: gap, Place.isBlank c = true := List.forall_mem_cons.2 ⟨rfl, blank⟩
  have solid : Place.Solid
      (c.toList ++ (gap ++ Expr.inParens gap (Expr.listed gap as)) ++ rest) :=
    Place.solid_append named.solid _ _
  have noLocal : grammar.Refuses (.rule .localKw) .normal
      (c.toList ++ (gap ++ Expr.inParens gap (Expr.listed gap as)) ++ rest) := by
    obtain ⟨first, more, isFirst, split, ended, -⟩ := named.spells_dotted
      (nameEnds_inParens blank (Expr.listed gap as) rest)
      (head_inParens_ne blank _ rest (by decide) (by decide))
    rw [split, List.append_assoc, List.append_assoc, List.append_assoc]
    refine refuses_localKw (isNameChar_of_isIdentifier isFirst) ended fun reserved => ?_
    rw [String.toList_inj] at reserved
    exact notMem_keywords_of_isIdentifier isFirst (by rw [reserved]; decide)
  have cls := (Spells.seq_then (spells_skip_nil solid) noLocal.opt
    (spells_class file blank spelled named) :)
  have token : grammar.Spells (.rule .newExpr) .normal (Expr.written gap (.new c as false loc))
      rest (NodeOf .newExpr _ (Both (NodeOf .qualifiedName c.toList Silent) (YieldsAll file as))) :=
    (Spells.seq_then (spells_skip space solid) (spells_lit .normal "new".toList _)
      cls).rule_normal rfl
  refine Spells.choice (token.imp fun ts node => node.gives ?_)
  rintro pos _ ⟨_, ts, rfl, ⟨pos', _, rfl, rfl⟩, as', done, same⟩
  refine ⟨.new c as' false (Elaborate.locate file pos), ?_, by simp only [Expr.unlocated, same]⟩
  rw [String.ofList_toList]
  show (do return Expr.new c (← Elaborate.exprs file ts) false (Elaborate.locate file pos)) = _
  rw [done]
  rfl

theorem spells_createdLocally {c : String} (named : IsQualifiedName c) :
    grammar.Spells primary .normal (Expr.written gap (.new c as true loc)) rest
      (Yields file (.new c as true loc)) := by
  have space : ∀ c ∈ ' ' :: gap, Place.isBlank c = true := List.forall_mem_cons.2 ⟨rfl, blank⟩
  have solid : Place.Solid
      (c.toList ++ (gap ++ Expr.inParens gap (Expr.listed gap as)) ++ rest) :=
    Place.solid_append named.solid _ _
  have solidLocal : Place.Solid ("local".toList ++ ' ' :: gap ++
      (c.toList ++ (gap ++ Expr.inParens gap (Expr.listed gap as))) ++ rest) := by
    rw [List.append_assoc, List.append_assoc]
    exact Place.solid_word (by decide) _
  have cls := Spells.seq (spells_skip space solid) (spells_localKw (nameEnds_cons rfl)).opt
    (spells_class file blank spelled named)
  rw [← List.append_assoc] at cls
  have token : grammar.Spells (.rule .newExpr) .normal (Expr.written gap (.new c as true loc))
      rest (NodeOf .newExpr _ (Both (NodeOf .localKw "local".toList Silent)
        (Both (NodeOf .qualifiedName c.toList Silent) (YieldsAll file as)))) :=
    (Spells.seq_then (spells_skip space solidLocal) (spells_lit .normal "new".toList _)
      cls).rule_normal rfl
  refine Spells.choice (token.imp fun ts node => node.gives ?_)
  rintro pos _ ⟨_, _, rfl, ⟨_, _, rfl, rfl⟩, _, ts, rfl, ⟨pos', _, rfl, rfl⟩, as', done, same⟩
  refine ⟨.new c as' true (Elaborate.locate file pos), ?_, by simp only [Expr.unlocated, same]⟩
  rw [String.ofList_toList, String.ofList_toList]
  show (do return Expr.new c (← Elaborate.exprs file ts) true (Elaborate.locate file pos)) = _
  rw [done]
  rfl

end

/-! ## What follows -/

theorem refuses_asyncCall (rest : List Char) :
    grammar.Refuses (.rule .asyncCall) .normal ('.' :: rest) :=
  Refuses.rule rfl (refuses_lit_cons (by decide)).cat

theorem extends_call (file : Option String) (loc : Option Location) (async : Bool) {t : Expr}
    {m : String} {as : List Expr} {cs : List Char} {ts : List Elaborate.Tree}
    (node : NodeOf (if async then Rule.asyncCall else .syncCall) cs
      (Both (NodeOf .identifier m.toList Silent) (YieldsAll file as)) ts) :
    Extends file t (.call t m as async loc) ts := by
  obtain ⟨pos, _, rfl, _, ts, rfl, ⟨pos', _, rfl, rfl⟩, as', done, same⟩ := node
  intro t' alike
  refine ⟨.call t' m as' async (Elaborate.locate file pos), ?_,
    by simp only [Expr.unlocated, same, alike]⟩
  have applied : (do
      let as ← Elaborate.exprs file ts
      Elaborate.suffixes file (.call t' m as async (Elaborate.locate file pos)) []) =
      .ok (.call t' m as' async (Elaborate.locate file pos)) := by
    rw [done]
    rfl
  rw [String.ofList_toList]
  cases async <;> exact applied

section

variable (file : Option String) (loc : Option Location) {gap rest : List Char} {m : String}
  {t : Expr} (blank : ∀ c ∈ gap, Place.isBlank c = true) {as : List Expr}
  (spelled : grammar.Spells argumentList .normal (Expr.inParens gap (Expr.listed gap as)) rest
    (YieldsAll file as))

include blank spelled

/-- The name of a method and the arguments of its call. -/
theorem spells_method (id : isIdentifier m = true) :
    grammar.Spells (.seq (.rule .identifier) argumentList) .normal
      (m.toList ++ (gap ++ Expr.inParens gap (Expr.listed gap as))) rest
      (Both (NodeOf .identifier m.toList Silent) (YieldsAll file as)) :=
  Spells.seq (spells_skip_inParens blank _ rest)
    (spells_identifier id (nameEnds_inParens blank _ rest)) spelled

theorem spells_call (id : isIdentifier m = true) (async : Bool) :
    grammar.Spells suffix .normal ((if async then "!" else ".").toList ++
      (gap ++ (m.toList ++ (gap ++ Expr.inParens gap (Expr.listed gap as))))) rest
      (Extends file t (.call t m as async loc)) := by
  have method := spells_method file blank spelled id
  have solid : Place.Solid
      (m.toList ++ (gap ++ Expr.inParens gap (Expr.listed gap as)) ++ rest) :=
    Place.solid_append (solid_of_isIdentifier id) _ _
  have marked (mark : String) := Spells.seq_then (spells_skip blank solid)
    (spells_lit .normal mark.toList _) method
  cases async with
  | true =>
    have token : grammar.Spells (.rule .asyncCall) .normal _ rest _ := (marked "!").rule_normal rfl
    exact Spells.choice (token.imp fun ts => extends_call file loc true)
  | false =>
    have token : grammar.Spells (.rule .syncCall) .normal _ rest _ := (marked ".").rule_normal rfl
    exact (refuses_asyncCall _).orElse
      (Spells.choice (token.imp fun ts => extends_call file loc false))

omit spelled

/-- Where no parenthesis follows, the value of a future is read and no method is called. -/
theorem spells_get (closed : Closed rest) :
    grammar.Spells suffix .normal ".get".toList (gap ++ rest)
      (Extends file t (.get t loc)) := by
  have ended := closed.nameEnds.blanks blank
  have noCall : grammar.Refuses (.rule .syncCall) .normal (".get".toList ++ (gap ++ rest)) := by
    have noArguments : grammar.Refuses argumentList .normal rest :=
      (refuses_lit_of_head (closed.head_ne (by decide))).cat
    have id : isIdentifier "get" = true := by decide
    have method := Spells.refuses_seq (spells_skip blank closed.solid)
      (spells_identifier id ended) noArguments
    exact Refuses.rule rfl (Spells.refuses_seq
      (spells_skip_nil (Place.solid_word (w := "get") (by decide) _))
      (spells_lit .normal ".".toList _) method :)
  have token : grammar.Spells (.rule .getSuffix) .normal ".get".toList (gap ++ rest)
      (NodeOf .getSuffix _ Silent) :=
    (Spells.seq_then (spells_skip_atomic _) (spells_lit .atomic ".".toList _)
      (Spells.seq_then (spells_skip_atomic ([] ++ (gap ++ rest)))
        (spells_lit .atomic "get".toList _) (spells_boundary ended))).rule rfl (by decide)
  have noFuture : grammar.Refuses (.rule .asyncCall) .normal (".get".toList ++ (gap ++ rest)) :=
    refuses_asyncCall _
  refine noFuture.orElse (noCall.orElse (token.imp ?_))
  rintro _ ⟨pos, _, rfl, rfl⟩ t' alike
  exact ⟨.get t' (Elaborate.locate file pos), rfl, by simp only [Expr.unlocated, alike]⟩

omit blank in
theorem expr_postfixExpr {cs : List Char} {e : Expr} {Q : List Elaborate.Tree → Prop}
    (follows : ∀ ts, Q ts → Extends file t e ts) {ts : List Elaborate.Tree}
    (node : NodeOf .postfixExpr cs (Both (Yields file t) Q) ts) : Yields file e ts := by
  refine node.gives ?_
  rintro pos _ ⟨_, ts, rfl, ⟨tree, t', rfl, done, same⟩, further⟩
  obtain ⟨e', done', same'⟩ := follows ts further t' same
  refine ⟨e', ?_, same'⟩
  show (do Elaborate.suffixes file (← Elaborate.expr file tree) ts) = _
  rw [done]
  exact done'

/-- An operand that nothing is applied to. -/
theorem spells_operand {cs : List Char} (solid : Place.Solid rest)
    (stop : grammar.Refuses suffix .normal rest)
    (operand : grammar.Spells primary .normal cs (gap ++ rest) (Yields file t)) :
    grammar.Spells (.rule .postfixExpr) .normal (cs ++ gap) rest (Yields file t) := by
  have body := Spells.seq_blanks (spells_skip blank solid)
    (operand.imp (Q := Both (Yields file t) Silent) fun ts node =>
      ⟨ts, [], (List.append_nil ts).symm, node, rfl⟩) stop.many
  refine (body.rule_normal (r := Rule.postfixExpr) rfl).imp fun ts node =>
    expr_postfixExpr file (Q := Silent) ?_ node
  rintro _ rfl t' same
  exact ⟨t', rfl, same⟩

/-- An operand that one thing is applied to. -/
theorem spells_suffixed {cs cs' : List Char} {e : Expr} (closed : Closed rest)
    (solid : Place.Solid (cs' ++ (gap ++ rest)))
    (operand : grammar.Spells primary .normal cs (gap ++ (cs' ++ (gap ++ rest))) (Yields file t))
    (applied : grammar.Spells suffix .normal cs' (gap ++ rest) (Extends file t e)) :
    grammar.Spells (.rule .postfixExpr) .normal (cs ++ (gap ++ cs')) (gap ++ rest)
      (Yields file e) := by
  have once := applied.many_one
    ((spells_skip blank closed.solid).refuses_cat closed.refuses_suffix)
  have token := (Spells.seq (spells_skip blank solid) operand once).rule_normal
    (r := Rule.postfixExpr) rfl
  exact token.imp fun ts node => expr_postfixExpr file (fun _ further => further) node

end

end Concrete

end DeltaLang
