import DeltaLang.Proofs.Trait.Denotes

/-!
# Settled traits

Where resolving all traits makes no findings, every expression denotes a set.  So the methods of
a composed class do not depend on what is known when it is composed.
-/

namespace DeltaLang

namespace Resolver

/-- What is known is sound, and no trait is being resolved. -/
structure Ready (t : SymbolTable) (r : Resolver) : Prop where
  sound : r.Sound t
  idle : r.visiting = []

theorem ready_fresh (t : SymbolTable) : fresh.Ready t := ⟨sound_fresh t, rfl⟩

end Resolver

namespace SymbolTable

/-- Every trait that a name can mean denotes a set. -/
structure Settled (t : SymbolTable) : Prop where
  distinct : t.DistinctKeys
  denotes : ∀ {e : Entry TraitDecl}, t.IsFirst e → ∃ n s, t.TraitDenotes n e s

variable {t : SymbolTable}

/-! ## Resolving all traits -/

/-- A trait that names cannot mean follows one of its qualified name. -/
theorem exists_of_not_isFirst {front back : List (Entry TraitDecl)} {e : Entry TraitDecl}
    (traits : t.traits = front ++ e :: back) (h : ¬ t.IsFirst e) :
    ∃ e' ∈ front, e'.qualifiedName = e.qualifiedName := by
  rw [IsFirst, traits, List.find?_append] at h
  cases found : front.find? (fun e' => e'.name == e.name && e'.module == e.module) with
  | none => simp [found] at h
  | some e' =>
    have same := List.find?_some found
    rw [Bool.and_eq_true, beq_iff_eq, beq_iff_eq] at same
    refine ⟨e', List.mem_of_find?_eq_some found, ?_⟩
    rw [Entry.qualifiedName, Entry.qualifiedName, same.1, same.2]

/-- Resolving one trait after those before it keeps the knowledge sound. -/
theorem ready_resolveTrait (distinct : t.DistinctKeys) {front back : List (Entry TraitDecl)}
    {e : Entry TraitDecl} (traits : t.traits = front ++ e :: back) {r : Resolver}
    (ready : r.Ready t) (known : ∀ e' ∈ front, (r.memo.lookup e'.qualifiedName).isSome)
    (clean : (t.resolveTrait e r).findings = []) : (t.resolveTrait e r).resolver.Ready t := by
  have extended := t.resolveDeclared_extends t.traitDepth e r
  refine ⟨?_, extended.visiting.trans ready.idle⟩
  by_cases first : t.IsFirst e
  · exact (resolveDeclared_denotes distinct first ready.sound
      (by rw [traitDepth]; omega) clean).2
  · obtain ⟨e', mem, key⟩ := exists_of_not_isFirst traits first
    obtain ⟨s, found⟩ := Option.isSome_iff_exists.1 (known e' mem)
    rw [key] at found
    simp only [resolveTrait, traitDepth, resolveDeclared, ready.idle, List.not_mem_nil, if_false,
      found]
    exact ready.sound

theorem ready_resolveTraits (distinct : t.DistinctKeys)
    (clean : (Model.resolveTraits t .fresh).2 = []) :
    (Model.resolveTraits t .fresh).1.Ready t := by
  let next (st : Resolver × Diagnostics) (e : Entry TraitDecl) : Resolver × Diagnostics :=
    ((t.resolveTrait e st.1).resolver, st.2 ++ (t.resolveTrait e st.1).findings)
  -- As long as there are no findings, the traits resolved so far are known.
  suffices h : ∀ (back front : List (Entry TraitDecl)) (st : Resolver × Diagnostics),
      t.traits = front ++ back →
      (st.2 = [] → st.1.Ready t ∧ ∀ e ∈ front, (st.1.memo.lookup e.qualifiedName).isSome) →
      (back.foldl next st).2 = [] → (back.foldl next st).1.Ready t by
    exact h t.traits [] (.fresh, []) rfl (fun _ => ⟨Resolver.ready_fresh t, by simp⟩) clean
  intro back
  induction back with
  | nil => exact fun front st _ known clean => (known clean).1
  | cons e back ih =>
    intro front st traits known clean
    refine ih (front ++ [e]) (next st e) (by rw [traits, List.append_assoc]; rfl) ?_ clean
    intro clean
    obtain ⟨before, clean⟩ := List.append_eq_nil_iff.1 clean
    obtain ⟨ready, known⟩ := known before
    refine ⟨ready_resolveTrait distinct traits ready known clean, fun e' mem => ?_⟩
    rcases List.mem_append.1 mem with mem | mem
    · obtain ⟨s, found⟩ := Option.isSome_iff_exists.1 (known e' mem)
      exact Option.isSome_iff_exists.2
        ⟨s, (t.resolveDeclared_extends t.traitDepth e st.1).lookup found⟩
    · rw [List.mem_singleton.1 mem]
      exact t.known_resolveTrait ready.idle

theorem settled_of_clean (distinct : t.DistinctKeys)
    (clean : (Model.resolveTraits t .fresh).2 = []) : t.Settled where
  distinct := distinct
  denotes first := by
    obtain ⟨s, known⟩ := Option.isSome_iff_exists.1 (t.resolveTraits_full.known _ first.mem)
    obtain ⟨n, denotes⟩ := (ready_resolveTraits distinct clean).sound.known first known
    exact ⟨n, s, denotes⟩

/-! ## Where traits are settled -/

/-- An expression denotes a set if the traits that it refers to do; and what holds of how deep these
nest, in a reference, holds of how deep all nests. -/
theorem exists_denotes_of_references {module : Option String} {x : TraitExpr} {Q : Nat → Prop}
    (flat : Q 0) (deeper : ∀ {k n}, Q k → Q n → Q (max k n))
    (each : ∀ name ∈ x.references, ∀ e, t.traits.resolve module name = .ok e →
      ∃ n s, t.TraitDenotes n e s ∧ Q (n + 1)) : ∃ n s, t.Denotes n module x s ∧ Q n := by
  induction x with
  | ref name loc =>
    cases found : t.traits.resolve module name with
    | ok e =>
      obtain ⟨n, s, denotes, nests⟩ := each name (List.mem_singleton_self name) e found
      exact ⟨n + 1, s, .declared found denotes, nests⟩
    | error err => exact ⟨0, .empty, .undeclared found, flat⟩
  | set ms => exact ⟨0, _, .set module ms, flat⟩
  | adds base extra ihBase ihExtra =>
    obtain ⟨k, s, first, nests⟩ := ihBase fun name mem => each name (List.mem_append_left _ mem)
    obtain ⟨n, s', second, nests'⟩ :=
      ihExtra fun name mem => each name (List.mem_append_right _ mem)
    exact ⟨max k n, _, .adds first second, deeper nests nests'⟩
  | modifies base extra ihBase ihExtra =>
    obtain ⟨k, s, first, nests⟩ := ihBase fun name mem => each name (List.mem_append_left _ mem)
    obtain ⟨n, s', second, nests'⟩ :=
      ihExtra fun name mem => each name (List.mem_append_right _ mem)
    exact ⟨max k n, _, .modifies first second, deeper nests nests'⟩
  | removes base sigs ih =>
    obtain ⟨n, s, first, nests⟩ := ih each
    exact ⟨n, _, .removes first sigs, nests⟩

namespace Settled

variable (h : t.Settled)

include h

theorem exists_denotes (module : Option String) (x : TraitExpr) :
    ∃ n s, t.Denotes n module x s := by
  obtain ⟨n, s, denotes, -⟩ := exists_denotes_of_references (Q := fun _ => True) trivial
    (fun _ _ => trivial) fun _ _ e (found : t.traits.resolve module _ = .ok e) => by
      obtain ⟨n, s, denotes⟩ := h.denotes (isFirst_of_resolve found)
      exact ⟨n, s, denotes, trivial⟩
  exact ⟨n, s, denotes⟩

/-- Resolving an expression finds the same set, whatever is known. -/
theorem exists_resolveExpr (module : Option String) (x : TraitExpr) :
    ∃ s, ∀ r : Resolver, r.Ready t →
      (t.resolveExpr module x r).set = s ∧ (t.resolveExpr module x r).resolver.Ready t := by
  obtain ⟨n, s, denotes⟩ := h.exists_denotes module x
  refine ⟨s, fun r ready => ?_⟩
  have visiting := (t.resolveExprWith_extends t.traitDepth module x r).visiting
  obtain ⟨set, sound⟩ := denotes.set_resolveExprWith h.distinct t.traitDepth ready.sound
    (by rw [traitDepth]; omega) (by simp [Above, ready.idle])
  exact ⟨set, sound, visiting.trans ready.idle⟩

/-- The methods that a class has once composed do not depend on what is known. -/
theorem set_composeClass {r r' : Resolver} (ready : r.Ready t) (ready' : r'.Ready t)
    (module : String) (c : ClassDecl) :
    (t.composeClass module c r).set = (t.composeClass module c r').set := by
  suffices folded : ∀ (us : List TraitUse) (a b : Resolved), a.set = b.set →
      a.resolver.Ready t → b.resolver.Ready t →
      (us.foldl (t.applyUse module) a).set = (us.foldl (t.applyUse module) b).set by
    exact folded c.uses _ _ rfl ready ready'
  intro us
  induction us with
  | nil => exact fun a b set _ _ => set
  | cons u us ih =>
    intro a b set ready ready'
    cases u with
    | adds x | modifies x =>
      obtain ⟨s, found⟩ := h.exists_resolveExpr (some module) x
      obtain ⟨extra, kept⟩ := found a.resolver ready
      obtain ⟨extra', kept'⟩ := found b.resolver ready'
      refine ih _ _ ?_ kept kept'
      simp only [applyUse, Resolved.andThen, set, extra, extra']
    | removes sigs =>
      refine ih _ _ ?_ ready ready'
      simp only [applyUse, Resolved.andThen, set]

end Settled

end SymbolTable

end DeltaLang
