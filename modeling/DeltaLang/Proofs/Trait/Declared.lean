import DeltaLang.Proofs.Names.Checked
import DeltaLang.Proofs.Trait.Recursion

/-!
# References of resolved traits

A reference that means nothing is reported when the expression around it is resolved, and a trait
is known only once its expression was resolved.  So where resolving all traits reports no error, all
references of traits mean something.
-/

namespace DeltaLang

namespace SymbolTable

variable {t : SymbolTable} {module : Option String} {x : TraitExpr} {r : Resolver}

/-- The traits that are known only refer to declared ones. -/
def KnowsDeclared (t : SymbolTable) (r : Resolver) : Prop :=
  ∀ e, t.IsFirst e → (r.memo.lookup e.qualifiedName).isSome →
    t.RefersToDeclared (some e.module) e.decl.expr

theorem resolveExprWith_clean {declared : Entry TraitDecl → Resolver → Resolved}
    (step : ∀ e, t.IsFirst e → ∀ r, t.KnowsDeclared r → (declared e r).findings.hasErrors = false →
      t.KnowsDeclared (declared e r).resolver)
    (knows : t.KnowsDeclared r)
    (clean : (t.resolveExprWith declared module x r).findings.hasErrors = false) :
    t.RefersToDeclared module x ∧
      t.KnowsDeclared (t.resolveExprWith declared module x r).resolver := by
  induction x generalizing r with
  | ref name loc =>
    rw [resolveExprWith] at clean ⊢
    cases found : t.traits.resolve module name with
    | ok e =>
      rw [found] at clean
      refine ⟨fun name' mem => ⟨e, ?_⟩, step e (isFirst_of_resolve found) r knows clean⟩
      rw [List.mem_singleton.1 mem, found]
    | error err =>
      rw [found] at clean
      cases err <;> cases clean
  | set ms => exact ⟨fun name mem => absurd mem List.not_mem_nil, knows⟩
  | adds base extra ihBase ihExtra =>
    simp only [resolveExprWith, Resolved.andThen, Diagnostics.hasErrors_append,
      Bool.or_eq_false_iff] at clean ⊢
    obtain ⟨first, kept⟩ := ihBase knows clean.1.1
    obtain ⟨second, kept⟩ := ihExtra kept clean.1.2
    exact ⟨fun name mem => (List.mem_append.1 mem).elim (first name) (second name), kept⟩
  | modifies base extra ihBase ihExtra =>
    simp only [resolveExprWith, Diagnostics.hasErrors_append, Bool.or_eq_false_iff] at clean ⊢
    obtain ⟨first, kept⟩ := ihBase knows clean.1
    obtain ⟨second, kept⟩ := ihExtra kept clean.2
    exact ⟨fun name mem => (List.mem_append.1 mem).elim (first name) (second name), kept⟩
  | removes base sigs ih =>
    simp only [resolveExprWith, Resolved.andThen, Diagnostics.hasErrors_append,
      Bool.or_eq_false_iff] at clean ⊢
    exact ih knows clean.1

theorem resolveDeclared_clean (distinct : t.DistinctKeys) {depth : Nat} {e : Entry TraitDecl}
    (first : t.IsFirst e) (knows : t.KnowsDeclared r)
    (clean : (t.resolveDeclared depth e r).findings.hasErrors = false) :
    t.KnowsDeclared (t.resolveDeclared depth e r).resolver := by
  induction depth generalizing e r with
  | zero => exact knows
  | succ depth ih =>
    by_cases entered : e.qualifiedName ∈ r.visiting
    · rw [resolveDeclared, if_pos entered] at clean
      cases clean
    · cases known : r.memo.lookup e.qualifiedName with
      | some s =>
        rw [resolveDeclared_of_known entered known]
        exact knows
      | none =>
        rw [resolveDeclared_of_unknown entered known] at clean ⊢
        obtain ⟨declared, kept⟩ := resolveExprWith_clean (fun e first r => ih first)
          (r := { r with visiting := r.visiting ++ [e.qualifiedName] }) knows clean
        intro e' first' known'
        dsimp only at known'
        rw [List.lookup_cons] at known'
        split at known'
        · rename_i key
          obtain rfl := first'.eq_of_key_eq distinct first (beq_iff_eq.1 key)
          exact declared
        · exact kept e' first' known'

/-- Where resolving all traits reports no error, all references of traits mean something. -/
theorem traitsDeclared_of_clean (distinct : t.DistinctKeys) (first : ∀ e ∈ t.traits, t.IsFirst e)
    (clean : (Model.resolveTraits t .fresh).2.hasErrors = false) : t.TraitsDeclared := by
  have knows : (Model.resolveTraits t .fresh).2.hasErrors = false →
      t.KnowsDeclared (Model.resolveTraits t .fresh).1 := by
    refine List.foldlRecOn (motive := fun st : Resolver × Diagnostics =>
      st.2.hasErrors = false → t.KnowsDeclared st.1) t.traits _ ?_ fun st ih e mem clean => ?_
    · exact fun _ e _ known => by cases known
    · rw [Diagnostics.hasErrors_append, Bool.or_eq_false_iff] at clean
      exact resolveDeclared_clean distinct (first e mem) (ih clean.1) clean.2
  exact fun e mem => knows clean e (first e mem) (t.resolveTraits_full.known e mem)

end SymbolTable

namespace Model

variable {m : Model}

theorem Distinct.distinctTraits (h : m.Distinct) : m.DistinctTraits where
  modules := h.modules
  traits mod hmod := by
    have differ := List.pairwise_map.1 (h.decls mod hmod)
    rw [Module.traits, List.Nodup, List.pairwise_map, List.pairwise_filterMap]
    refine differ.imp fun {d d'} ne t found t' found' same => ?_
    rw [trait?_eq_some_iff.1 found, trait?_eq_some_iff.1 found'] at ne
    exact ne (Prod.ext rfl same)

/-- All references of the traits of a model mean something if it is composed without errors. -/
theorem traitsDeclared_of_composeClasses (distinct : m.Distinct) (plain : m.PlainTraits)
    (clean : m.composeClasses.findings.hasErrors = false) :
    (SymbolTable.ofModel m).TraitsDeclared := by
  rw [composeClasses_eq, Diagnostics.hasErrors_append, Bool.or_eq_false_iff] at clean
  exact SymbolTable.traitsDeclared_of_clean plain.distinctKeys
    (fun _ mem => distinct.distinctTraits.isFirst mem) clean.1

end Model

end DeltaLang
