import DeltaLang.Proofs.Names.Merged
import DeltaLang.Proofs.Trait.Embedding

/-!
# Composing models put together

The traits of a model are resolved alike when a model that it ignores is put in front, and so are
those of the model in front.  So the two together are composed one by one.
-/

namespace DeltaLang

/-! ## What is known after resolving traits -/

namespace SymbolTable

variable {t : SymbolTable} {r : Resolver}

/-- Only traits get known when a trait is resolved. -/
theorem lookup_resolveDeclared_of_ne {depth : Nat} {e : Entry TraitDecl} (mem : e ∈ t.traits)
    {key : String} (unknown : ∀ e ∈ t.traits, e.qualifiedName ≠ key) :
    (t.resolveDeclared depth e r).resolver.memo.lookup key = r.memo.lookup key := by
  induction depth generalizing e r with
  | zero => rfl
  | succ depth ih =>
    rw [resolveDeclared]
    dsimp only
    split
    · rfl
    · cases r.memo.lookup e.qualifiedName with
      | some s => rfl
      | none =>
        have ne : (key == e.qualifiedName) = false := beq_false_of_ne (unknown e mem).symm
        dsimp only
        rw [List.lookup_cons, ne]
        exact t.resolveExprWith_induction (some e.module)
          (R := fun r r' => r'.memo.lookup key = r.memo.lookup key) (fun _ => rfl)
          (fun first second => second.trans first) (fun _ mem _ => ih mem) e.decl.expr
          { r with visiting := r.visiting ++ [e.qualifiedName] }

/-- Only traits get known when all traits are resolved. -/
theorem lookup_resolveTraits_of_ne {key : String}
    (unknown : ∀ e ∈ t.traits, e.qualifiedName ≠ key) :
    (Model.resolveTraits t r).1.memo.lookup key = r.memo.lookup key :=
  List.foldlRecOn (motive := fun st : Resolver × Diagnostics =>
    st.1.memo.lookup key = r.memo.lookup key) t.traits _ rfl fun _ before _ mem =>
      (lookup_resolveDeclared_of_ne mem unknown).trans before

end SymbolTable

namespace Model

open SymbolTable

variable {v m : Model}

theorem Ignores.traitsIn (h : m.Ignores v) :
    (SymbolTable.ofModel m).TraitsIn fun s => ¬v.Declares s := fun e mem n hn =>
  h.decl (mem_traitEntries_iff.1 mem) n (Decl.references_subset (.trait e.decl) hn)

theorem Valid.traitsIn (h : v.Valid) : (SymbolTable.ofModel v).TraitsIn v.Declares :=
  fun e mem n hn => declares_of_resolves (d := .trait e.decl) (h.traits e mem) n hn

/-- The traits of both models are resolved one after the other. -/
theorem resolveTraits_append (v m : Model) :
    resolveTraits (.ofModel (v.append m)) .fresh =
      (m.traitEntries.map (Entry.move (.shift v.units.length))).foldl
        (SymbolTable.ofModel (v.append m)).resolveNext
        ((v.traitEntries.map (Entry.move id)).foldl
          (SymbolTable.ofModel (v.append m)).resolveNext (.fresh, [])) := by
  have split : (SymbolTable.ofModel (v.append m)).traits =
      v.traitEntries.map (Entry.move id) ++
        m.traitEntries.map (Entry.move (.shift v.units.length)) :=
    (narrow_entries_append _ v m).trans (congrArg (· ++ _) (List.map_id _).symm)
  rw [resolveTraits, split, ← List.foldl_append]
  rfl

section

variable (valid : v.Valid) (ignores : m.Ignores v)

include valid ignores

/-- The traits of the first model are resolved as they are without the second. -/
theorem foldl_resolveNext_front :
    v.resolver.Alike (fun _ => True) []
        ((v.traitEntries.map (Entry.move id)).foldl
          (SymbolTable.ofModel (v.append m)).resolveNext (.fresh, [])).1 ∧
      ((v.traitEntries.map (Entry.move id)).foldl
        (SymbolTable.ofModel (v.append m)).resolveNext (.fresh, [])).2 = v.traitFindings :=
  ignores.embeds.foldl_resolveNext valid.traitsIn (fun _ _ => trivial) (List.Subset.refl _)
    (.refl .fresh) []

/-- Of the traits of the first model it is known in both together what is known in it alone. -/
theorem resolver_front :
    v.resolver.Alike (fun key => ∃ e ∈ v.traitEntries, e.qualifiedName = key) []
      (v.append m).resolver := by
  obtain ⟨known, -⟩ := foldl_resolveNext_front valid ignores
  have extended := List.foldlRecOn (motive := fun st : Resolver × Diagnostics =>
      Resolver.Extends ((v.traitEntries.map (Entry.move id)).foldl
        (SymbolTable.ofModel (v.append m)).resolveNext (.fresh, [])).1 st.1)
    (m.traitEntries.map (Entry.move (.shift v.units.length)))
    (SymbolTable.ofModel (v.append m)).resolveNext (.refl _)
    fun _ before e _ => before.trans (resolveDeclared_extends _ _ e _)
  rw [← resolveTraits_append] at extended
  refine ⟨v.resolver_full.visiting, (v.append m).resolver_full.visiting, ?_⟩
  rintro key ⟨e, mem, rfl⟩
  obtain ⟨s, found⟩ := Option.isSome_iff_exists.1 (v.resolver_full.known e mem)
  rw [found]
  exact extended.lookup ((known.lookup _ trivial).trans found)

/-- The traits of the second model are resolved as they are without the first. -/
theorem resolver_back (clean : v.traitFindings = []) :
    m.resolver.Alike (fun key => ¬v.Declares (simpleName key)) [] (v.append m).resolver ∧
      (v.append m).traitFindings = m.traitFindings := by
  obtain ⟨known, found⟩ := foldl_resolveNext_front valid ignores
  have keys : ∀ e ∈ (SymbolTable.ofModel m).traits, ¬v.Declares (simpleName e.qualifiedName) :=
    fun e mem => by
      rw [simpleName_qualifiedName]
      exact ignores.not_declares mem
  -- None of the traits that the first model makes known is one of the second.
  have start : Resolver.Alike (fun key => ¬v.Declares (simpleName key)) [] .fresh
      ((v.traitEntries.map (Entry.move id)).foldl
        (SymbolTable.ofModel (v.append m)).resolveNext (.fresh, [])).1 := by
    refine ⟨rfl, known.right, fun key undeclared => (known.lookup key trivial).trans ?_⟩
    refine lookup_resolveTraits_of_ne fun e mem same => undeclared ?_
    rw [← same, simpleName_qualifiedName]
    exact declares_of_mem_narrow mem
  have rest := (embeds_shift v m).foldl_resolveNext ignores.traitsIn keys (List.Subset.refl _)
    start []
  have none : (v.traitEntries.map (Entry.move id)).foldl
      (SymbolTable.ofModel (v.append m)).resolveNext (.fresh, []) = (_, []) :=
    Prod.ext rfl (found.trans clean)
  rw [resolver, resolver, traitFindings, traitFindings, resolveTraits_append, none]
  exact rest

/-- The classes of both models are composed as they are in each alone. -/
theorem composeClasses_append (quiet : v.composeClasses.findings = []) :
    (v.append m).composeClasses =
      ⟨v.composeClasses.model.append m.composeClasses.model, m.composeClasses.findings⟩ := by
  rw [composeClasses_eq, List.append_eq_nil_iff, List.flatMap_eq_nil_iff] at quiet
  obtain ⟨clean, classes⟩ := quiet
  have front : ∀ e ∈ v.classEntries,
      Resolved.Alike _ [] (v.composition e) ((v.append m).composition e) := fun e mem =>
    ignores.embeds.composeClass valid.traitsIn (fun e mem => ⟨e, mem, rfl⟩) e.module
      (fun u hu x hx n hn => declares_of_resolves (d := .class e.decl)
        ⟨valid.implements e mem, valid.uses e mem⟩ n (ClassDecl.references_of_uses hu hx hn))
      (resolver_front valid ignores)
  obtain ⟨known, found⟩ := resolver_back valid ignores clean
  have back : ∀ e ∈ m.classEntries, Resolved.Alike _ [] (m.composition e)
      ((v.append m).composition (e.move (.shift v.units.length))) := fun e mem =>
    (embeds_shift v m).composeClass ignores.traitsIn
      (fun e mem => by
        rw [simpleName_qualifiedName]
        exact ignores.not_declares mem)
      e.module
      (fun u hu x hx n hn => ignores.decl (mem_classEntries_iff.1 mem) n
        (Decl.references_subset (.class e.decl) (ClassDecl.references_of_uses hu hx hn))) known
  have entries : (v.append m).classEntries = _ := narrow_entries_append Decl.class? v m
  rw [composeClasses_eq, composeClasses_eq, composeClasses_eq, mapClasses_append, found, entries,
    List.flatMap_append, List.flatMap_map]
  refine congrArg₂ Flattened.mk (congrArg₂ append (mapClasses_congr fun e mem => ?_)
    (mapClasses_congr fun e mem => ?_)) (congrArg (_ ++ ·) ?_)
  · rw [composedClass, composedClass, (front e mem).set]
  · rw [composedClass, composedClass, (back e mem).set]
    rfl
  · refine (congrArg₂ (· ++ ·) (List.flatMap_eq_nil_iff.2 fun e mem => ?_)
      (List.flatMap_congr fun e mem => (back e mem).findings)).trans (List.nil_append _)
    exact (front e mem).findings.trans (classes e mem)

end

end Model

end DeltaLang
