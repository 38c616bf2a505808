import DeltaLang.Proofs.Delta.Alike
import DeltaLang.Proofs.Delta.Listed
import DeltaLang.Proofs.Delta.Plain

/-!
# Deriving a product in stages

A product can be derived in two stages: where the first makes no findings and the second leaves the
traits alone, applying the deltas of the second stage to the composed classes of the first yields
what applying all deltas at once does.  The traits have to be told apart by their qualified names:
composing classes, a resolver takes traits of one such name for one another, while a delta only
looks at the traits of the class that it modifies.
-/

namespace DeltaLang

/-! ## Classes composed without findings -/

namespace SymbolTable

variable {t : SymbolTable} {module : String} {c : ClassDecl} {r : Resolver}

theorem findings_applyUse (t : SymbolTable) (module : String) (acc : Resolved) (u : TraitUse) :
    ∃ ds, (t.applyUse module acc u).findings = acc.findings ++ ds := by
  cases u with
  | adds x => exact ⟨_, List.append_assoc _ _ _⟩
  | modifies x => exact ⟨_, rfl⟩
  | removes sigs => exact ⟨_, rfl⟩

/-- A class composed without findings has methods of distinct names. -/
theorem nodup_of_clean (clean : (t.composeClass module c r).findings = []) :
    (c.methods.map (·.name)).Nodup := by
  have folded (us : List TraitUse) (acc : Resolved)
      (clean : (us.foldl (t.applyUse module) acc).findings = []) : acc.findings = [] := by
    induction us generalizing acc with
    | nil => exact clean
    | cons u us ih =>
      obtain ⟨ds, findings⟩ := t.findings_applyUse module acc u
      exact (List.append_eq_nil_iff.1 (findings.symm.trans (ih _ clean))).1
  have own := folded c.uses _ (List.append_eq_nil_iff.1 clean).1
  have distinct := MethodSet.nodup_of_insertAll (s := .empty) own
  simpa [MethodSet.empty, MethodSet.names] using distinct

/-- Applying its clauses to a class is what composing it without findings does. -/
theorem applied_composedClass (full : r.Full t)
    (clean : (t.composeClass module c r).findings = []) :
    t.applied module r c = t.applied module r (t.composedClass r module c) := by
  have composed : t.applyUses module (t.composedClass r module c) r =
      ⟨(t.composeClass module c r).set, [], r⟩ :=
    applyUses_of_plain rfl (t.composeClass module c r).set.distinct
  have findings : (t.applyUses module c r).findings = [] := (List.append_eq_nil_iff.1 clean).1
  have resolver : (t.applyUses module c r).resolver = r :=
    composeClass_resolver_of_full full module c
  have used : t.applyUses module c r = ⟨(t.composeClass module c r).set, [], r⟩ := calc
    t.applyUses module c r = ⟨(t.applyUses module c r).set, (t.applyUses module c r).findings,
      (t.applyUses module c r).resolver⟩ := rfl
    _ = ⟨(t.composeClass module c r).set, [], r⟩ := by
      rw [findings, resolver]
      rfl
  rw [applied, applied, used, composed]
  rfl

end SymbolTable

namespace Model

variable {m : Model}

/-- A model composed without findings is alike to the composed one. -/
theorem alike_composeClasses (clean : m.composeClasses.findings = []) :
    m.Alike (.ofModel m) m.resolver m.composeClasses.model := by
  have composed := composeClasses_eq_of_sameTraits (m := m) (t := .ofModel m) rfl
  rw [composed] at clean ⊢
  have classes := (List.append_eq_nil_iff.1 clean).2
  have unplaced : ((m.classEntries.map Entry.unplaced).flatMap fun e =>
      ((SymbolTable.ofModel m).composeClass e.module e.decl m.resolver).findings) = [] := by
    rw [List.flatMap_map]
    exact classes
  rw [classEntries, unplaced_entries, List.flatMap_eq_nil_iff] at unplaced
  refine related_mapModules fun mod hmod => ⟨rfl, rfl, ?_⟩
  rw [Module.compose, List.forall₂_map_right_iff, List.forall₂_same]
  intro d hd
  cases d with
  | «class» c =>
    have clean := unplaced ⟨default, mod.name, c.name, c⟩ (List.mem_flatMap.2
      ⟨mod, hmod, List.mem_filterMap.2 ⟨.class c, hd, rfl⟩⟩)
    exact .applied (SymbolTable.nodup_of_clean clean) (MethodSet.distinct _)
      (SymbolTable.applied_composedClass m.resolver_full clean)
  | _ => exact .same _

/-- The traits of a model composed without findings are settled. -/
theorem settled_of_clean (keys : (SymbolTable.ofModel m).DistinctKeys)
    (clean : m.composeClasses.findings = []) :
    (SymbolTable.ofModel m).Settled ∧ m.resolver.Ready (.ofModel m) := by
  rw [composeClasses_eq] at clean
  have traits := (List.append_eq_nil_iff.1 clean).1
  exact ⟨SymbolTable.settled_of_clean keys traits, SymbolTable.ready_resolveTraits keys traits⟩

/-! ## Two stages -/

/-- Deriving a product with some deltas, and from it one with further deltas that leave the traits
alone, derives what all these deltas do, or fails for the same reasons, if the traits of the first
product are told apart by their qualified names. -/
theorem flatten_append {names names' : List String} {product product' : Option String}
    {f : Flattened} {es all : List (Entry DeltaDecl)}
    (first : m.flatten ⟨product', names⟩ = .ok f) (clean : f.findings = [])
    (keys : (SymbolTable.ofModel f.model).DistinctKeys)
    (valid : m.validateDeltas names' = .ok es)
    (validAll : m.validateDeltas (names ++ names') = .ok all)
    (leaves : ∀ e ∈ es, e.decl.LeavesTraits) :
    m.flatten ⟨product, names ++ names'⟩ = f.model.flatten ⟨product, names'⟩ := by
  obtain ⟨es₁, d, validFirst, derived, rfl⟩ := exists_derived_of_flatten first
  have alike := alike_composeClasses clean
  obtain ⟨settled, ready⟩ := settled_of_clean (alike.sameTraits.symm.distinctKeys keys) clean
  have deltas : m.deltaEntries.map Entry.unplaced =
      d.composeClasses.model.deltaEntries.map Entry.unplaced :=
    (deltaEntries_applyDeltas derived).symm.trans (alike.unplaced_entries fun _ => rfl)
  obtain ⟨es', valid', same⟩ := validateDeltas_congr deltas valid
  have agree := applyDeltas_agree settled ready same leaves alike rfl
  rw [flatten_of_valid validAll, flatten_of_valid valid',
    eq_append_of_valid validFirst valid validAll, applyDeltas_append, derived, Except.bind]
  generalize d.applyDeltas es = x, d.composeClasses.model.applyDeltas es' = x' at agree
  cases agree with
  | ok related => exact congrArg Except.ok (related.1.composeClasses related.2)
  | error ds => rfl

/-! ## A program derived in two stages -/

/-- Lets a class use a trait. -/
def useDelta : DeltaDecl :=
  ⟨"A", none, [], [], none,
    [.modifyClass ⟨"C", [], [.addUse (.adds (.ref "T" none))], none⟩], none⟩

/-- Modifies the method that the trait gives the class. -/
def modifyDelta : DeltaDecl :=
  ⟨"B", none, [], [], none, [.modifyClass ⟨"C", [], [.modifyMethod default], none⟩], none⟩

/-- A trait, a class and two deltas. -/
def stagedModel : Model :=
  ⟨[⟨none, [⟨"M", [.trait ⟨"T", .set [default], none⟩,
    .class { (default : ClassDecl) with name := "C" }, .delta useDelta, .delta modifyDelta],
    none⟩]⟩]⟩

theorem flatten_append_stagedModel :
    ∃ f, stagedModel.flatten ⟨none, ["A"]⟩ = .ok f ∧ f.findings = [] ∧
      stagedModel.flatten ⟨none, ["A"] ++ ["B"]⟩ = f.model.flatten ⟨none, ["B"]⟩ := by
  have plain : stagedModel.PlainTraits := by
    simp [PlainTraits, modules, stagedModel, Decl.PlainTraits, PlainName, useDelta, modifyDelta]
  obtain ⟨es, valid⟩ : ∃ es, stagedModel.validateDeltas ["B"] = .ok es :=
    exists_of_isOk (by decide +kernel)
  obtain ⟨all, validAll⟩ : ∃ es, stagedModel.validateDeltas (["A"] ++ ["B"]) = .ok es :=
    exists_of_isOk (by decide +kernel)
  obtain ⟨f, first⟩ : ∃ f, stagedModel.flatten ⟨none, ["A"]⟩ = .ok f :=
    exists_of_isOk (by decide +kernel)
  have clean : (stagedModel.flatten ⟨none, ["A"]⟩).toOption.map (·.findings) = some [] := by
    decide +kernel
  rw [first] at clean
  have leaves : ∀ e ∈ stagedModel.deltaEntries, e.decl.LeavesTraits := by
    unfold DeltaDecl.LeavesTraits
    decide +kernel
  exact ⟨f, first, Option.some.inj clean, flatten_append first (Option.some.inj clean)
    (plain.distinctKeys_of_flatten first) valid validAll
    fun e mem => leaves e (mem_deltaEntries_of_valid valid mem)⟩

/-- Where a class uses one of two traits of one qualified name, a delta that removes the method of
this trait is applied to the class as it is written, and fails on the class that was composed, since
this has the methods of the other trait. -/
theorem flatten_append_fails_overlappingModel :
    let method : Method := .ofVersion { (default : Version) with
      sig := { (default : Signature) with name := "m" } }
    let c : ClassDecl := { (default : ClassDecl) with
      name := "C", uses := [.adds (.ref "T" none)] }
    let removal : DeltaDecl := ⟨"B", none, [], [], none,
      [.modifyClass ⟨"C", [], [.removeMethod method.sig], none⟩], none⟩
    let m := overlappingModel (.set []) (.set [method]) [.class c, .delta removal]
    (m.validateDeltas ([] ++ ["B"])).isOk ∧
      (∃ es, m.validateDeltas ["B"] = .ok es ∧ ∀ e ∈ es, e.decl.LeavesTraits) ∧
      ∃ f, m.flatten ⟨none, []⟩ = .ok f ∧ f.findings = [] ∧
        (m.flatten ⟨none, [] ++ ["B"]⟩).isOk ∧ ¬ (f.model.flatten ⟨none, ["B"]⟩).isOk := by
  intro method c removal m
  obtain ⟨es, valid⟩ : ∃ es, m.validateDeltas ["B"] = .ok es := exists_of_isOk (by decide +kernel)
  have leaves : ∀ e ∈ m.deltaEntries, e.decl.LeavesTraits := by
    unfold DeltaDecl.LeavesTraits
    decide +kernel
  have listed : ∀ e ∈ es, e.decl.LeavesTraits := fun e mem =>
    leaves e (mem_deltaEntries_of_valid valid mem)
  exact ⟨by decide +kernel, ⟨es, valid, listed⟩, m.composeClasses, rfl, by decide +kernel,
    by decide +kernel, by decide +kernel⟩

end Model

end DeltaLang
