import DeltaLang.Proofs.Delta.Applied
import DeltaLang.Proofs.Delta.Locality
import Mathlib.Data.List.Flatten

/-!
# Composed models are in normal form

A class is concrete if it has no `uses` clauses and its methods have distinct names.  Composition
makes every class concrete and leaves the concrete ones as they are, whatever is wrong with the
traits.  So what is derived with no deltas is in normal form: deriving again changes nothing, and
repeats only those findings that concern the traits and the methods that are left without an
original.
-/

namespace DeltaLang

/-- Nothing is left to compose: the class has no clauses, and its methods have distinct names. -/
structure ClassDecl.Concrete (c : ClassDecl) : Prop where
  uses : c.uses = []
  distinct : (c.methods.map (·.name)).Nodup

/-! ## Classes -/

namespace SymbolTable

variable {t : SymbolTable} {module : String} {c : ClassDecl} {r : Resolver}

/-- A concrete class has the methods it declares, whatever is known of the traits. -/
theorem composeClass_of_concrete (h : c.Concrete) :
    t.composeClass module c r =
      ⟨⟨c.methods, h.distinct⟩, c.methods.flatMap (unboundOriginals c.name), r⟩ := by
  rw [composeClass_eq, applyUses_of_plain h.uses h.distinct]
  rfl

theorem concrete_composedClass (t : SymbolTable) (r : Resolver) (module : String) (c : ClassDecl) :
    (t.composedClass r module c).Concrete :=
  ⟨rfl, (t.composeClass module c r).set.distinct⟩

/-- Composition leaves exactly the concrete classes as they are. -/
theorem composedClass_eq_self_iff : t.composedClass r module c = c ↔ c.Concrete := by
  constructor
  · intro same
    exact same ▸ t.concrete_composedClass r module c
  · intro concrete
    rw [composedClass, composeClass_of_concrete concrete]
    exact congrArg (fun uses => { c with uses := uses }) concrete.uses.symm

/-- Composing a composed class reports again what was reported last: the methods that are left
without an original. -/
theorem findings_composedClass_sublist (t' : SymbolTable) (r' : Resolver) :
    (t'.composeClass module (t.composedClass r module c) r').findings.Sublist
      (t.composeClass module c r).findings := by
  rw [composeClass_of_concrete (t.concrete_composedClass r module c), composeClass_eq]
  exact List.sublist_append_right _ _

end SymbolTable

/-! ## Models -/

namespace Model

theorem map_eq_self_iff {α : Type} {f : α → α} {l : List α} :
    l.map f = l ↔ ∀ a ∈ l, f a = a := by
  conv_lhs => rhs; rw [← List.map_id l]
  exact List.map_inj_left

variable {m : Model}

theorem mapModules_eq_self_iff {f : Module → Module} :
    m.mapModules f = m ↔ ∀ mod ∈ m.modules, f mod = mod := by
  have ofUnit (u : CompilationUnit) :
      { u with modules := u.modules.map f } = u ↔ ∀ mod ∈ u.modules, f mod = mod := by
    rw [← map_eq_self_iff]
    exact ⟨congrArg CompilationUnit.modules, fun same => congrArg (CompilationUnit.mk u.file) same⟩
  have ofModel : m.mapModules f = m ↔
      m.units.map (fun u => { u with modules := u.modules.map f }) = m.units :=
    ⟨congrArg Model.units, congrArg Model.mk⟩
  simp only [ofModel, map_eq_self_iff, ofUnit, modules, List.mem_flatMap]
  constructor
  · rintro all mod ⟨u, hu, mem⟩
    exact all u hu mod mem
  · exact fun all u hu mod mem => all mod ⟨u, hu, mem⟩

theorem compose_eq_self_iff {t : SymbolTable} {r : Resolver} {mod : Module} :
    mod.compose t r = mod ↔ ∀ c ∈ mod.classes, c.Concrete := by
  have ofModule : mod.compose t r = mod ↔
      mod.decls.map (Decl.mapClass (t.composedClass r mod.name)) = mod.decls :=
    ⟨congrArg Module.decls, congrArg (Module.mk mod.name · mod.loc)⟩
  rw [ofModule, map_eq_self_iff, Module.classes, List.forall_mem_filterMap]
  refine forall₂_congr fun d _ => ?_
  cases d with
  | «class» c =>
    have same : Decl.mapClass (t.composedClass r mod.name) (.class c) = .class c ↔
        t.composedClass r mod.name c = c := ⟨Decl.class.inj, congrArg Decl.class⟩
    simp [same, SymbolTable.composedClass_eq_self_iff, Decl.class?]
  | _ => simp [Decl.mapClass, Decl.class?]

/-- Composition leaves exactly the models as they are that have only concrete classes. -/
theorem composeClasses_eq_self_iff :
    m.composeClasses.model = m ↔ ∀ c ∈ m.classes, c.Concrete := by
  rw [composeClasses_eq_of_sameTraits (t := .ofModel m) rfl]
  simp only [mapModules_eq_self_iff, compose_eq_self_iff, classes, List.mem_flatMap]
  constructor
  · rintro all c ⟨mod, hmod, mem⟩
    exact all mod hmod c mem
  · exact fun all mod hmod c mem => all c ⟨mod, hmod, mem⟩

/-- Composition changes the modules one by one. -/
theorem modules_composeClasses (m : Model) : m.composeClasses.model.modules =
    m.modules.map (Module.compose (.ofModel m) m.resolver) := by
  rw [composeClasses_eq_of_sameTraits (m := m) (t := .ofModel m) rfl]
  simp [Model.modules, mapModules, List.flatMap_map, List.map_flatMap, resolver]

/-- The classes of a composed model are those of its modules, composed. -/
theorem exists_of_mem_classes_composeClasses {c : ClassDecl}
    (mem : c ∈ m.composeClasses.model.classes) :
    ∃ mod ∈ m.modules, ∃ c', Decl.class c' ∈ mod.decls ∧
      (SymbolTable.ofModel m).composedClass m.resolver mod.name c' = c := by
  rw [classes, modules_composeClasses, List.flatMap_map, List.mem_flatMap] at mem
  obtain ⟨mod, hmod, mem⟩ := mem
  obtain ⟨d, hd, found⟩ := List.mem_filterMap.1 mem
  rw [Module.compose, List.mem_map] at hd
  obtain ⟨d, declared, rfl⟩ := hd
  cases d with
  | «class» c' => exact ⟨mod, hmod, c', declared, Option.some.inj found⟩
  | _ => cases found

/-- The classes of a composed model are concrete. -/
theorem concrete_of_mem_classes {c : ClassDecl} (mem : c ∈ m.composeClasses.model.classes) :
    c.Concrete := by
  obtain ⟨mod, -, c', -, rfl⟩ := exists_of_mem_classes_composeClasses mem
  exact SymbolTable.concrete_composedClass _ _ _ c'

/-- Composing a composed model changes nothing. -/
theorem composeClasses_composeClasses (m : Model) :
    m.composeClasses.model.composeClasses.model = m.composeClasses.model :=
  composeClasses_eq_self_iff.2 fun _ mem => concrete_of_mem_classes mem

/-- Composition only changes classes. -/
theorem narrow_entries_composeClasses {α : Type} {f : Decl → Option α}
    (notClass : ∀ c, f (.class c) = none) (m : Model) :
    m.composeClasses.model.entries.filterMap (Entry.narrow f) =
      m.entries.filterMap (Entry.narrow f) := by
  rw [composeClasses_eq, entries_mapClasses, List.filterMap_map]
  refine List.filterMap_congr fun e _ => ?_
  obtain ⟨path, module, name, d⟩ := e
  cases d with
  | «class» c =>
    rw [Function.comp_apply, Entry.mapClass, Entry.narrow, Entry.narrow, notClass, notClass]
    rfl
  | _ => rfl

theorem sameTraits_composeClasses (m : Model) :
    (SymbolTable.ofModel m.composeClasses.model).SameTraits (.ofModel m) :=
  congrArg (List.map Entry.unplaced)
    (narrow_entries_composeClasses (f := Decl.trait?) (fun _ => rfl) m)

/-- Composing a composed model makes findings that were made before, in the same order. -/
theorem findings_composeClasses_sublist (m : Model) :
    m.composeClasses.model.composeClasses.findings.Sublist m.composeClasses.findings := by
  have first := composeClasses_eq_of_sameTraits (m := m) (t := .ofModel m) rfl
  have again := composeClasses_eq_of_sameTraits (sameTraits_composeClasses m)
  rw [again, classEntries_composeClasses, List.flatMap_map, congrArg Flattened.findings first]
  refine (List.Sublist.refl _).append (List.Sublist.flatMap_right _ fun e _ => ?_)
  exact SymbolTable.findings_composedClass_sublist _ _

/-! ## Products -/

theorem flatten_nil (m : Model) (product : Option String) :
    m.flatten ⟨product, []⟩ = .ok m.composeClasses := rfl

/-- Deriving with no deltas succeeds, and leaves exactly the models as they are in which no class
has `uses` clauses or two methods of one name.  It leaves every derived product as it is, and makes
no findings but those made when the product was derived, in the same order. -/
theorem flatten_nil_normal (m : Model) (product : Option String) :
    (∃ f, m.flatten ⟨product, []⟩ = .ok f ∧
      (f.model = m ↔ ∀ c ∈ m.classes, c.uses = [] ∧ (c.methods.map (·.name)).Nodup)) ∧
    ∀ config f, m.flatten config = .ok f →
      ∃ ds, f.model.flatten ⟨product, []⟩ = .ok ⟨f.model, ds⟩ ∧ ds.Sublist f.findings := by
  constructor
  · refine ⟨m.composeClasses, m.flatten_nil product, composeClasses_eq_self_iff.trans ?_⟩
    exact forall₂_congr fun c _ => ⟨fun h => ⟨h.uses, h.distinct⟩, fun h => ⟨h.1, h.2⟩⟩
  · intro config f derived
    obtain ⟨es, d, -, -, rfl⟩ := exists_derived_of_flatten derived
    refine ⟨_, ?_, findings_composeClasses_sublist d⟩
    rw [flatten_nil, Except.ok.injEq]
    exact congrArg (Flattened.mk · _) (composeClasses_composeClasses d)

/-- A class that repeats a method, which calls an original that it does not have, and that uses a
trait which is not declared. -/
def orphanModel : Model :=
  let m : Method := .ofVersion { (default : Version) with body := [.eval (.original [] none) none] }
  ⟨[⟨none, [⟨"M", [.class { (default : ClassDecl) with
    name := "C", methods := [m, m], uses := [.adds (.ref "T" none)] }], none⟩]⟩]⟩

theorem flatten_nil_normal_orphanModel :
    ∃ f ds, orphanModel.flatten ⟨none, []⟩ = .ok f ∧ f.model ≠ orphanModel ∧
      f.findings.length = 3 ∧ f.model.flatten ⟨none, []⟩ = .ok ⟨f.model, ds⟩ ∧
      ds.length = 1 ∧ ds.Sublist f.findings := by
  obtain ⟨⟨f, derived, same⟩, normal⟩ := flatten_nil_normal orphanModel none
  obtain ⟨ds, again, sub⟩ := normal _ f derived
  obtain rfl : orphanModel.composeClasses = f := Except.ok.inj derived
  have repeats : ¬ ∀ c ∈ orphanModel.classes,
      c.uses = [] ∧ (c.methods.map (·.name)).Nodup := by decide +kernel
  have left : orphanModel.composeClasses.model.composeClasses.findings = ds :=
    congrArg Flattened.findings (Except.ok.inj again)
  refine ⟨_, ds, derived, mt same.1 repeats, by decide +kernel, again, ?_, sub⟩
  rw [← left]
  decide +kernel

end Model

end DeltaLang
