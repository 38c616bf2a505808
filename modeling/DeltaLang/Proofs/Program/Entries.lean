import DeltaLang.Names.Lookup
import Mathlib.Data.List.Basic
import Mathlib.Tactic.CongrExclamation

/-!
# Declarations and their paths

The entries of a model are exactly its declarations, each found at its path.  So a path determines
the entry, and changing every class of a model changes the entries of classes one by one.
-/

namespace DeltaLang

/-! ## Numbered lists -/

theorem zipIdx_map_zipIdx {α β : Type} (f : α × Nat → β) (l : List α) (k : Nat) :
    ((l.zipIdx k).map f).zipIdx k = (l.zipIdx k).map fun x => (f x, x.2) := by
  induction l generalizing k with
  | nil => rfl
  | cons a l ih => simp [List.zipIdx_cons, ih]

/-- Looking up a key that belongs to one element only finds what is stored for that element. -/
theorem lookup_map_of_mem {α κ β : Type} [BEq κ] [LawfulBEq κ] {k : α → κ} {f : α → β}
    {l : List α} {a : α} (ha : a ∈ l) (unique : ∀ b ∈ l, k b = k a → b = a) :
    (l.map fun b => (k b, f b)).lookup (k a) = some (f a) := by
  induction l with
  | nil => simp at ha
  | cons b l ih =>
    rw [List.map_cons, List.lookup_cons]
    by_cases hb : k b = k a
    · rw [unique b List.mem_cons_self hb]
      simp
    · have hne : (k a == k b) = false := beq_false_of_ne fun h => hb h.symm
      rw [hne]
      rcases List.mem_cons.1 ha with rfl | ha
      · exact absurd rfl hb
      · exact ih ha fun c hc => unique c (List.mem_cons_of_mem _ hc)

namespace Model

variable {m : Model}

/-! ## Entries -/

theorem mem_entries_iff {e : Entry Decl} : e ∈ m.entries ↔ m.entry? e.path = some e := by
  obtain ⟨⟨u, i, d⟩, module, name, decl⟩ := e
  simp only [entries, entry?, List.mem_flatMap, List.mem_map, Prod.exists,
    List.mem_zipIdx_iff_getElem?, Option.bind_eq_bind, Option.bind_eq_some_iff, Option.pure_def,
    Option.some.injEq, Entry.mk.injEq, DeclPath.mk.injEq]
  constructor
  · rintro ⟨unit, u', hu, mo, i', hi, dc, d', hd, ⟨rfl, rfl, rfl⟩, rfl, rfl, rfl⟩
    exact ⟨unit, hu, mo, hi, dc, hd, trivial, rfl, rfl, rfl⟩
  · rintro ⟨unit, hu, mo, hi, dc, hd, -, rfl, rfl, rfl⟩
    exact ⟨unit, u, hu, mo, i, hi, dc, d, hd, ⟨rfl, rfl, rfl⟩, rfl, rfl, rfl⟩

theorem eq_of_path_eq {a b : Entry Decl} (ha : a ∈ m.entries) (hb : b ∈ m.entries)
    (h : a.path = b.path) : a = b :=
  Option.some.inj ((mem_entries_iff.1 ha).symm.trans (h ▸ mem_entries_iff.1 hb))

theorem name_of_mem_entries {e : Entry Decl} (h : e ∈ m.entries) : e.name = e.decl.name := by
  have found := mem_entries_iff.1 h
  simp only [ entry?, Option.bind_eq_bind, Option.bind_eq_some_iff, Option.pure_def,
    Option.some.injEq] at found
  obtain ⟨unit, -, module, -, decl, -, eq⟩ := found
  rw [← eq]

/-- An entry is a declaration of one of the modules. -/
theorem exists_module_of_mem_entries {e : Entry Decl} (h : e ∈ m.entries) :
    ∃ mod ∈ m.modules, e.module = mod.name ∧ e.decl ∈ mod.decls := by
  obtain ⟨⟨unit, u⟩, hu, h⟩ := List.mem_flatMap.1 h
  obtain ⟨⟨mod, i⟩, hi, h⟩ := List.mem_flatMap.1 h
  obtain ⟨⟨d, k⟩, hd, rfl⟩ := List.mem_map.1 h
  exact ⟨mod, List.mem_flatMap.2
    ⟨unit, List.fst_mem_of_mem_zipIdx hu, List.fst_mem_of_mem_zipIdx hi⟩, rfl,
    List.fst_mem_of_mem_zipIdx hd⟩

/-- A declaration of one of the modules is an entry. -/
theorem exists_entry_of_mem_modules {mod : Module} (hmod : mod ∈ m.modules) {d : Decl}
    (hd : d ∈ mod.decls) : ∃ e ∈ m.entries, e.module = mod.name ∧ e.decl = d := by
  obtain ⟨unit, hunit, hmod⟩ := List.mem_flatMap.1 hmod
  obtain ⟨u, hu⟩ := List.getElem?_of_mem hunit
  obtain ⟨i, hi⟩ := List.getElem?_of_mem hmod
  obtain ⟨k, hk⟩ := List.getElem?_of_mem hd
  have found : m.entry? ⟨u, i, k⟩ = some ⟨⟨u, i, k⟩, mod.name, d.name, d⟩ := by
    simp [ entry?, hu, hi, hk]
  exact ⟨⟨⟨u, i, k⟩, mod.name, d.name, d⟩, mem_entries_iff.2 found, rfl, rfl⟩

/-- What holds of all entries holds of all declarations of the modules. -/
theorem forall_entries_iff {P : String → Decl → Prop} :
    (∀ e ∈ m.entries, P e.module e.decl) ↔ ∀ mod ∈ m.modules, ∀ d ∈ mod.decls, P mod.name d := by
  constructor
  · intro all mod hmod d hd
    obtain ⟨e, mem, module, decl⟩ := exists_entry_of_mem_modules hmod hd
    exact module ▸ decl ▸ all e mem
  · intro all e mem
    obtain ⟨mod, hmod, module, hd⟩ := exists_module_of_mem_entries mem
    exact module ▸ all mod hmod e.decl hd

/-- The entries of one kind of declaration are those of the model that are of this kind. -/
theorem mem_narrow_iff {β : Type} {f : Decl → Option β} {e : Entry β} :
    e ∈ m.entries.filterMap (Entry.narrow f) ↔
      ∃ d, f d = some e.decl ∧ ⟨e.path, e.module, e.name, d⟩ ∈ m.entries := by
  simp only [List.mem_filterMap, Entry.narrow, Option.map_eq_some_iff]
  constructor
  · rintro ⟨⟨path, module, name, d⟩, hmem, c, hc, rfl⟩
    exact ⟨d, hc, hmem⟩
  · rintro ⟨d, hd, hmem⟩
    exact ⟨_, hmem, e.decl, hd, rfl⟩

theorem narrow_eq_of_path_eq {β : Type} {f : Decl → Option β} {a b : Entry β}
    (ha : a ∈ m.entries.filterMap (Entry.narrow f)) (hb : b ∈ m.entries.filterMap (Entry.narrow f))
    (h : a.path = b.path) : a = b := by
  obtain ⟨d, hd, ha⟩ := mem_narrow_iff.1 ha
  obtain ⟨d', hd', hb⟩ := mem_narrow_iff.1 hb
  have same := eq_of_path_eq ha hb h
  simp only [Entry.mk.injEq] at same
  obtain ⟨-, module, name, rfl⟩ := same
  obtain ⟨⟩ := a
  obtain ⟨⟩ := b
  simp_all

theorem class?_eq_some_iff {d : Decl} {c : ClassDecl} : d.class? = some c ↔ d = .class c := by
  cases d <;> simp [Decl.class?]

theorem trait?_eq_some_iff {d : Decl} {t : TraitDecl} : d.trait? = some t ↔ d = .trait t := by
  cases d <;> simp [Decl.trait?]

theorem delta?_eq_some_iff {d : Decl} {e : DeltaDecl} : d.delta? = some e ↔ d = .delta e := by
  cases d <;> simp [Decl.delta?]

theorem interface?_eq_some_iff {d : Decl} {i : InterfaceDecl} :
    d.interface? = some i ↔ d = .interface i := by
  cases d <;> simp [Decl.interface?]

theorem mem_interfaceEntries_iff {e : Entry InterfaceDecl} :
    e ∈ m.interfaceEntries ↔ ⟨e.path, e.module, e.name, .interface e.decl⟩ ∈ m.entries := by
  rw [interfaceEntries, mem_narrow_iff]
  simp [interface?_eq_some_iff]

theorem mem_classEntries_iff {e : Entry ClassDecl} :
    e ∈ m.classEntries ↔ ⟨e.path, e.module, e.name, .class e.decl⟩ ∈ m.entries := by
  rw [classEntries, mem_narrow_iff]
  simp [class?_eq_some_iff]

theorem mem_traitEntries_iff {e : Entry TraitDecl} :
    e ∈ m.traitEntries ↔ ⟨e.path, e.module, e.name, .trait e.decl⟩ ∈ m.entries := by
  rw [traitEntries, mem_narrow_iff]
  simp [trait?_eq_some_iff]

theorem mem_deltaEntries_iff {e : Entry DeltaDecl} :
    e ∈ m.deltaEntries ↔ ⟨e.path, e.module, e.name, .delta e.decl⟩ ∈ m.entries := by
  rw [deltaEntries, mem_narrow_iff]
  simp [delta?_eq_some_iff]

/-! ## Changing one declaration -/

end Model

theorem modify_eq_map_zipIdx {α : Type} (l : List α) (i : Nat) (f : α → α) :
    l.modify i f = l.zipIdx.map fun x => if x.2 = i then f x.1 else x.1 := by
  refine List.ext_getElem? fun k => ?_
  rw [List.getElem?_modify, List.getElem?_map, List.getElem?_zipIdx, Option.map_map, Nat.zero_add]
  by_cases here : i = k
  · subst here
    simp [Function.comp_def]
  · simp [here, Ne.symm here, Function.comp_def]

namespace Model

variable {m : Model}

theorem entries_modifyDecl (path : DeclPath) (f : Decl → Decl) :
    (m.modifyDecl path f).entries = m.entries.map fun e =>
      if e.path = path then ⟨e.path, e.module, (f e.decl).name, f e.decl⟩ else e := by
  obtain ⟨u', i', d'⟩ := path
  simp only [entries, modifyDecl, modifyModule, modify_eq_map_zipIdx, zipIdx_map_zipIdx,
    List.flatMap_map, List.map_flatMap, List.map_map]
  refine congrArg (m.units.zipIdx.flatMap ·) (funext fun ⟨unit, u⟩ => ?_)
  by_cases hu : u = u'
  · simp only [hu, if_true, zipIdx_map_zipIdx, List.flatMap_map]
    refine congrArg (unit.modules.zipIdx.flatMap ·) (funext fun ⟨mod, i⟩ => ?_)
    by_cases hi : i = i'
    · simp only [hi, if_true, Module.modifyDecl, modify_eq_map_zipIdx, zipIdx_map_zipIdx,
        List.map_map]
      refine List.map_congr_left fun ⟨d, k⟩ _ => ?_
      by_cases hd : k = d' <;> simp [hd]
    · simp [hi, Function.comp_def]
  · simp [hu, Function.comp_def]

theorem classEntries_modifyDecl {c : Entry ClassDecl} (mem : c ∈ m.classEntries) (d : ClassDecl) :
    (m.modifyDecl c.path fun _ => .class d).classEntries = m.classEntries.map fun e =>
      if e.path = c.path then ⟨e.path, e.module, d.name, d⟩ else e := by
  rw [classEntries, classEntries, entries_modifyDecl, List.filterMap_map, List.map_filterMap]
  refine List.filterMap_congr fun e he => ?_
  by_cases same : e.path = c.path
  · obtain rfl : e = ⟨c.path, c.module, c.name, .class c.decl⟩ :=
      eq_of_path_eq he (mem_classEntries_iff.1 mem) same
    simp [Entry.narrow, Decl.class?, Decl.name]
  · obtain ⟨path, module, name, decl⟩ := e
    cases decl <;> simp_all [Entry.narrow, Decl.class?]

/-! ## Changing every class -/

end Model

/-- The entry with its declaration changed, if that is a class. -/
def Entry.mapClass (f : Entry ClassDecl → ClassDecl) (e : Entry Decl) : Entry Decl :=
  match e.decl with
  | .class c =>
    ⟨e.path, e.module, (f ⟨e.path, e.module, c.name, c⟩).name,
      .class (f ⟨e.path, e.module, c.name, c⟩)⟩
  | _ => e

namespace Model

variable {m : Model}

theorem entries_mapClasses (f : Entry ClassDecl → ClassDecl) :
    (m.mapClasses f).entries = m.entries.map (Entry.mapClass f) := by
  simp only [entries, mapClasses, zipIdx_map_zipIdx, List.flatMap_map, List.map_flatMap,
    List.map_map]
  congr! with ⟨unit, u⟩ ⟨module, i⟩
  funext ⟨decl, d⟩
  cases decl <;> rfl

theorem classEntries_mapClasses (f : Entry ClassDecl → ClassDecl) :
    (m.mapClasses f).classEntries =
      m.classEntries.map fun e => ⟨e.path, e.module, (f e).name, f e⟩ := by
  rw [classEntries, classEntries, entries_mapClasses, List.filterMap_map, List.map_filterMap]
  refine List.filterMap_congr fun e he => ?_
  have name := name_of_mem_entries he
  obtain ⟨path, module, n, decl⟩ := e
  cases decl <;> simp_all [Entry.narrow, Entry.mapClass, Decl.class?, Decl.name]

end Model

end DeltaLang
