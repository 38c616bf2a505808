import DeltaLang.Proofs.Names.Embedding
import DeltaLang.Proofs.Program.Mentions

/-!
# Models put together

Two models are put together by listing the units of one before those of the other, which moves the
declarations of the second by the number of units of the first.  Where the first declares no name
that the second mentions, the names of either mean in the two together what they mean in it alone.
-/

namespace DeltaLang

/-- The place of a declaration when so many units are put in front. -/
def DeclPath.shift (n : Nat) (p : DeclPath) : DeclPath := { p with unit := p.unit + n }

theorem DeclPath.shift_injective (n : Nat) : Function.Injective (shift n) := fun p q same => by
  obtain ⟨u, i, d⟩ := p
  obtain ⟨u', i', d'⟩ := q
  simp only [shift, mk.injEq, Nat.add_right_cancel_iff] at same ⊢
  exact same

namespace Model

/-- The units of one model before those of another. -/
def append (v m : Model) : Model := ⟨v.units ++ m.units⟩

variable {v m : Model}

theorem modules_append (v m : Model) : (v.append m).modules = v.modules ++ m.modules :=
  List.flatMap_append

/-! ## Declarations -/

theorem zipIdx_units_append (v m : Model) :
    (v.append m).units.zipIdx =
      v.units.zipIdx ++ m.units.zipIdx.map fun s => (s.1, s.2 + v.units.length) := by
  rw [append, List.zipIdx_append, Nat.zero_add, ← Nat.add_zero v.units.length,
    ← List.map_snd_add_zipIdx_eq_zipIdx]
  rfl

theorem entries_append (v m : Model) :
    (v.append m).entries = v.entries ++ m.entries.map (Entry.move (.shift v.units.length)) := by
  rw [entries, zipIdx_units_append, List.flatMap_append, List.flatMap_map]
  refine congrArg (v.entries ++ ·) ?_
  rw [entries, List.map_flatMap]
  refine List.flatMap_congr fun s _ => ?_
  rw [List.map_flatMap]
  refine List.flatMap_congr fun s' _ => ?_
  rw [List.map_map]
  rfl

/-- The declarations of one kind of two models together. -/
theorem narrow_entries_append {α : Type} (f : Decl → Option α) (v m : Model) :
    (v.append m).entries.filterMap (Entry.narrow f) = v.entries.filterMap (Entry.narrow f) ++
      (m.entries.filterMap (Entry.narrow f)).map (Entry.move (.shift v.units.length)) := by
  rw [entries_append, List.filterMap_append, List.filterMap_map, List.map_filterMap]
  congr 1
  refine List.filterMap_congr fun e _ => ?_
  simp only [Function.comp_apply, Entry.narrow, Option.map_map]
  rfl

theorem mapClasses_append (f : Entry ClassDecl → ClassDecl) :
    (v.append m).mapClasses f =
      (v.mapClasses f).append (m.mapClasses fun e => f (e.move (.shift v.units.length))) := by
  rw [mapClasses, zipIdx_units_append, List.map_append, List.map_map]
  rfl

theorem path_unit_lt {e : Entry Decl} (mem : e ∈ v.entries) : e.path.unit < v.units.length := by
  obtain ⟨⟨unit, u⟩, hu, mem⟩ := List.mem_flatMap.1 mem
  obtain ⟨s, -, mem⟩ := List.mem_flatMap.1 mem
  obtain ⟨s', -, rfl⟩ := List.mem_map.1 mem
  exact List.snd_lt_of_mem_zipIdx hu

/-! ## Names that are kept apart -/

/-- The model declares the simple name. -/
def Declares (v : Model) (simple : String) : Prop :=
  ∃ mod ∈ v.modules, ∃ d ∈ mod.decls, simpleName d.name = simple

theorem declares_of_mem_entries {e : Entry Decl} (mem : e ∈ v.entries) :
    v.Declares (simpleName e.name) := by
  obtain ⟨mod, hmod, -, hd⟩ := exists_module_of_mem_entries mem
  rw [name_of_mem_entries mem]
  exact ⟨mod, hmod, e.decl, hd, rfl⟩

theorem declares_of_mem_narrow {α : Type} {f : Decl → Option α} {e : Entry α}
    (mem : e ∈ v.entries.filterMap (Entry.narrow f)) : v.Declares (simpleName e.name) := by
  obtain ⟨d, -, mem⟩ := mem_narrow_iff.1 mem
  exact (declares_of_mem_entries mem :)

/-- A name that means something is declared. -/
theorem declares_of_resolve {α : Type} {f : Decl → Option α} {frm : Option String} {name : String}
    {e : Entry α} (found : Namespace.resolve (v.entries.filterMap (Entry.narrow f)) frm name =
      .ok e) : v.Declares (simpleName name) := by
  rw [← Namespace.simpleName_of_resolve found]
  exact (declares_of_mem_narrow (Namespace.mem_of_resolve_eq_ok found) :)

/-- No simple name that the first model declares is mentioned in the second, and neither is one of
its modules. -/
structure Apart (v m : Model) : Prop where
  modules : ∀ mod ∈ v.modules, mod.name ∉ m.mentionedModules
  names : ∀ mod ∈ v.modules, ∀ d ∈ mod.decls, simpleName d.name ∉ m.mentions.map simpleName

instance (v m : Model) : Decidable (v.Apart m) :=
  decidable_of_iff ((∀ mod ∈ v.modules, mod.name ∉ m.mentionedModules) ∧
      ∀ mod ∈ v.modules, ∀ d ∈ mod.decls, simpleName d.name ∉ m.mentions.map simpleName)
    ⟨fun h => ⟨h.1, h.2⟩, fun h => ⟨h.modules, h.names⟩⟩

/-- The model mentions no simple name that the other one declares. -/
def Ignores (m v : Model) : Prop := m.Within fun n => ¬v.Declares (simpleName n)

theorem Apart.ignores (h : v.Apart m) : m.Ignores v :=
  within_iff.2 fun _ mem ⟨mod, hmod, d, hd, same⟩ =>
    h.names mod hmod d hd (same ▸ List.mem_map_of_mem mem)

theorem Ignores.not_declares (h : m.Ignores v) {α : Type} {f : Decl → Option α} {e : Entry α}
    (mem : e ∈ m.entries.filterMap (Entry.narrow f)) : ¬v.Declares (simpleName e.name) := by
  obtain ⟨d, -, mem⟩ := mem_narrow_iff.1 mem
  have name : e.name = d.name := name_of_mem_entries mem
  rw [name]
  exact h.decl mem _ d.name_mem_mentions

/-! ## Tables -/

/-- What the first model declares means in both together what it means in the first. -/
theorem Ignores.embeds (h : m.Ignores v) :
    (SymbolTable.ofModel v).Embeds v.Declares id (.ofModel (v.append m)) := by
  have left {α : Type} (f : Decl → Option α) :
      Namespace.Embeds v.Declares id (v.entries.filterMap (Entry.narrow f))
        ((v.append m).entries.filterMap (Entry.narrow f)) := by
    have whole : (v.entries.filterMap (Entry.narrow f)).map (Entry.move id) =
        v.entries.filterMap (Entry.narrow f) := List.map_id _
    refine Namespace.embeds_of_append []
      ((m.entries.filterMap (Entry.narrow f)).map (Entry.move (.shift v.units.length))) ?_
      (fun _ mem => absurd mem List.not_mem_nil) fun e mem => ?_
    · rw [narrow_entries_append, whole, List.nil_append]
    · obtain ⟨e, hm, rfl⟩ := List.mem_map.1 mem
      exact (h.not_declares hm :)
  exact ⟨Function.injective_id, left _, left _, left _, left _⟩

/-- What the first model does not declare means in both together what it means in the second. -/
theorem embeds_shift (v m : Model) :
    (SymbolTable.ofModel m).Embeds (fun s => ¬v.Declares s) (.shift v.units.length)
      (.ofModel (v.append m)) := by
  have right {α : Type} (f : Decl → Option α) :
      Namespace.Embeds (fun s => ¬v.Declares s) (.shift v.units.length)
        (m.entries.filterMap (Entry.narrow f))
        ((v.append m).entries.filterMap (Entry.narrow f)) := by
    refine Namespace.embeds_of_append (v.entries.filterMap (Entry.narrow f)) [] ?_
      (fun e mem undeclared => undeclared (declares_of_mem_narrow mem))
      fun _ mem => absurd mem List.not_mem_nil
    rw [narrow_entries_append, List.append_nil]
  exact ⟨DeclPath.shift_injective _, right _, right _, right _, right _⟩

end Model

end DeltaLang
