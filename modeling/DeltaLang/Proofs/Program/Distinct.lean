import DeltaLang.Check.References
import DeltaLang.Proofs.Delta.Locality
import Mathlib.Data.List.Nodup
import Mathlib.Data.Prod.Basic

/-!
# Declarations told apart

Where modules have distinct names, and so have the declarations of one kind in a module, the module
and the name of an entry tell it apart from all others of its kind.
-/

namespace DeltaLang

deriving instance DecidableEq for Entry

/-! ## Repeated elements -/

theorem Check.repeated_eq_nil_iff {α κ : Type} [DecidableEq κ] {key : α → κ} {seen : List κ}
    {xs : List α} :
    Check.repeated key seen xs = [] ↔ (xs.map key).Nodup ∧ ∀ x ∈ xs, key x ∉ seen := by
  induction xs generalizing seen with
  | nil => simp [Check.repeated]
  | cons x xs ih =>
    rw [Check.repeated]
    by_cases taken : key x ∈ seen
    · simp [taken]
    · simp only [taken, if_false, ih, List.map_cons, List.nodup_cons, List.mem_map,
        List.mem_cons, not_or, forall_eq_or_imp, not_false_eq_true, true_and, not_exists, not_and]
      constructor
      · rintro ⟨distinct, rest⟩
        exact ⟨⟨fun y mem => (rest y mem).1, distinct⟩, fun y mem => (rest y mem).2⟩
      · rintro ⟨⟨first, distinct⟩, rest⟩
        exact ⟨distinct, fun y mem => ⟨first y mem, rest y mem⟩⟩

/-! ## Models -/

/-- Modules have distinct names, and so have the declarations of one kind in a module. -/
structure Model.Distinct (m : Model) : Prop where
  modules : (m.modules.map Module.name).Nodup
  decls : ∀ mod ∈ m.modules, (mod.decls.map fun d => (d.kind, d.name)).Nodup

namespace Model

variable {m : Model}

variable {α : Type} {f : Decl → Option α} {kind : DeclKind}

/-- Entries are told apart by their modules and names, if modules are by theirs and the
declarations of a module by theirs. -/
theorem nodup_entryKeys (modules : (m.modules.map Module.name).Nodup)
    (decls : ∀ mod ∈ m.modules, ((mod.decls.filter fun d => (f d).isSome).map Decl.name).Nodup) :
    ((m.entries.filterMap (Entry.narrow f)).map fun e => (e.module, e.name)).Nodup := by
  have keys : (m.entries.filterMap (Entry.narrow f)).map (fun e => (e.module, e.name)) =
      m.modules.flatMap fun mod =>
        (mod.decls.filter fun d => (f d).isSome).map fun d => (mod.name, d.name) := by
    have unplaced := congrArg (List.map fun e => (e.module, e.name)) (m.unplaced_entries f)
    rw [List.map_map, List.map_flatMap] at unplaced
    refine unplaced.trans (List.flatMap_congr fun mod _ => ?_)
    rw [List.map_filterMap, ← List.filterMap_eq_map, List.filterMap_filter]
    refine List.filterMap_congr fun d _ => ?_
    cases f d <;> rfl
  rw [keys, List.nodup_flatMap]
  constructor
  · intro mod hmod
    have named := (decls mod hmod).map (Prod.mk_right_injective mod.name)
    rwa [List.map_map] at named
  · refine (List.pairwise_map.1 modules).imp fun differ => ?_
    intro key first second
    obtain ⟨d, -, rfl⟩ := List.mem_map.1 first
    obtain ⟨d', -, same⟩ := List.mem_map.1 second
    exact differ (Prod.mk.inj same).1.symm

/-- The entries of one kind are told apart by their modules and names. -/
theorem Distinct.nodup_keys (h : m.Distinct) (ofKind : ∀ d, (f d).isSome → d.kind = kind) :
    ((m.entries.filterMap (Entry.narrow f)).map fun e => (e.module, e.name)).Nodup := by
  refine nodup_entryKeys h.modules fun mod hmod => ?_
  have pairs : ((mod.decls.filter fun d => (f d).isSome).map fun d => (d.kind, d.name)).Nodup :=
    (h.decls mod hmod).sublist (List.filter_sublist.map _)
  refine List.Nodup.map_on (fun a ha b hb same => ?_) (List.Nodup.of_map _ pairs)
  have kinds (d : Decl) (mem : d ∈ mod.decls.filter fun d => (f d).isSome) : d.kind = kind :=
    ofKind d (List.mem_filter.1 mem).2
  refine List.inj_on_of_nodup_map pairs ha hb ?_
  rw [kinds a ha, kinds b hb, same]

/-- Entries of one kind are the same if their modules and names are. -/
theorem Distinct.eq_of_key_eq (h : m.Distinct) (ofKind : ∀ d, (f d).isSome → d.kind = kind)
    {e e' : Entry α} (mem : e ∈ m.entries.filterMap (Entry.narrow f))
    (mem' : e' ∈ m.entries.filterMap (Entry.narrow f)) (module : e.module = e'.module)
    (name : e.name = e'.name) : e = e' :=
  List.inj_on_of_nodup_map (h.nodup_keys ofKind) mem mem' (Prod.ext module name)

theorem kind_of_interface? {d : Decl} (h : d.interface?.isSome) : d.kind = .interface := by
  cases d <;> first | rfl | cases h

theorem kind_of_delta? {d : Decl} (h : d.delta?.isSome) : d.kind = .delta := by
  cases d <;> first | rfl | cases h

end Model

end DeltaLang
