import DeltaLang.Delta.ClassEdit
import Mathlib.Data.List.Nodup

/-!
# Method lists and method sets

A list of methods with distinct names is a method set, and editing it in place is what the
operations on method sets do.
-/

namespace DeltaLang

namespace MethodSet

variable {s s' : MethodSet} {m : Method} {ms : List Method} {what : String}

/-! ## Names -/

theorem insert?_of_mem (h : m.name ∈ s.names) : s.insert? m = none := dif_pos h

theorem insert?_of_not_mem (h : m.name ∉ s.names) :
    s.insert? m = some ⟨s.methods ++ [m], nodup_append s.distinct h⟩ := dif_neg h

theorem methods_of_insert? (h : s.insert? m = some s') : s'.methods = s.methods ++ [m] := by
  by_cases mem : m.name ∈ s.names
  · cases (insert?_of_mem mem).symm.trans h
  · cases (insert?_of_not_mem mem).symm.trans h
    rfl

theorem names_of_insert? (h : s.insert? m = some s') : s'.names = s.names ++ [m.name] := by
  rw [names, methods_of_insert? h]
  exact List.map_append

theorem mem_names_iff {name : String} : name ∈ s.names ↔ (s.get? name).isSome := by
  simp [names, get?]

theorem get?_eq_none_iff {name : String} : s.get? name = none ↔ name ∉ s.names := by
  rw [mem_names_iff, Option.not_isSome_iff_eq_none]

theorem names_replace (s : MethodSet) (m : Method) :
    (s.replace m).names = if m.name ∈ s.names then s.names else s.names ++ [m.name] := by
  rw [replace]
  split
  · exact map_name_put m s.methods
  · exact List.map_append

theorem names_modify (s : MethodSet) (m : Method) :
    (s.modify m).names = if m.name ∈ s.names then s.names else s.names ++ [m.name] := by
  rw [modify, names_replace]
  cases s.get? m.name <;> rfl

theorem mem_names_modify (s : MethodSet) (m : Method) (name : String) :
    name ∈ (s.modify m).names ↔ name = m.name ∨ name ∈ s.names := by
  rw [names_modify]
  split
  · rename_i mem
    exact ⟨.inr, fun h => h.elim (fun eq => eq ▸ mem) id⟩
  · rw [List.mem_append, List.mem_singleton]
    exact Or.comm

theorem mem_names_erase (s : MethodSet) (name name' : String) :
    name' ∈ (s.erase name).names ↔ name' ∈ s.names ∧ name' ≠ name := by
  simp only [erase, names, List.mem_map, List.mem_filter, decide_eq_true_eq]
  constructor
  · rintro ⟨m, ⟨mem, ne⟩, rfl⟩
    exact ⟨⟨m, mem, rfl⟩, ne⟩
  · rintro ⟨⟨m, mem, rfl⟩, ne⟩
    exact ⟨m, ⟨mem, ne⟩, rfl⟩

theorem mem_names_insertAll (what : String) (s : MethodSet) (ms : List Method) (name : String) :
    name ∈ (s.insertAll what ms).1.names ↔ name ∈ s.names ∨ name ∈ ms.map (·.name) := by
  induction ms generalizing s with
  | nil => simp [insertAll]
  | cons m ms ih =>
    rw [insertAll, List.map_cons, List.mem_cons]
    by_cases taken : m.name ∈ s.names
    · have redundant : name = m.name → name ∈ s.names := fun eq => eq ▸ taken
      rw [insert?_of_mem taken]
      dsimp only
      rw [ih, ← or_assoc, or_iff_left_of_imp redundant]
    · obtain ⟨s', inserted⟩ : ∃ s', s.insert? m = some s' := ⟨_, insert?_of_not_mem taken⟩
      rw [inserted]
      dsimp only
      rw [ih, names_of_insert? inserted, List.mem_append, List.mem_singleton, or_assoc]

/-! ## Adding methods of distinct names -/

/-- Adding methods of distinct names appends those whose name is free and reports the others. -/
theorem insertAll_of_distinct (what : String) (distinct : (ms.map (·.name)).Nodup) (s : MethodSet) :
    (s.insertAll what ms).1.methods = s.methods ++ ms.filter (fun m => m.name ∉ s.names) ∧
      (s.insertAll what ms).2 =
        (ms.filter fun m => m.name ∈ s.names).map (duplicate what) := by
  induction ms generalizing s with
  | nil => exact ⟨(List.append_nil _).symm, rfl⟩
  | cons m ms ih =>
    obtain ⟨new, distinct⟩ : m.name ∉ ms.map (·.name) ∧ (ms.map (·.name)).Nodup :=
      List.nodup_cons.1 distinct
    rw [insertAll]
    by_cases taken : m.name ∈ s.names
    · rw [insert?_of_mem taken, List.filter_cons_of_neg (by simpa using taken),
        List.filter_cons_of_pos (by simpa using taken), List.map_cons]
      exact (ih distinct s).imp_right (congrArg (duplicate what m :: ·))
    · obtain ⟨s', inserted⟩ : ∃ s', s.insert? m = some s' := ⟨_, insert?_of_not_mem taken⟩
      -- The names of the rest do not tell the set with `m` from the one without.
      have same (other : Method) (mem : other ∈ ms) :
          other.name ∈ s'.names ↔ other.name ∈ s.names := by
        have differs : other.name ≠ m.name := fun eq => new (eq ▸ List.mem_map_of_mem mem)
        rw [names_of_insert? inserted, List.mem_append, List.mem_singleton]
        exact or_iff_left differs
      have free : ms.filter (fun m => m.name ∉ s'.names) = ms.filter (fun m => m.name ∉ s.names) :=
        List.filter_congr fun other mem => decide_eq_decide.2 (not_congr (same other mem))
      have clash : ms.filter (fun m => m.name ∈ s'.names) = ms.filter (fun m => m.name ∈ s.names) :=
        List.filter_congr fun other mem => decide_eq_decide.2 (same other mem)
      obtain ⟨methods, findings⟩ := ih distinct s'
      rw [inserted, List.filter_cons_of_pos (by simpa using taken),
        List.filter_cons_of_neg (by simpa using taken), ← clash]
      refine ⟨methods.trans ?_, findings⟩
      rw [methods_of_insert? inserted, free, ← List.append_cons]

theorem insertAll_of_nodup (distinct : (s.names ++ ms.map (·.name)).Nodup) :
    (s.insertAll what ms).1.methods = s.methods ++ ms ∧ (s.insertAll what ms).2 = [] := by
  obtain ⟨-, unique, apart⟩ := List.nodup_append.1 distinct
  have free : ∀ m ∈ ms, m.name ∉ s.names := fun m mem taken =>
    apart _ taken _ (List.mem_map_of_mem mem) rfl
  obtain ⟨methods, findings⟩ := insertAll_of_distinct what unique s
  rw [List.filter_eq_self.2 fun m mem => decide_eq_true (free m mem)] at methods
  rw [List.filter_eq_nil_iff.2 fun m mem => by simpa using free m mem] at findings
  exact ⟨methods, findings⟩

theorem nodup_of_insertAll (clean : (s.insertAll what ms).2 = []) :
    (s.names ++ ms.map (·.name)).Nodup := by
  induction ms generalizing s with
  | nil =>
    rw [List.map_nil, List.append_nil]
    exact s.distinct
  | cons m ms ih =>
    rw [insertAll] at clean
    split at clean
    · rename_i inserted
      rw [List.map_cons, List.append_cons, ← names_of_insert? inserted]
      exact ih clean
    · cases clean

/-- The methods of a list of distinct names are the set of those methods. -/
theorem insertAll_empty (distinct : (ms.map (·.name)).Nodup) :
    empty.insertAll what ms = (⟨ms, distinct⟩, []) := by
  obtain ⟨methods, clean⟩ : (empty.insertAll what ms).1.methods = ms ∧
      (empty.insertAll what ms).2 = [] :=
    insertAll_of_nodup (by simpa [empty, names] using distinct)
  exact Prod.ext (MethodSet.ext methods) clean

/-- The set of one method. -/
def single (m : Method) : MethodSet := ⟨[m], List.nodup_singleton m.name⟩

theorem addAll_single (s : MethodSet) (m : Method) :
    s.addAll (single m) =
      match s.insert? m with
      | some s' => (s', [])
      | none => (s, [duplicate "already present" m]) := rfl

/-! ## Editing in place -/

theorem modifyFirst_cons (m old : Method) (ms : List Method) :
    ClassEdit.modifyFirst m (old :: ms) =
      if old.name = m.name then m.replacing old :: ms
      else old :: ClassEdit.modifyFirst m ms := by
  rw [ClassEdit.modifyFirst, ClassEdit.modifyFirst, List.findIdx?_cons]
  by_cases same : old.name = m.name
  · simp [same]
  · simp only [beq_false_of_ne same, same, if_false]
    cases ms.findIdx? (fun old => old.name == m.name) <;> rfl

theorem put_of_not_mem (h : m.name ∉ ms.map (·.name)) : put m ms = ms := by
  rw [put]
  conv_rhs => rw [← List.map_id ms]
  refine List.map_congr_left fun old mem => if_neg fun same => h ?_
  exact same ▸ List.mem_map_of_mem mem

/-- Modifying the first method of a name modifies the set. -/
theorem methods_modify (distinct : (ms.map (·.name)).Nodup) (m : Method) :
    ((⟨ms, distinct⟩ : MethodSet).modify m).methods = ClassEdit.modifyFirst m ms := by
  have methods : ((⟨ms, distinct⟩ : MethodSet).modify m).methods =
      (ms.find? fun old => old.name == m.name).elim (ms ++ [m])
        fun old => put (m.replacing old) ms := by
    rw [modify, get?]
    cases found : ms.find? (fun old => old.name == m.name) with
    | some old =>
      have mem : (m.replacing old).name ∈ names ⟨ms, distinct⟩ :=
        mem_names_iff.2 (Option.isSome_iff_exists.2 ⟨old, found⟩)
      exact congrArg MethodSet.methods (dif_pos mem)
    | none =>
      have mem : m.name ∉ names ⟨ms, distinct⟩ := get?_eq_none_iff.1 found
      exact congrArg MethodSet.methods (dif_neg mem)
  rw [methods]
  clear methods
  induction ms with
  | nil => rfl
  | cons old ms ih =>
    obtain ⟨new, distinct⟩ := List.nodup_cons.1 distinct
    rw [modifyFirst_cons, List.find?_cons, ← ih distinct]
    by_cases same : old.name = m.name
    · have rest : put (m.replacing old) ms = ms := put_of_not_mem (same ▸ new)
      simp only [same, beq_self_eq_true, if_true, Option.elim_some]
      rw [put, List.map_cons, ← put, rest]
      exact congrArg (· :: ms) (if_pos same)
    · simp only [beq_false_of_ne same, same, if_false]
      cases ms.find? (fun old => old.name == m.name) with
      | some old' => exact congrArg (· :: _) (if_neg same)
      | none => rfl

/-- Removing the first method of a name removes it from the set. -/
theorem methods_erase (distinct : (ms.map (·.name)).Nodup) (name : String) :
    ((⟨ms, distinct⟩ : MethodSet).erase name).methods = ms.eraseP (fun m => m.name == name) := by
  rw [erase]
  dsimp only
  induction ms with
  | nil => rfl
  | cons m ms ih =>
    obtain ⟨new, distinct⟩ : m.name ∉ ms.map (·.name) ∧ (ms.map (·.name)).Nodup :=
      List.nodup_cons.1 distinct
    by_cases same : m.name = name
    · rw [List.filter_cons_of_neg (by simp [same]), List.eraseP_cons_of_pos (by simp [same])]
      refine List.filter_eq_self.2 fun m' mem => decide_eq_true fun same' => new ?_
      exact (same'.trans same.symm) ▸ List.mem_map_of_mem mem
    · rw [List.filter_cons_of_pos (by simp [same]), List.eraseP_cons_of_neg (by simp [same]),
        ih distinct]

end MethodSet

end DeltaLang
