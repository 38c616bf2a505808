import DeltaLang.Names.Lookup
import Mathlib.Data.List.TakeWhile

/-!
# What a name means

A name that resolves means the first declaration of its module and simple name.  So names that mean
something in one module are told apart by their qualified names, and the qualified name of what a
name means is itself understood from everywhere.
-/

namespace DeltaLang

/-- The name has no dot, so that it cannot be taken for a qualified one. -/
def PlainName (name : String) : Prop := '.' ∉ name.toList

/-! ## Splitting names -/

theorem splitQualified_eq_of_plainName {name : String} (plain : PlainName name) :
    splitQualified name = (none, name) := by
  have none : name.toList.reverse.dropWhile (· ≠ '.') = [] := List.dropWhile_eq_nil_iff.2
    fun c mem => decide_eq_true fun eq => plain (eq ▸ List.mem_reverse.1 mem)
  rw [splitQualified, none]

theorem plainName_snd_splitQualified (name : String) : PlainName (splitQualified name).2 := by
  unfold splitQualified
  dsimp only
  split
  · rename_i none
    intro mem
    have pass := List.dropWhile_eq_nil_iff.1 none '.' (List.mem_reverse.2 mem)
    simp at pass
  · intro mem
    rw [String.toList_ofList, List.mem_reverse] at mem
    have pass := List.mem_takeWhile_imp (p := fun c => decide (c ≠ '.')) mem
    simp at pass

/-- A name with a dot is qualified. -/
theorem exists_splitQualified_of_not_plainName {name : String} (dotted : ¬ PlainName name) :
    ∃ module simple, splitQualified name = (some module, simple) := by
  unfold splitQualified
  dsimp only
  split
  · rename_i none
    refine absurd (fun mem => ?_) dotted
    have pass := List.dropWhile_eq_nil_iff.1 none '.' (List.mem_reverse.2 mem)
    simp at pass
  · exact ⟨_, _, rfl⟩

/-- The name without its qualifier. -/
def simpleName (name : String) : String := (splitQualified name).2

theorem simpleName_of_plainName {name : String} (plain : PlainName name) :
    simpleName name = name := by
  rw [simpleName, splitQualified_eq_of_plainName plain]

theorem simpleName_simpleName (name : String) : simpleName (simpleName name) = simpleName name :=
  simpleName_of_plainName (plainName_snd_splitQualified name)

/-- The simple name is what follows the last dot. -/
theorem toList_simpleName (name : String) :
    (simpleName name).toList = (name.toList.reverse.takeWhile (· ≠ '.')).reverse := by
  by_cases plain : PlainName name
  · have all : name.toList.reverse.takeWhile (· ≠ '.') = name.toList.reverse :=
      List.takeWhile_eq_self_iff.2 fun c mem =>
        decide_eq_true fun eq => plain (eq ▸ List.mem_reverse.1 mem)
    rw [simpleName_of_plainName plain, all, List.reverse_reverse]
  · obtain ⟨module, simple, split⟩ := exists_splitQualified_of_not_plainName plain
    rw [simpleName, split]
    unfold splitQualified at split
    dsimp only at split
    split at split
    · cases split
    · obtain ⟨-, rfl⟩ := Prod.mk.inj split
      exact String.toList_ofList

/-- Qualifying a name by a module keeps its simple name. -/
theorem simpleName_qualifiedName {α : Type} (e : Entry α) :
    simpleName e.qualifiedName = simpleName e.name := by
  have back : e.qualifiedName.toList.reverse =
      e.name.toList.reverse ++ '.' :: e.module.toList.reverse := by
    rw [Entry.qualifiedName, String.toList_append, String.toList_append]
    simp
  have last : (e.qualifiedName.toList.reverse).takeWhile (· ≠ '.') =
      e.name.toList.reverse.takeWhile (· ≠ '.') := by
    rw [back, List.takeWhile_append]
    split
    · rename_i all
      rw [List.takeWhile_cons_of_neg (by simp), List.append_nil,
        (List.takeWhile_sublist _).eq_of_length all]
    · rfl
  refine String.toList_inj.1 ?_
  rw [toList_simpleName, toList_simpleName, last]

theorem splitQualified_qualifiedName {α : Type} {e : Entry α} (plain : PlainName e.name) :
    splitQualified e.qualifiedName = (some e.module, e.name) := by
  have back : e.qualifiedName.toList.reverse =
      e.name.toList.reverse ++ '.' :: e.module.toList.reverse := by
    rw [Entry.qualifiedName, String.toList_append, String.toList_append]
    simp
  have pass : ∀ c ∈ e.name.toList.reverse, decide (c ≠ '.') = true := fun c mem =>
    decide_eq_true fun eq => plain (eq ▸ List.mem_reverse.1 mem)
  simp only [splitQualified, back, List.dropWhile_append_of_pos pass,
    List.takeWhile_append_of_pos pass]
  simp

/-! ## Sorted names -/

theorem mem_insertName {name n : String} {ns : List String} :
    n ∈ insertName name ns ↔ n = name ∨ n ∈ ns := by
  induction ns with
  | nil => simp [insertName]
  | cons m ms ih =>
    rw [insertName]
    split
    · exact List.mem_cons
    · split
      · rw [List.mem_cons, ih, List.mem_cons, or_left_comm]
      · rename_i notBefore notAfter
        have same : name = m := String.le_antisymm (String.not_lt.1 notAfter)
          (String.not_lt.1 notBefore)
        rw [same, List.mem_cons, ← or_assoc, or_self]

theorem mem_sortNames {n : String} {names : List String} : n ∈ sortNames names ↔ n ∈ names := by
  induction names with
  | nil => simp [sortNames]
  | cons name names ih =>
    rw [sortNames, List.foldr_cons, mem_insertName, List.mem_cons]
    exact or_congr_right ih

theorem sortNames_eq_singleton {n : String} {names : List String} (nonempty : names ≠ [])
    (all : ∀ name ∈ names, name = n) : sortNames names = [n] := by
  have alone : insertName n [n] = [n] := by simp [insertName]
  induction names with
  | nil => exact absurd rfl nonempty
  | cons name names ih =>
    obtain rfl := all name List.mem_cons_self
    rcases names with _ | ⟨name', names⟩
    · rfl
    · rw [sortNames, List.foldr_cons]
      have rest := ih (List.cons_ne_nil _ _) fun m mem => all m (List.mem_cons_of_mem _ mem)
      rw [sortNames] at rest
      rw [rest, alone]

theorem eq_ok_of_toOption {ε α : Type} {r : Except ε α} {a : α} (h : r.toOption = some a) :
    r = .ok a := by
  cases r with
  | error e => cases h
  | ok a' => exact congrArg Except.ok (Option.some.inj h)

theorem exists_of_map_toOption {ε α β : Type} {r : Except ε α} {g : α → β} {b : β}
    (h : r.toOption.map g = some b) : ∃ a, r = .ok a ∧ g a = b := by
  obtain ⟨a, found, eq⟩ := Option.map_eq_some_iff.1 h
  exact ⟨a, eq_ok_of_toOption found, eq⟩

namespace Namespace

variable {α : Type} {ns : Namespace α} {frm : Option String} {name : String} {e : Entry α}

/-! ## Names that resolve -/

/-- A name means one of the declarations of its simple name, the first of them in its module. -/
theorem find?_filter_of_resolve (h : ns.resolve frm name = .ok e) :
    (ns.filter (·.name == (splitQualified name).2)).find? (·.module == e.module) = some e := by
  simp only [resolve] at h
  split at h
  · split at h
    · rename_i found
      obtain rfl := Except.ok.inj h
      have inModule := List.find?_some found
      rw [beq_iff_eq] at inModule
      exact inModule ▸ found
    · cases h
  · split at h
    · rename_i found
      obtain rfl := Except.ok.inj h
      have inModule := List.find?_some found
      rw [beq_iff_eq] at inModule
      simpa [← inModule] using found
    · split at h
      · rename_i candidates _
        obtain rfl := Except.ok.inj h
        simp [candidates]
      · cases h
      · cases h

theorem mem_of_resolve_eq_ok (h : ns.resolve frm name = .ok e) : e ∈ ns :=
  (List.mem_filter.1 (List.mem_of_find?_eq_some (find?_filter_of_resolve h))).1

theorem name_of_resolve (h : ns.resolve frm name = .ok e) : e.name = (splitQualified name).2 := by
  have mem := List.mem_of_find?_eq_some (find?_filter_of_resolve h)
  simpa using (List.mem_filter.1 mem).2

theorem name_eq_of_resolve (h : ns.resolve frm name = .ok e) (plain : PlainName name) :
    e.name = name := by
  rw [name_of_resolve h, splitQualified_eq_of_plainName plain]

theorem plainName_of_resolve (h : ns.resolve frm name = .ok e) : PlainName e.name :=
  name_of_resolve h ▸ plainName_snd_splitQualified name

/-- A name means the first declaration of its module and simple name. -/
theorem find?_of_resolve (h : ns.resolve frm name = .ok e) :
    ns.find? (fun e' => e'.name == e.name && e'.module == e.module) = some e := by
  have first := find?_filter_of_resolve h
  rw [← name_of_resolve h, List.find?_filter] at first
  rw [← first]
  congr 1
  funext e'
  rw [beq_eq_decide, beq_eq_decide, Bool.decide_and]
  simp

/-- What a name means is what its qualified name means from everywhere. -/
theorem resolve_qualifiedName (h : ns.resolve frm name = .ok e) (frm' : Option String) :
    ns.resolve frm' e.qualifiedName = .ok e := by
  have first := find?_filter_of_resolve h
  rw [← name_of_resolve h] at first
  simp only [resolve, splitQualified_qualifiedName (plainName_of_resolve h), first]

/-- Outside of all modules a plain name only means something if one module declares it. -/
theorem module_eq_of_resolve (h : ns.resolve none name = .ok e) (plain : PlainName name)
    {e' : Entry α} (mem : e' ∈ ns) (same : e'.name = name) : e'.module = e.module := by
  have found : e'.module ∈ (ns.filter (·.name == name)).map (·.module) :=
    List.mem_map_of_mem (List.mem_filter.2 ⟨mem, by simpa using same⟩)
  simp only [resolve, splitQualified_eq_of_plainName plain] at h
  split at h
  · rename_i inModule
    simpa using List.find?_some inModule
  · split at h
    · rename_i front _ _ candidates modules
      rw [← Except.ok.inj h]
      have first : front.module ∈ (ns.filter (·.name == name)).map (·.module) := by
        rw [candidates]
        exact List.mem_cons_self
      rw [← mem_sortNames, modules, List.mem_singleton] at found first
      rw [found, first]
    · cases h
    · cases h

/-- A plain name that one declaration only has means it from everywhere. -/
theorem resolve_of_unique (mem : e ∈ ns) (plain : PlainName e.name)
    (unique : ∀ e' ∈ ns, e'.name = e.name → e' = e) (frm : Option String) :
    ns.resolve frm e.name = .ok e := by
  have all : ∀ e' ∈ ns.filter (·.name == e.name), e' = e := fun e' mem' =>
    unique e' (List.mem_filter.1 mem').1 (by simpa using (List.mem_filter.1 mem').2)
  have found : e ∈ ns.filter (·.name == e.name) := List.mem_filter.2 ⟨mem, by simp⟩
  simp only [resolve, splitQualified_eq_of_plainName plain]
  generalize ns.filter (·.name == e.name) = candidates at all found
  cases inModule : candidates.find? (fun e' => some e'.module == frm) with
  | some e' => exact congrArg Except.ok (all e' (List.mem_of_find?_eq_some inModule))
  | none =>
    obtain ⟨front, rest, rfl⟩ := List.exists_cons_of_ne_nil (List.ne_nil_of_mem found)
    have modules : sortNames ((front :: rest).map (·.module)) = [e.module] := by
      refine sortNames_eq_singleton (by simp) fun module mem' => ?_
      obtain ⟨e', declared, rfl⟩ := List.mem_map.1 mem'
      rw [all e' declared]
    rw [modules]
    exact congrArg Except.ok (all front List.mem_cons_self)

/-- Names are resolved by names and modules alone. -/
theorem resolve_map {β : Type} {g : Entry α → Entry β} (named : ∀ e, (g e).name = e.name)
    (owned : ∀ e, (g e).module = e.module) (frm : Option String) (name : String) :
    resolve (ns.map g) frm name = (ns.resolve frm name).map g := by
  have candidates (simple : String) :
      (ns.map g).filter (·.name == simple) = (ns.filter (·.name == simple)).map g := by
    rw [List.filter_map]
    congr 1
    exact List.filter_congr fun e _ => by rw [Function.comp_apply, named]
  simp only [resolve, candidates]
  generalize ns.filter (·.name == (splitQualified name).2) = found
  have modules : (found.map g).map (·.module) = found.map (·.module) := by
    rw [List.map_map]
    exact List.map_congr_left fun e _ => owned e
  have find (p : String → Bool) :
      (found.map g).find? (fun e => p e.module) = (found.find? fun e => p e.module).map g := by
    rw [List.find?_map]
    congr 2
    funext e
    rw [Function.comp_apply, owned]
  rw [modules]
  split
  · rename_i module _
    rw [find (· == module)]
    cases found.find? (fun e => e.module == module) <;> rfl
  · rw [find fun module => some module == frm]
    cases found.find? (fun e => some e.module == frm) with
    | some e => rfl
    | none => rcases found with _ | ⟨e, es⟩ <;> rcases sortNames _ with _ | ⟨_, _ | _⟩ <;> rfl

/-! ## With and without a module -/

/-- The name is qualified, or the declarations of the name are of one module. -/
def NamesOneModule (ns : Namespace α) (name : String) : Prop :=
  PlainName name → ∀ e ∈ ns, ∀ e' ∈ ns, e.name = name → e'.name = name → e.module = e'.module

instance (ns : Namespace α) (name : String) : Decidable (ns.NamesOneModule name) :=
  inferInstanceAs (Decidable ('.' ∉ name.toList →
    ∀ e ∈ ns, ∀ e' ∈ ns, e.name = name → e'.name = name → e.module = e'.module))

theorem resolve_none_of_namesOneModule (h : ns.resolve frm name = .ok e)
    (one : ns.NamesOneModule name) : ns.resolve none name = .ok e := by
  by_cases plain : PlainName name
  · have first := find?_filter_of_resolve h
    have all : ∀ e' ∈ ns.filter (·.name == name), e'.module = e.module := fun e' mem => by
      obtain ⟨mem, same⟩ := List.mem_filter.1 mem
      exact one plain e' mem e (mem_of_resolve_eq_ok h) (beq_iff_eq.1 same)
        (name_eq_of_resolve h plain)
    simp only [resolve, splitQualified_eq_of_plainName plain] at first ⊢
    generalize ns.filter (·.name == name) = candidates at first all
    have outside : candidates.find? (fun e' => some e'.module == none) = none := by simp
    obtain ⟨front, rest, rfl⟩ :=
      List.exists_cons_of_ne_nil (List.ne_nil_of_mem (List.mem_of_find?_eq_some first))
    have modules : sortNames ((front :: rest).map (·.module)) = [e.module] := by
      refine sortNames_eq_singleton (by simp) fun module mem => ?_
      obtain ⟨e', declared, rfl⟩ := List.mem_map.1 mem
      exact all e' declared
    rw [List.find?_cons_of_pos (by simpa using all front List.mem_cons_self)] at first
    rw [outside, modules]
    exact congrArg Except.ok (Option.some.inj first)
  · obtain ⟨module, simple, split⟩ := exists_splitQualified_of_not_plainName plain
    simp only [resolve, split] at h ⊢
    exact h

/-- A declared name that means nothing outside of all modules is ambiguous there. -/
theorem ambiguous_of_resolve_none {err : LookupError} (h : ns.resolve none name = .error err)
    (plain : PlainName name) (mem : e ∈ ns) (same : e.name = name) :
    ∃ modules, err = .ambiguous modules := by
  have found : e ∈ ns.filter (·.name == name) := List.mem_filter.2 ⟨mem, by simpa using same⟩
  simp only [resolve, splitQualified_eq_of_plainName plain] at h
  split at h
  · cases h
  · split at h
    · cases h
    · rename_i empty
      rw [empty] at found
      cases found
    · exact ⟨_, (Except.error.inj h).symm⟩

/-- What a name means in a module it also means outside of all modules, unless several modules
declare it; then it is ambiguous there. -/
theorem resolve_none_of_resolve (h : ns.resolve frm name = .ok e) :
    if ns.NamesOneModule name then ns.resolve none name = .ok e
    else ∃ modules, ns.resolve none name = .error (.ambiguous modules) := by
  split
  · rename_i one
    exact resolve_none_of_namesOneModule h one
  · rename_i several
    have plain : PlainName name := by_contra fun dotted => several fun plain => absurd plain dotted
    cases outside : ns.resolve none name with
    | ok e' =>
      refine absurd (fun _ a mem b mem' same same' => ?_) several
      rw [module_eq_of_resolve outside plain mem same,
        module_eq_of_resolve outside plain mem' same']
    | error err =>
      obtain ⟨modules, rfl⟩ := ambiguous_of_resolve_none outside plain (mem_of_resolve_eq_ok h)
        (name_eq_of_resolve h plain)
      exact ⟨modules, rfl⟩

end Namespace

end DeltaLang
