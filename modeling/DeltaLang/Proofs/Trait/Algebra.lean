import DeltaLang.Proofs.Trait.ClassExpr

/-!
# The algebra of method sets

A method set is an ordered dictionary: it is known from its names in order and the method under
each name (`MethodSet.ext_get?`).  Adding and modifying do the same to the names: those of the
first set stay in front, and the names it lacks follow in the order of the second.  They differ in
the method under a shared name: adding keeps the one of the first set, modifying puts the one of
the second over it.  Both ways of combining two methods are associative, and so are the operators.
Modifying finds nothing wrong; the findings of adding are counted over both groupings.
-/

namespace DeltaLang

/-! ## One method over another -/

namespace Method

/-- The method of two sets together: the second, in front of the first where there are both. -/
def stacked (below above : Option Method) : Option Method :=
  Option.merge (fun old m => m.replacing old) below above

theorem replacing_replacing (newest newer old : Method) :
    newest.replacing (newer.replacing old) = (newest.replacing newer).replacing old := by
  simp only [replacing, versions, List.append_assoc, List.cons_append]

theorem stacked_assoc (x y z : Option Method) :
    stacked (stacked x y) z = stacked x (stacked y z) := by
  have single : Std.Associative fun old m : Method => m.replacing old :=
    ⟨fun old newer newest => replacing_replacing newest newer old⟩
  have merged : Std.Associative (Option.merge fun old m : Method => m.replacing old) :=
    inferInstance
  exact merged.assoc x y z

end Method

namespace MethodSet

variable {s : MethodSet} {m : Method} {name : String}

/-! ## Method sets as ordered dictionaries -/

theorem get?_of_mem (mem : m ∈ s.methods) : s.get? m.name = some m := by
  obtain ⟨m', found⟩ : ∃ m', s.get? m.name = some m' :=
    Option.isSome_iff_exists.1 (mem_names_iff.1 (List.mem_map_of_mem mem))
  have same : m'.name = m.name := by simpa using List.find?_some found
  rw [found, List.inj_on_of_nodup_map s.distinct (List.mem_of_find?_eq_some found) mem same]

theorem methods_eq_filterMap (s : MethodSet) : s.methods = s.names.filterMap s.get? := by
  have found : s.methods.filterMap (s.get? ∘ fun m => m.name) = s.methods.filterMap some :=
    List.filterMap_congr fun m mem => get?_of_mem mem
  rw [names, List.filterMap_map, found, List.filterMap_some]

/-- Sets with the same names in the same order and the same method under each name are the same. -/
theorem ext_get? {a b : MethodSet} (names : a.names = b.names)
    (same : ∀ name, a.get? name = b.get? name) : a = b := by
  apply MethodSet.ext
  rw [methods_eq_filterMap, methods_eq_filterMap b, names, funext same]

/-- The names of two sets together: those of the second that the first lacks follow its own. -/
def joined (xs ys : List String) : List String := xs ++ ys.filter (· ∉ xs)

theorem joined_nil (xs : List String) : joined xs [] = xs := by simp [joined]

theorem nil_joined (xs : List String) : joined [] xs = xs := by simp [joined]

theorem mem_joined {xs ys : List String} : name ∈ joined xs ys ↔ name ∈ xs ∨ name ∈ ys := by
  by_cases first : name ∈ xs <;> simp [joined, first]

theorem joined_assoc (xs ys zs : List String) :
    joined (joined xs ys) zs = joined xs (joined ys zs) := by
  have behind : zs.filter (· ∉ joined xs ys) = (zs.filter (· ∉ ys)).filter (· ∉ xs) := by
    rw [List.filter_filter]
    refine List.filter_congr fun name _ => ?_
    simp only [mem_joined, not_or, Bool.decide_and]
  rw [joined, behind, joined, joined, joined, List.filter_append, List.append_assoc]

theorem joined_cons_of_mem {xs ys : List String} (mem : name ∈ xs) :
    joined xs (name :: ys) = joined xs ys := by
  rw [joined, List.filter_cons_of_neg (by simpa using mem), joined]

theorem joined_cons_of_not_mem {xs ys : List String} (mem : name ∉ xs) (new : name ∉ ys) :
    joined xs (name :: ys) = joined (xs ++ [name]) ys := by
  rw [joined, List.filter_cons_of_pos (by simpa using mem), joined, List.append_cons]
  congr 1
  refine List.filter_congr fun other there => ?_
  have differs : other ≠ name := fun same => new (same ▸ there)
  simp [differs]

/-! ## Modifying -/

theorem get?_replace (s : MethodSet) (m : Method) (name : String) :
    (s.replace m).get? name = if m.name = name then some m else s.get? name := by
  rw [replace]
  split
  case isTrue mem =>
    have name_put (old : Method) : (if old.name = m.name then m else old).name = old.name := by
      by_cases same : old.name = m.name <;> simp [same]
    have get?_put : MethodSet.get? ⟨put m s.methods, map_name_put m s.methods ▸ s.distinct⟩ name =
        (s.get? name).map fun old => if old.name = m.name then m else old := by
      simp only [get?, put, List.find?_map, Function.comp_def, name_put]
    rw [get?_put]
    cases found : s.get? name with
    | none =>
      have other : m.name ≠ name := fun same => get?_eq_none_iff.1 found (same ▸ mem)
      rw [if_neg other, Option.map_none]
    | some old =>
      have named : old.name = name := by simpa using List.find?_some found
      rw [Option.map_some, named]
      by_cases same : m.name = name
      · rw [if_pos same.symm, if_pos same]
      · rw [if_neg (Ne.symm same), if_neg same]
  case isFalse mem =>
    rw [get?, List.find?_append, ← get?]
    by_cases same : m.name = name
    · rw [if_pos same, get?_eq_none_iff.2 (same ▸ mem), List.find?_cons_of_pos (by simp [same])]
      rfl
    · rw [if_neg same, List.find?_cons_of_neg (by simp [same]), List.find?_nil, Option.or_none]

theorem get?_modify (s : MethodSet) (m : Method) (name : String) :
    (s.modify m).get? name =
      if m.name = name then Method.stacked (s.get? name) (some m) else s.get? name := by
  rw [modify, get?_replace]
  cases found : s.get? m.name with
  | none =>
    refine ite_congr rfl (fun same => ?_) fun _ => rfl
    rw [← same, found]
    rfl
  | some old =>
    refine ite_congr rfl (fun same => ?_) fun _ => rfl
    rw [← same, found]
    rfl

/-- What modifying by methods of distinct names does to the names and to the method under each. -/
theorem foldl_modify {ms : List Method} (distinct : (ms.map (·.name)).Nodup) (s : MethodSet) :
    (ms.foldl modify s).names = joined s.names (ms.map (·.name)) ∧
      ∀ name, (ms.foldl modify s).get? name =
        Method.stacked (s.get? name) (ms.find? fun m => m.name == name) := by
  induction ms generalizing s with
  | nil =>
    refine ⟨(joined_nil s.names).symm, fun name => ?_⟩
    cases found : s.get? name <;> simp [found, Method.stacked]
  | cons m ms ih =>
    obtain ⟨new, distinct⟩ : m.name ∉ ms.map (·.name) ∧ (ms.map (·.name)).Nodup :=
      List.nodup_cons.1 distinct
    obtain ⟨names, get?⟩ := ih distinct (s.modify m)
    rw [List.foldl_cons]
    constructor
    · rw [names, names_modify, List.map_cons]
      by_cases mem : m.name ∈ s.names
      · rw [if_pos mem, joined_cons_of_mem mem]
      · rw [if_neg mem, joined_cons_of_not_mem mem new]
    · intro name
      rw [get?, get?_modify]
      by_cases same : m.name = name
      · have last : ms.find? (fun m => m.name == name) = none := by
          refine List.find?_eq_none.2 fun m' mem named => new ?_
          rw [same, ← beq_iff_eq.1 named]
          exact List.mem_map_of_mem mem
        rw [if_pos same, last, List.find?_cons_of_pos (by simp [same])]
        cases s.get? name <;> rfl
      · rw [if_neg same, List.find?_cons_of_neg (by simp [same])]

theorem names_modifyAll (base extra : MethodSet) :
    (base.modifyAll extra).names = joined base.names extra.names :=
  (foldl_modify extra.distinct base).1

theorem get?_modifyAll (base extra : MethodSet) (name : String) :
    (base.modifyAll extra).get? name = Method.stacked (base.get? name) (extra.get? name) :=
  (foldl_modify extra.distinct base).2 name

theorem modifyAll_assoc (a b c : MethodSet) :
    (a.modifyAll b).modifyAll c = a.modifyAll (b.modifyAll c) := by
  apply ext_get?
  · simp only [names_modifyAll, joined_assoc]
  · intro name
    simp only [get?_modifyAll, Method.stacked_assoc]

theorem empty_modifyAll (a : MethodSet) : empty.modifyAll a = a := by
  apply ext_get?
  · rw [names_modifyAll]
    exact nil_joined a.names
  · intro name
    rw [get?_modifyAll]
    cases a.get? name <;> rfl

/-! ## Adding -/

theorem methods_addAll_eq_append (a b : MethodSet) :
    (a.addAll b).1.methods = a.methods ++ b.methods.filter (fun m => m.name ∉ a.names) :=
  (insertAll_of_distinct _ b.distinct a).1

theorem findings_addAll (a b : MethodSet) :
    (a.addAll b).2 =
      (b.methods.filter fun m => m.name ∈ a.names).map (duplicate "already present") :=
  (insertAll_of_distinct _ b.distinct a).2

theorem names_addAll (a b : MethodSet) : (a.addAll b).1.names = joined a.names b.names := by
  rw [names, methods_addAll_eq_append, List.map_append, joined, names, names, List.filter_map]
  rfl

theorem fst_addAll_assoc (a b c : MethodSet) :
    ((a.addAll b).1.addAll c).1 = (a.addAll (b.addAll c).1).1 := by
  apply MethodSet.ext
  have behind : c.methods.filter (fun m => m.name ∉ (a.addAll b).1.names) =
      (c.methods.filter fun m => m.name ∉ b.names).filter (fun m => m.name ∉ a.names) := by
    rw [List.filter_filter]
    refine List.filter_congr fun m _ => ?_
    simp only [names_addAll, mem_joined, not_or, Bool.decide_and]
  calc ((a.addAll b).1.addAll c).1.methods
    _ = (a.addAll b).1.methods ++
        (c.methods.filter fun m => m.name ∉ b.names).filter (fun m => m.name ∉ a.names) := by
      rw [methods_addAll_eq_append, behind]
    _ = a.methods ++ (b.addAll c).1.methods.filter (fun m => m.name ∉ a.names) := by
      rw [methods_addAll_eq_append a b, methods_addAll_eq_append b c, List.filter_append,
        List.append_assoc]
    _ = (a.addAll (b.addAll c).1).1.methods := (methods_addAll_eq_append _ _).symm

/-- A method of the third set is reported once in either grouping: as clashing with the second set,
or else, it being in the sum of the last two, with the first. -/
theorem snd_addAll_assoc (a b c : MethodSet) :
    ((a.addAll b).2 ++ ((a.addAll b).1.addAll c).2).Perm
      ((b.addAll c).2 ++ (a.addAll (b.addAll c).1).2) := by
  have third : (c.methods.filter fun m => m.name ∈ (a.addAll b).1.names).Perm
      ((c.methods.filter fun m => m.name ∈ b.names) ++
        (c.methods.filter fun m => m.name ∉ b.names).filter fun m => m.name ∈ a.names) := by
    have split := List.filter_append_perm (fun m : Method => decide (m.name ∈ b.names))
      (c.methods.filter fun m => m.name ∈ (a.addAll b).1.names)
    have second : (c.methods.filter fun m => m.name ∈ (a.addAll b).1.names).filter
        (fun m => m.name ∈ b.names) = c.methods.filter fun m => m.name ∈ b.names := by
      rw [List.filter_filter]
      refine List.filter_congr fun m _ => ?_
      by_cases mem : m.name ∈ b.names <;> simp [names_addAll, mem_joined, mem]
    have first : (c.methods.filter fun m => m.name ∈ (a.addAll b).1.names).filter
        (fun m => !decide (m.name ∈ b.names)) =
          (c.methods.filter fun m => m.name ∉ b.names).filter fun m => m.name ∈ a.names := by
      rw [List.filter_filter, List.filter_filter]
      refine List.filter_congr fun m _ => ?_
      by_cases mem : m.name ∈ b.names <;> simp [names_addAll, mem_joined, mem]
    rw [second, first] at split
    exact split.symm
  rw [findings_addAll, findings_addAll, findings_addAll, findings_addAll]
  rw [methods_addAll_eq_append b c, List.filter_append, List.map_append]
  refine ((third.map _).append_left _).trans ?_
  rw [List.map_append, ← List.append_assoc, ← List.append_assoc]
  exact List.perm_append_comm.append_right _

theorem addAll_of_disjoint {a b : MethodSet} (disjoint : a.names.Disjoint b.names) :
    (a.addAll b).1.methods = a.methods ++ b.methods ∧ (a.addAll b).2 = [] :=
  insertAll_of_nodup (a.distinct.append b.distinct disjoint)

/-- Adding keeps the first set in front and appends the methods of the second that have other
names; the rest of these are reported, each once, in their order.  How two additions are grouped
makes no difference to the set, and none to how often what is reported.  Sets that share no name
can be added in either order, and nothing is reported. -/
theorem addAll_union (a b c : MethodSet) :
    ((a.addAll b).1.methods = a.methods ++ b.methods.filter (fun m => m.name ∉ a.names) ∧
      (a.addAll b).2 = (b.methods.filter fun m => m.name ∈ a.names).map fun m =>
        .errorAt .duplicateMethod ("method " ++ m.name ++ " is already present") m.sig.loc) ∧
      (((a.addAll b).1.addAll c).1 = (a.addAll (b.addAll c).1).1 ∧
        ((a.addAll b).2 ++ ((a.addAll b).1.addAll c).2).Perm
          ((b.addAll c).2 ++ (a.addAll (b.addAll c).1).2)) ∧
      (a.names.Disjoint b.names →
        (a.addAll b).1.methods.Perm (b.addAll a).1.methods ∧
          (a.addAll b).2 = [] ∧ (b.addAll a).2 = []) := by
  have worded (m : Method) : duplicate "already present" m =
      .errorAt .duplicateMethod ("method " ++ m.name ++ " is already present") m.sig.loc := by
    rw [duplicate, String.append_assoc]
    rfl
  refine ⟨⟨methods_addAll_eq_append a b, ?_⟩, ⟨fst_addAll_assoc a b c, snd_addAll_assoc a b c⟩,
    fun disjoint => ?_⟩
  · rw [findings_addAll, funext worded]
  obtain ⟨forward, clean⟩ := addAll_of_disjoint disjoint
  obtain ⟨backward, clean'⟩ := addAll_of_disjoint (List.disjoint_comm.1 disjoint)
  rw [forward, backward]
  exact ⟨List.perm_append_comm, clean, clean'⟩

/-- A method `Unit name() { }`. -/
def idle (name : String) : Method := .ofVersion ⟨⟨name, .named "Unit", [], none⟩, []⟩

theorem addAll_union_idle :
    (single (idle "f")).names.Disjoint (single (idle "g")).names ∧
      ((single (idle "f")).addAll (single (idle "g"))).1.methods.Perm
        ((single (idle "g")).addAll (single (idle "f"))).1.methods ∧
      ((single (idle "f")).addAll (single (idle "g"))).2 = [] ∧
      ((single (idle "g")).addAll (single (idle "f"))).2 = [] := by
  have disjoint : (single (idle "f")).names.Disjoint (single (idle "g")).names :=
    List.disjoint_singleton.2 (by decide)
  exact ⟨disjoint, (addAll_union _ _ empty).2.2 disjoint⟩

end MethodSet

namespace SymbolTable

/-! ## Expressions -/

/-- How two additions are grouped makes no difference to what an expression resolves to, but for
the order of the findings. -/
theorem resolveExpr_adds_assoc (t : SymbolTable) (module : Option String) (base e e' : TraitExpr)
    (r : Resolver) :
    (t.resolveExpr module (.adds (.adds base e) e') r).set =
        (t.resolveExpr module (.adds base (.adds e e')) r).set ∧
      (t.resolveExpr module (.adds (.adds base e) e') r).resolver =
        (t.resolveExpr module (.adds base (.adds e e')) r).resolver ∧
      (t.resolveExpr module (.adds (.adds base e) e') r).findings.Perm
        (t.resolveExpr module (.adds base (.adds e e')) r).findings := by
  simp only [resolveExpr, resolveExprWith, Resolved.andThen]
  generalize t.resolveExprWith _ module base r = x
  generalize t.resolveExprWith _ module e x.resolver = y
  generalize t.resolveExprWith _ module e' y.resolver = z
  refine ⟨MethodSet.fst_addAll_assoc x.set y.set z.set, trivial, ?_⟩
  have clashes := MethodSet.snd_addAll_assoc x.set y.set z.set
  revert clashes
  generalize (x.set.addAll y.set).2 = d, ((x.set.addAll y.set).1.addAll z.set).2 = d'
  intro clashes
  calc (x.findings ++ y.findings ++ d ++ z.findings ++ d')
    _ = x.findings ++ y.findings ++ (d ++ z.findings) ++ d' := by rw [List.append_assoc _ d]
    (x.findings ++ y.findings ++ (d ++ z.findings) ++ d').Perm
        (x.findings ++ y.findings ++ (z.findings ++ d) ++ d') :=
      (List.perm_append_comm.append_left _).append_right _
    _ = x.findings ++ y.findings ++ z.findings ++ (d ++ d') := by simp only [List.append_assoc]
    List.Perm _ _ := clashes.append_left _
    _ = _ := by simp only [List.append_assoc]

/-- Modifying in two steps is modifying by the modified set, with the methods in the same order and
every chain of versions complete, and the set without methods changes nothing on either side.  So
how two modifications are grouped makes no difference to what an expression resolves to: the set,
the findings and what is known afterwards are the same whatever was known before. -/
theorem resolveExpr_modifies_assoc (t : SymbolTable) :
    (∀ a b c : MethodSet, (a.modifyAll b).modifyAll c = a.modifyAll (b.modifyAll c)) ∧
      (∀ a : MethodSet, a.modifyAll .empty = a ∧ MethodSet.empty.modifyAll a = a) ∧
      ∀ module (base e e' : TraitExpr) r,
        t.resolveExpr module (.modifies (.modifies base e) e') r =
          t.resolveExpr module (.modifies base (.modifies e e')) r := by
  refine ⟨MethodSet.modifyAll_assoc, fun a => ⟨rfl, MethodSet.empty_modifyAll a⟩, ?_⟩
  intro module base e e' r
  simp only [resolveExpr, resolveExprWith, MethodSet.modifyAll_assoc, List.append_assoc]

end SymbolTable

end DeltaLang
