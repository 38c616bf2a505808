import DeltaLang.Proofs.Delta.Ordered

/-!
# Deltas that a list names twice

A list of deltas is refused if it repeats a name.  But a delta has two names: its simple name, where
no other module declares a delta of that name, and its qualified name.  A list with both names is
accepted and applies the delta twice; every other delta of a list is applied once.
-/

namespace DeltaLang

/-! ## The names of a declaration -/

/-- A qualified name is put together from the parts that it is split into. -/
theorem eq_append_of_splitQualified {name module simple : String}
    (split : splitQualified name = (some module, simple)) : name = module ++ "." ++ simple := by
  unfold splitQualified at split
  dsimp only at split
  split at split
  · cases split
  · rename_i c front back
    obtain ⟨qualifier, rfl⟩ := Prod.mk.inj split
    obtain rfl := Option.some.inj qualifier
    have dot : c = '.' := by
      have stops := List.head?_dropWhile_not (· ≠ '.') name.toList.reverse
      rw [back] at stops
      simpa using stops
    have parts := List.takeWhile_append_dropWhile (p := (· ≠ '.')) (l := name.toList.reverse)
    rw [back, dot] at parts
    have forward := congrArg List.reverse parts
    rw [List.reverse_reverse, List.reverse_append, List.reverse_cons] at forward
    apply String.toList_inj.1
    simp only [String.toList_append, String.toList_ofList]
    exact forward.symm

namespace Namespace

variable {α : Type} {ns : Namespace α} {name : String} {e e' : Entry α}

/-- Outside of all modules a declaration is meant by its simple name or by its qualified name. -/
theorem eq_name_of_resolve_none (h : ns.resolve none name = .ok e) :
    name = e.name ∨ name = e.qualifiedName := by
  by_cases plain : PlainName name
  · exact .inl (name_eq_of_resolve h plain).symm
  · obtain ⟨module, simple, split⟩ := exists_splitQualified_of_not_plainName plain
    have named : e.name = simple := by rw [name_of_resolve h, split]
    have owned : e.module = module := by
      simp only [resolve, split] at h
      split at h
      · rename_i found
        obtain rfl := Except.ok.inj h
        simpa using List.find?_some found
      · cases h
    right
    rw [Entry.qualifiedName, named, owned]
    exact eq_append_of_splitQualified split

/-- The simple name of a declaration that a name means can only mean that declaration. -/
theorem eq_of_resolve_name (h : ns.resolve none name = .ok e)
    (h' : ns.resolve none e.name = .ok e') : e' = e := by
  have plain := plainName_of_resolve h
  have named : e'.name = e.name := name_eq_of_resolve h' plain
  have owned : e.module = e'.module := module_eq_of_resolve h' plain (mem_of_resolve_eq_ok h) rfl
  have first := find?_of_resolve h'
  rw [named, ← owned, find?_of_resolve h] at first
  exact (Option.some.inj first).symm

/-- Among names that mean something, those of a declaration are the two that it has. -/
theorem eq_iff_of_resolve (h : ns.resolve none name = .ok e) {other : String}
    (h' : ns.resolve none other = .ok e') : e' = e ↔ other = e.name ∨ other = e.qualifiedName := by
  constructor
  · rintro rfl
    exact eq_name_of_resolve_none h'
  · rintro (rfl | rfl)
    · exact eq_of_resolve_name h h'
    · rw [resolve_qualifiedName h none] at h'
      exact (Except.ok.inj h').symm

theorem name_ne_qualifiedName (h : ns.resolve none name = .ok e) : e.name ≠ e.qualifiedName := by
  intro same
  apply plainName_of_resolve h
  rw [same, Entry.qualifiedName]
  simp [String.toList_append]

end Namespace

/-! ## How often a delta is applied -/

theorem countP_eq_of_forall₂ {α β : Type} {R : α → β → Prop} {p : α → Bool} {q : β → Bool}
    (same : ∀ a b, R a b → p a = q b) {l : List α} {l' : List β} (h : List.Forall₂ R l l') :
    l.countP p = l'.countP q := by
  induction h with
  | nil => rfl
  | cons head _ ih => rw [List.countP_cons, List.countP_cons, ih, same _ _ head]

theorem countP_or_eq_add_count {l : List String} {a b : String} (differ : a ≠ b) :
    l.countP (fun s => s = a ∨ s = b) = l.count a + l.count b := by
  induction l with
  | nil => rfl
  | cons s l ih =>
    rw [List.countP_cons, List.count_cons, List.count_cons, ih]
    by_cases first : s = a
    · subst first
      simp [differ]
      omega
    · by_cases second : s = b
      · subst second
        simp [first]
        omega
      · simp [first, second]

namespace Model

variable {m : Model} {names : List String} {es : List (Entry DeltaDecl)} {e : Entry DeltaDecl}

/-- A delta of a valid list is there as often as the list has one of its two names. -/
theorem count_of_valid (valid : m.validateDeltas names = .ok es) (mem : e ∈ es) :
    es.count e = names.count e.name + names.count e.qualifiedName := by
  have means := resolve_of_valid valid
  obtain ⟨name, -, found⟩ := (exists_of_forall₂ means).2 e mem
  rw [← countP_or_eq_add_count (Namespace.name_ne_qualifiedName found)]
  refine (countP_eq_of_forall₂ (fun other e' found' => ?_) means).symm
  rw [beq_eq_decide]
  exact decide_eq_decide.2 (Namespace.eq_iff_of_resolve found found').symm

/-- The deltas of a valid list are distinct if and only if none is listed by both of its names. -/
theorem nodup_iff_of_valid (valid : m.validateDeltas names = .ok es) :
    es.Nodup ↔ ∀ e ∈ es, e.name ∈ names → e.qualifiedName ∉ names := by
  have distinct := (validateDeltas_eq_ok_iff.1 valid).1
  rw [List.nodup_iff_count_le_one]
  constructor
  · intro once e mem simple qualified
    have count := count_of_valid valid mem
    rw [List.count_eq_one_of_mem distinct simple, List.count_eq_one_of_mem distinct qualified]
      at count
    have le := once e
    omega
  · intro apart e
    by_cases mem : e ∈ es
    · rw [count_of_valid valid mem]
      have simple := List.nodup_iff_count_le_one.1 distinct e.name
      have qualified := List.nodup_iff_count_le_one.1 distinct e.qualifiedName
      by_cases listed : e.name ∈ names
      · rw [List.count_eq_zero_of_not_mem (apart e mem listed)]
        exact simple
      · rw [List.count_eq_zero_of_not_mem listed]
        omega
    · rw [List.count_eq_zero_of_not_mem mem]
      exact Nat.zero_le 1

/-- A product is derived by a list that repeats no name, and each delta is applied as often as one
of its two names is listed.  So the deltas applied are distinct if and only if none is listed both
by its simple and by its qualified name. -/
theorem flatten_appliesOnce_iff {f : Flattened} {product : Option String}
    (flat : m.flatten ⟨product, names⟩ = .ok f) :
    ∃ es d, m.validateDeltas names = .ok es ∧ m.applyDeltas es = .ok d ∧ d.composeClasses = f ∧
      names.Nodup ∧
      (∀ e ∈ es, es.count e = names.count e.name + names.count e.qualifiedName) ∧
      (es.Nodup ↔ ∀ e ∈ es, e.name ∈ names → e.qualifiedName ∉ names) := by
  obtain ⟨es, d, valid, applied, composed⟩ := exists_derived_of_flatten flat
  exact ⟨es, d, valid, applied, composed, (validateDeltas_eq_ok_iff.1 valid).1,
    fun e mem => count_of_valid valid mem, nodup_iff_of_valid valid⟩

/-! ## A delta that is applied twice -/

/-- A method whose body is the value of an expression. -/
def valueMethod (value : Expr) : Method :=
  .ofVersion ⟨⟨"m", ⟨"Int", [], []⟩, [], none⟩, [.ret value none]⟩

/-- A delta that puts a version in front of a method of a class. -/
def doublingDelta : DeltaDecl :=
  ⟨"D", none, [], [], none,
    [.modifyClass ⟨"C", [], [.modifyMethod (valueMethod (.original [] none))], none⟩], none⟩

def doublingModel : Model :=
  ⟨[⟨none, [⟨"M", [.class { (default : ClassDecl) with
    name := "C", methods := [valueMethod (.int 1 none)] }, .delta doublingDelta], none⟩]⟩]⟩

theorem flatten_appliesOnce_iff_doublingModel :
    ∃ f, doublingModel.flatten ⟨none, ["M.D"]⟩ = .ok f ∧
      ∃ es, doublingModel.validateDeltas ["M.D"] = .ok es ∧
        es = [⟨⟨0, 0, 1⟩, "M", "D", doublingDelta⟩] ∧ es.Nodup := by
  obtain ⟨f, flat⟩ : ∃ f, doublingModel.flatten ⟨none, ["M.D"]⟩ = .ok f :=
    exists_of_isOk (by decide +kernel)
  obtain ⟨es, d, valid, -, -, -, -, once⟩ := flatten_appliesOnce_iff flat
  have listed : (doublingModel.validateDeltas ["M.D"]).toOption =
      some [⟨⟨0, 0, 1⟩, "M", "D", doublingDelta⟩] := by decide +kernel
  rw [valid] at listed
  obtain rfl := Option.some.inj listed
  exact ⟨f, flat, _, valid, rfl, once.2 (by decide)⟩

/-- A list with both names of a delta is accepted, in a model without errors, and applies the delta
twice, so that two versions are put in front of the method. -/
theorem flatten_repeats_doublingModel :
    (checkModel doublingModel).hasErrors = false ∧
      (doublingModel.validateDeltas ["D", "M.D"]).toOption =
        some [⟨⟨0, 0, 1⟩, "M", "D", doublingDelta⟩, ⟨⟨0, 0, 1⟩, "M", "D", doublingDelta⟩] ∧
      ((doublingModel.flatten ⟨none, ["D", "M.D"]⟩).toOption.map fun f =>
        f.model.classes.map fun c => c.methods.map fun m => m.versions.length) = some [[3]] := by
  refine ⟨?_, ?_, ?_⟩ <;> decide +kernel

end Model

end DeltaLang
