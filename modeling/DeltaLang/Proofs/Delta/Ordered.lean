import DeltaLang.Proofs.Delta.Related
import DeltaLang.Proofs.Delta.Selection

/-!
# Orders that keep constraints

The names in `after` and `before` clauses are checked as references, which prefer the module of the
delta they are written in.  A list of deltas is held to its constraints by another rule: it takes a
name for its first delta of that simple name.  Both agree on plain names of deltas without a
namesake earlier in the list, and such a constraint is kept by every list that is accepted.  The
order of two deltas with a namesake before them is not looked at.
-/

namespace DeltaLang

/-! ## Constraints of a list -/

/-- A list of deltas takes the name for the delta at the position, the first of that name. -/
def TakenFor (es : List (Entry DeltaDecl)) (name : String) (i : Nat) : Prop :=
  es.findIdx? (·.name == name) = some i

/-- A clause of one of the two deltas at these positions asks, as the list takes its name, that the
first of them comes first. -/
def AskedFor (es : List (Entry DeltaDecl)) (i j : Nat) : Prop :=
  (∃ e name, es[j]? = some e ∧ name ∈ e.decl.after ∧ TakenFor es name i) ∨
    ∃ e name, es[i]? = some e ∧ name ∈ e.decl.before ∧ TakenFor es name j

variable {m : Model} {names : List String} {es : List (Entry DeltaDecl)}

theorem takenFor_iff {name : String} {i : Nat} :
    TakenFor es name i ↔ ∃ e, es[i]? = some e ∧ e.name = name ∧
      ∀ k < i, ∀ e', es[k]? = some e' → e'.name ≠ name := by
  rw [TakenFor, List.findIdx?_eq_some_iff_getElem]
  constructor
  · rintro ⟨bound, named, first⟩
    refine ⟨es[i], List.getElem?_eq_getElem bound, by simpa using named, ?_⟩
    intro k before e' found
    obtain ⟨_, rfl⟩ := List.getElem?_eq_some_iff.1 found
    simpa using first k before
  · rintro ⟨e, found, named, first⟩
    obtain ⟨bound, rfl⟩ := List.getElem?_eq_some_iff.1 found
    refine ⟨bound, by simpa using named, fun k before => ?_⟩
    simpa using first k before es[k] (List.getElem?_eq_getElem _)

/-- Where entries are called what their deltas are, an edge is a constraint of the list. -/
theorem mem_edges_iff_askedFor (named : ∀ e ∈ es, e.decl.name = e.name) {i j : Nat} :
    (i, j) ∈ DeltaOrder.edges (es.map (·.decl)) ↔ AskedFor es i j := by
  have index (name : String) (k : Nat) :
      DeltaOrder.indexOf? (es.map (·.decl)) name = some k ↔ TakenFor es name k := by
    have decls : List.Forall₂ (fun d e => d.name = e.name) (es.map (·.decl)) es := by
      rw [List.forall₂_map_left_iff, List.forall₂_same]
      exact named
    rw [DeltaOrder.indexOf?, TakenFor,
      findIdx?_eq_of_forall₂ decls fun d e same => congrArg (· == name) same]
  simp only [DeltaOrder.mem_edges_iff, DeltaOrder.mem_clauseEdges, index, List.getElem?_map,
    Option.map_eq_some_iff]
  constructor
  · rintro ⟨d, k, ⟨e, at', rfl⟩, ⟨rfl, name, mem, taken⟩ | ⟨rfl, name, mem, taken⟩⟩
    · exact .inl ⟨e, name, at', mem, taken⟩
    · exact .inr ⟨e, name, at', mem, taken⟩
  · rintro (⟨e, name, at', mem, taken⟩ | ⟨e, name, at', mem, taken⟩)
    · exact ⟨e.decl, j, ⟨e, at', rfl⟩, .inl ⟨rfl, name, mem, taken⟩⟩
    · exact ⟨e.decl, i, ⟨e, at', rfl⟩, .inr ⟨rfl, name, mem, taken⟩⟩

namespace Model

theorem name_of_mem_of_valid (valid : m.validateDeltas names = .ok es) :
    ∀ e ∈ es, e.decl.name = e.name := fun _ mem =>
  name_of_mem_deltaEntries (mem_deltaEntries_of_valid valid mem)

/-- No name of a valid list is repeated. -/
theorem nodup_of_listedDeltas {t : SymbolTable} {seen : List String}
    (clean : (listedDeltas t seen names).2 = []) : names.Nodup ∧ ∀ name ∈ names, name ∉ seen := by
  induction names generalizing seen with
  | nil => exact ⟨.nil, fun _ mem => by cases mem⟩
  | cons name names ih =>
    rw [listedDeltas] at clean
    by_cases repeated : name ∈ seen
    · simp only [if_pos repeated] at clean
      cases clean
    · simp only [if_neg repeated] at clean
      have rest : (listedDeltas t (name :: seen) names).2 = [] := by
        cases found : t.deltas.resolve none name with
        | ok e => simpa only [found] using clean
        | error err => cases err <;> simp [found] at clean
      obtain ⟨distinct, fresh⟩ := ih rest
      simp only [List.mem_cons, not_or] at fresh
      refine ⟨List.nodup_cons.2 ⟨fun mem => (fresh name mem).1 rfl, distinct⟩, fun n mem => ?_⟩
      rcases List.mem_cons.1 mem with rfl | mem
      · exact repeated
      · exact (fresh n mem).2

/-- In a valid list every edge goes forward. -/
theorem forward_of_valid (valid : m.validateDeltas names = .ok es) {x y : Nat}
    (edge : (x, y) ∈ DeltaOrder.edges (es.map (·.decl))) : x < y := by
  have listed := listedDeltas_of_valid valid
  simp only [validateDeltas, listed, List.isEmpty_nil, if_true] at valid
  cases order : DeltaOrder.order (es.map (·.decl)) with
  | error cycle => simp [order] at valid
  | ok o =>
    simp only [order] at valid
    split at valid
    · rename_i kept
      have notBack := List.filterMap_eq_nil_iff.1 (List.isEmpty_iff.1 kept) (x, y) edge
      obtain ⟨boundX, boundY⟩ := DeltaOrder.lt_of_mem_edges edge
      have notLoop : x ≠ y := by
        rintro rfl
        exact (DeltaOrder.order_sound order).2.2 x edge
      have inOrder : ¬ y < x := fun back => by
        simp [back, List.getElem?_eq_getElem boundX, List.getElem?_eq_getElem boundY] at notBack
      omega
    · cases valid

/-- A list of names is valid and means the given deltas exactly if no name is repeated, each means
its delta, and all constraints are kept as the list takes their names. -/
theorem validateDeltas_eq_ok_iff :
    m.validateDeltas names = .ok es ↔
      names.Nodup ∧
        List.Forall₂ (fun name e => (SymbolTable.ofModel m).deltas.resolve none name = .ok e)
          names es ∧
        ∀ i j, AskedFor es i j → i < j := by
  constructor
  · intro valid
    have listed := listedDeltas_of_valid valid
    refine ⟨(nodup_of_listedDeltas (congrArg Prod.snd listed)).1, resolve_of_valid valid,
      fun i j asked => forward_of_valid valid ?_⟩
    exact (mem_edges_iff_askedFor (name_of_mem_of_valid valid)).2 asked
  · rintro ⟨distinct, means, kept⟩
    have named : ∀ e ∈ es, e.decl.name = e.name := fun e mem => by
      obtain ⟨name, -, found⟩ := (exists_of_forall₂ means).2 e mem
      exact name_of_mem_deltaEntries (Namespace.mem_of_resolve_eq_ok found)
    exact validateDeltas_of_forward means distinct fun x y edge =>
      kept x y ((mem_edges_iff_askedFor named).1 edge)

/-! ## Constraints as they are checked -/

section

variable {f : Flattened} {product : Option String}

/-- A list takes the name of a delta for it if the name is plain and no namesake comes earlier. -/
theorem takenFor_iff_of_resolve {frm : Option String} {name : String} {j : Nat}
    {y : Entry DeltaDecl} (there : es[j]? = some y)
    (plain : ∀ e ∈ es, PlainName e.name)
    (found : (SymbolTable.ofModel m).deltas.resolve frm name = .ok y) :
    TakenFor es name j ↔
      PlainName name ∧ ∀ k < j, ∀ e, es[k]? = some e → e.name ≠ y.name := by
  rw [takenFor_iff]
  constructor
  · rintro ⟨e, here, rfl, first⟩
    obtain rfl : e = y := Option.some.inj (here.symm.trans there)
    exact ⟨plain e (List.mem_of_getElem? there), first⟩
  · rintro ⟨plainName, first⟩
    have named : y.name = name := Namespace.name_eq_of_resolve found plainName
    exact ⟨y, there, named, named ▸ first⟩

/-- A product is derived by a list of deltas that keeps every constraint as it was checked, provided
that the clause names the other delta by a plain name and no namesake of that delta comes earlier;
these are the constraints that the list takes for what they were checked to be.  Every list of
distinct names is accepted that keeps the constraints as it takes them. -/
theorem flatten_keepsConstraints (flat : m.flatten ⟨product, names⟩ = .ok f) :
    ∃ es d, m.validateDeltas names = .ok es ∧ m.applyDeltas es = .ok d ∧ d.composeClasses = f ∧
      (∀ i j x y name, es[i]? = some x → es[j]? = some y →
        (SymbolTable.ofModel m).deltas.resolve (some x.module) name = .ok y →
        (TakenFor es name j ↔
            PlainName name ∧ ∀ k < j, ∀ e, es[k]? = some e → e.name ≠ y.name) ∧
          (TakenFor es name j →
            (name ∈ x.decl.after → j < i) ∧ (name ∈ x.decl.before → i < j))) ∧
      ∀ names' es', names'.Nodup →
        List.Forall₂ (fun name e => (SymbolTable.ofModel m).deltas.resolve none name = .ok e)
          names' es' →
        (m.validateDeltas names' = .ok es' ↔ ∀ i j, AskedFor es' i j → i < j) := by
  obtain ⟨es, d, valid, applied, composed⟩ := exists_derived_of_flatten flat
  obtain ⟨-, means, kept⟩ := validateDeltas_eq_ok_iff.1 valid
  refine ⟨es, d, valid, applied, composed, ?_, fun names' es' distinct means' => ?_⟩
  · intro i j x y name here there found
    have plain : ∀ e ∈ es, PlainName e.name := fun e mem => by
      obtain ⟨_, -, found⟩ := (exists_of_forall₂ means).2 e mem
      exact Namespace.plainName_of_resolve found
    refine ⟨takenFor_iff_of_resolve there plain found, fun taken => ⟨fun mem => ?_, fun mem => ?_⟩⟩
    · exact kept j i (.inl ⟨x, name, here, mem, taken⟩)
    · exact kept i j (.inr ⟨x, name, here, mem, taken⟩)
  · rw [validateDeltas_eq_ok_iff]
    exact ⟨fun valid => valid.2.2, fun kept => ⟨distinct, means', kept⟩⟩

/-- The delta that the other one is to follow is applied first. -/
theorem flatten_keepsConstraints_orderedModel :
    ∃ f, orderedModel.flatten ⟨none, ["E", "D"]⟩ = .ok f ∧
      ∃ es x y, orderedModel.validateDeltas ["E", "D"] = .ok es ∧ es[1]? = some x ∧
        es[0]? = some y ∧ "E" ∈ x.decl.after ∧
        (SymbolTable.ofModel orderedModel).deltas.resolve (some x.module) "E" = .ok y ∧
        TakenFor es "E" 0 ∧ (TakenFor es "E" 0 → 0 < 1) := by
  obtain ⟨f, flat⟩ : ∃ f, orderedModel.flatten ⟨none, ["E", "D"]⟩ = .ok f :=
    exists_of_isOk (by decide +kernel)
  obtain ⟨es, d, valid, -, -, kept, -⟩ := flatten_keepsConstraints flat
  have listed : (orderedModel.validateDeltas ["E", "D"]).toOption = some
      [⟨⟨0, 0, 1⟩, "M", "E", idleDelta "E" [] "F"⟩,
        ⟨⟨0, 0, 0⟩, "M", "D", idleDelta "D" ["E"] "F"⟩] := by
    decide +kernel
  rw [valid] at listed
  obtain rfl := Option.some.inj listed
  have found : (SymbolTable.ofModel orderedModel).deltas.resolve (some "M") "E" =
      .ok ⟨⟨0, 0, 1⟩, "M", "E", idleDelta "E" [] "F"⟩ := by decide +kernel
  obtain ⟨taken, ordered⟩ := kept 1 0 _ _ "E" rfl rfl found
  exact ⟨f, flat, _, _, _, valid, rfl, rfl, List.mem_cons_self, found,
    taken.2 ⟨by simp [PlainName], fun k before => by cases before⟩,
    fun taken => (ordered taken).1 List.mem_cons_self⟩

end

/-! ## A list that a namesake misleads -/

/-- Two modules with a delta of the same name, and a delta that is to follow that of its module. -/
def namesakeModel : Model :=
  ⟨[⟨none, [⟨"A", [.delta (idleDelta "D" [] "F")], none⟩,
    ⟨"B", [.delta (idleDelta "D" [] "F"), .delta (idleDelta "X" ["D"] "F")], none⟩]⟩]⟩

/-- In a model without errors a product is derived by applying a delta before the one that it is to
follow, as its clause is checked. -/
theorem flatten_namesakeModel :
    (checkModel namesakeModel).hasErrors = false ∧
      (namesakeModel.flatten ⟨none, ["A.D", "X", "B.D"]⟩).isOk = true ∧
      ∃ es x y, namesakeModel.validateDeltas ["A.D", "X", "B.D"] = .ok es ∧
        es[1]? = some x ∧ es[2]? = some y ∧ es[0]? ≠ some y ∧ "D" ∈ x.decl.after ∧
        (SymbolTable.ofModel namesakeModel).deltas.resolve (some x.module) "D" = .ok y := by
  refine ⟨by decide +kernel, by decide +kernel, ?_⟩
  obtain ⟨es, valid⟩ : ∃ es, namesakeModel.validateDeltas ["A.D", "X", "B.D"] = .ok es :=
    exists_of_isOk (by decide +kernel)
  have listed : (namesakeModel.validateDeltas ["A.D", "X", "B.D"]).toOption = some
      [⟨⟨0, 0, 0⟩, "A", "D", idleDelta "D" [] "F"⟩, ⟨⟨0, 1, 1⟩, "B", "X", idleDelta "X" ["D"] "F"⟩,
        ⟨⟨0, 1, 0⟩, "B", "D", idleDelta "D" [] "F"⟩] := by
    decide +kernel
  rw [valid] at listed
  obtain rfl := Option.some.inj listed
  exact ⟨_, _, _, valid, rfl, rfl, by decide, List.mem_cons_self, by decide +kernel⟩

end Model

end DeltaLang
