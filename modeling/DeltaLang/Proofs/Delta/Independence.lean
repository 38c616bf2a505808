import DeltaLang.Proofs.Delta.Placing
import DeltaLang.Proofs.Delta.Rearranged

/-!
# Independent deltas commute

Two deltas are independent if neither is to come before the other and no target is touched by
both.  A product can then be derived with them in one order if and only if it can be derived with
them in the other, and the two products only differ in the order of declarations and findings.
-/

namespace DeltaLang

/-! ## Independence -/

namespace DeltaDecl

/-- No clause of one delta asks for an order with the other one. -/
def Unordered (a b : DeltaDecl) : Prop :=
  (b.name ∉ a.after ∧ b.name ∉ a.before) ∧ a.name ∉ b.after ∧ a.name ∉ b.before

/-- The deltas are unordered and have no target in common. -/
structure Independent (a b : DeltaDecl) : Prop where
  unordered : a.Unordered b
  targets : ∀ op ∈ a.ops, ∀ op' ∈ b.ops, op.target ≠ op'.target

theorem Independent.symm {a b : DeltaDecl} (h : a.Independent b) : b.Independent a :=
  ⟨⟨h.unordered.2, h.unordered.1⟩, fun op hop op' hop' eq => h.targets op' hop' op hop eq.symm⟩

/-- Whether the delta targets the declaration. -/
def targets (a : DeltaDecl) (d : Decl) : Bool := a.ops.any (·.target == d.target)

/-- A clause of the delta asks that it follows or precedes itself. -/
def OrderedWithItself (d : DeltaDecl) : Prop := d.name ∈ d.after ∨ d.name ∈ d.before

instance (d : DeltaDecl) : Decidable d.OrderedWithItself := inferInstanceAs (Decidable (_ ∨ _))

end DeltaDecl

/-! ## Lists of two deltas -/

namespace DeltaOrder

theorem foldr_insertEdge_loops (es : List Edge) (h : ∀ e ∈ es, e = (0, 0) ∨ e = (1, 1)) :
    es.foldr insertEdge [] =
      (if (0, 0) ∈ es then [(0, 0)] else []) ++ if (1, 1) ∈ es then [(1, 1)] else [] := by
  induction es with
  | nil => rfl
  | cons e es ih =>
    rw [List.foldr_cons, ih fun e' he' => h e' (List.mem_cons_of_mem e he')]
    rcases h e List.mem_cons_self with rfl | rfl <;> by_cases h0 : (0, 0) ∈ es <;>
      by_cases h1 : (1, 1) ∈ es <;> simp [h0, h1, insertEdge, edgeLt]

/-- The clauses of a delta that name no other delta of the list only ask for a loop. -/
theorem mem_clauseEdges_iff {ds : List DeltaDecl} {d : DeltaDecl} {i : Nat}
    (alone : ∀ n, n ∈ d.after ∨ n ∈ d.before →
      indexOf? ds n = if d.name = n then some i else none) (e : Edge) :
    e ∈ clauseEdges ds d i ↔ e = (i, i) ∧ d.OrderedWithItself := by
  have found (ns : List String) (sub : ∀ n ∈ ns, n ∈ d.after ∨ n ∈ d.before) (j : Nat) :
      j ∈ ns.filterMap (indexOf? ds) ↔ j = i ∧ d.name ∈ ns := by
    rw [List.mem_filterMap]
    constructor
    · rintro ⟨n, hn, index⟩
      rw [alone n (sub n hn)] at index
      split at index
      · exact ⟨(Option.some.inj index).symm, ‹d.name = n› ▸ hn⟩
      · cases index
    · rintro ⟨rfl, hn⟩
      exact ⟨d.name, hn, by rw [alone _ (sub _ hn), if_pos rfl]⟩
  obtain ⟨x, y⟩ := e
  simp only [clauseEdges, List.mem_append, List.mem_map, found _ fun n => Or.inl,
    found _ fun n => Or.inr, DeltaDecl.OrderedWithItself, Prod.mk.injEq]
  constructor
  · rintro (⟨j, ⟨rfl, h⟩, rfl, rfl⟩ | ⟨j, ⟨rfl, h⟩, rfl, rfl⟩)
    · exact ⟨⟨rfl, rfl⟩, .inl h⟩
    · exact ⟨⟨rfl, rfl⟩, .inr h⟩
  · rintro ⟨⟨rfl, rfl⟩, h | h⟩
    · exact .inl ⟨_, ⟨rfl, h⟩, rfl, rfl⟩
    · exact .inr ⟨_, ⟨rfl, h⟩, rfl, rfl⟩

variable {a b : DeltaDecl}

theorem edges_pair (h : a.Unordered b) :
    edges [a, b] = (if a.OrderedWithItself then [(0, 0)] else []) ++
      if b.OrderedWithItself then [(1, 1)] else [] := by
  obtain ⟨⟨after, before⟩, after', before'⟩ := h
  have first (e : Edge) : e ∈ clauseEdges [a, b] a 0 ↔ e = (0, 0) ∧ a.OrderedWithItself := by
    refine mem_clauseEdges_iff (fun n hn => ?_) e
    have ne : b.name ≠ n := by
      rintro rfl
      exact hn.elim after before
    simp [indexOf?, List.findIdx?_cons, ne]
  have second (e : Edge) : e ∈ clauseEdges [a, b] b 1 ↔ e = (1, 1) ∧ b.OrderedWithItself := by
    refine mem_clauseEdges_iff (fun n hn => ?_) e
    have ne : a.name ≠ n := by
      rintro rfl
      exact hn.elim after' before'
    simp [indexOf?, List.findIdx?_cons, ne]
  have clauses : ([a, b].zipIdx.flatMap fun s => clauseEdges [a, b] s.1 s.2) =
      clauseEdges [a, b] a 0 ++ clauseEdges [a, b] b 1 := by simp [List.zipIdx_cons]
  rw [edges, clauses, foldr_insertEdge_loops]
  · simp only [List.mem_append, first, second]
    simp
  · intro e he
    rcases List.mem_append.1 he with he | he
    · exact .inl ((first e).1 he).1
    · exact .inr ((second e).1 he).1

theorem isOk_order_pair (h : a.Unordered b) :
    (order [a, b]).isOk = decide (¬ (a.OrderedWithItself ∨ b.OrderedWithItself)) := by
  rw [isOk_order, placing, edges_pair h, List.length_cons, List.length_singleton]
  by_cases ha : a.OrderedWithItself <;> by_cases hb : b.OrderedWithItself <;>
    simp only [ha, hb] <;> decide

end DeltaOrder

namespace Model

variable {m : Model} {n₁ n₂ : String} {e₁ e₂ : Entry DeltaDecl}

theorem brokenConstraints_pair {a b : DeltaDecl} (h : a.Unordered b) :
    brokenConstraints [a, b] = [] := by
  rw [brokenConstraints, DeltaOrder.edges_pair h]
  by_cases ha : a.OrderedWithItself <;> by_cases hb : b.OrderedWithItself <;> simp [ha, hb]

/-- A list of two unordered deltas is valid unless one of them is to precede itself. -/
theorem validateDeltas_pair (h₁ : (SymbolTable.ofModel m).deltas.resolve none n₁ = .ok e₁)
    (h₂ : (SymbolTable.ofModel m).deltas.resolve none n₂ = .ok e₂) (ne : n₁ ≠ n₂)
    (unordered : e₁.decl.Unordered e₂.decl) :
    if e₁.decl.OrderedWithItself ∨ e₂.decl.OrderedWithItself then
      ∃ ds, m.validateDeltas [n₁, n₂] = .error ds
    else m.validateDeltas [n₁, n₂] = .ok [e₁, e₂] := by
  have listed : listedDeltas (.ofModel m) [] [n₁, n₂] = ([e₁, e₂], []) := by
    simp [listedDeltas, h₁, h₂, ne.symm]
  have order := DeltaOrder.isOk_order_pair unordered
  simp only [validateDeltas, listed, List.isEmpty_nil, if_pos, List.map_cons, List.map_nil,
    brokenConstraints_pair unordered]
  cases result : DeltaOrder.order [e₁.decl, e₂.decl] with
  | error cycle =>
    rw [result] at order
    rw [if_pos (not_not.1 (of_decide_eq_false order.symm))]
    exact ⟨_, rfl⟩
  | ok _ =>
    rw [result] at order
    rw [if_neg (of_decide_eq_true order.symm)]

theorem validateDeltas_repeated (m : Model) (n : String) :
    ∃ ds, m.validateDeltas [n, n] = .error ds := by
  obtain ⟨d, ds, listed⟩ : ∃ d ds, (listedDeltas (.ofModel m) [] [n, n]).2 = d :: ds := by
    simp only [listedDeltas, List.mem_cons, true_or, if_pos, List.not_mem_nil, if_false]
    split <;> exact ⟨_, _, rfl⟩
  simp only [validateDeltas, listed]
  exact ⟨_, rfl⟩

/-- A valid list of two deltas yields a product if both can be applied. -/
theorem flatten_pair {product : Option String} (valid : m.validateDeltas [n₁, n₂] = .ok [e₁, e₂]) :
    let once := m.applyDelta e₁.module e₁.decl
    let twice := once.1.applyDelta e₂.module e₂.decl
    m.flatten ⟨product, [n₁, n₂]⟩ =
      if once.2 = [] ∧ twice.2 = [] then .ok twice.1.composeClasses
      else .error ⟨product, if once.2 = [] then twice.2 else once.2⟩ := by
  intro once twice
  simp only [flatten_of_valid valid, applyDeltas, List.isEmpty_iff]
  by_cases first : once.2 = [] <;> by_cases second : twice.2 = [] <;>
    simp [first, second, once, twice]

/-! ## Two deltas in either order -/

variable {p : Decl → Bool} {a b : DeltaDecl} {i j : String}

/-- In a part with all that one delta targets and nothing that the other one does, only the former
shows, whichever comes first. -/
theorem restrict_applyDelta_applyDelta (keeps : KeepsTraits p)
    (covers : ∀ op ∈ b.ops, Covers p op.target) (avoids : ∀ op ∈ a.ops, Avoids p op.target)
    (m : Model) :
    ((m.applyDelta i a).1.applyDelta j b).2 = (m.applyDelta j b).2 ∧
      ((m.applyDelta i a).1.applyDelta j b).1.restrict p =
        ((m.applyDelta j b).1.applyDelta i a).1.restrict p := by
  have second := applyDelta_restrict keeps covers (m.applyDelta i a).1 j
  rw [restrict_applyDelta avoids m i, applyDelta_restrict keeps covers m j, Prod.mk.injEq] at second
  exact ⟨second.2.symm, second.1.symm.trans (restrict_applyDelta avoids _ i).symm⟩

theorem targets_eq_true {d : Decl} {op : DeltaOp} (h : op ∈ a.ops) (eq : d.target = op.target) :
    a.targets d = true := List.any_eq_true.2 ⟨op, h, by simp [eq]⟩

theorem targets_eq_false {d : Decl} (h : ∀ op ∈ a.ops, op.target ≠ d.target) :
    a.targets d = false := List.any_eq_false.2 fun op hop => by simp [h op hop]

/-- Independent deltas that leave the traits alone can be applied in either order. -/
theorem applyDelta_comm (independent : a.Independent b) (traits₁ : a.LeavesTraits)
    (traits₂ : b.LeavesTraits) (m : Model) (i j : String) :
    let m₁ := (m.applyDelta i a).1.applyDelta j b
    let m₂ := (m.applyDelta j b).1.applyDelta i a
    m₁.2 = (m.applyDelta j b).2 ∧ m₂.2 = (m.applyDelta i a).2 ∧ m₁.1.Rearranged m₂.1 ∧
      (SymbolTable.ofModel m₁.1).SameTraits (.ofModel m₂.1) := by
  have untouched {op : DeltaOp} (hop : op ∈ a.ops) {d : Decl} (eq : d.target = op.target) :
      b.targets d = false :=
    targets_eq_false fun op' hop' same => independent.targets op hop op' hop' (by rw [← eq, same])
  have trait (t : TraitDecl) : b.targets (.trait t) = false :=
    targets_eq_false fun op hop same => traits₂ op hop (by rw [same]; rfl)
  -- The one part has the targets of the second delta and the traits, the other one all other
  -- declarations and the traits.
  let part (d : Decl) : Bool := b.targets d || d.kind == .trait
  let rest (d : Decl) : Bool := !b.targets d
  have keepsPart : KeepsTraits part := fun t => by simp [part, Decl.kind]
  have keepsRest : KeepsTraits rest := fun t => by simp [rest, trait]
  have coversPart : ∀ op ∈ b.ops, Covers part op.target := fun op hop d eq => by
    simp [part, targets_eq_true hop eq]
  have avoidsPart : ∀ op ∈ a.ops, Avoids part op.target := fun op hop d eq => by
    have other : d.kind ≠ .trait := fun kind => traits₁ op hop (by rw [← eq]; exact kind)
    simp [part, untouched hop eq, other]
  have coversRest : ∀ op ∈ a.ops, Covers rest op.target := fun op hop d eq => by
    simp [rest, untouched hop eq]
  have avoidsRest : ∀ op ∈ b.ops, Avoids rest op.target := fun op hop d eq => by
    simp [rest, targets_eq_true hop eq]
  obtain ⟨findings, same⟩ :=
    restrict_applyDelta_applyDelta (i := i) (j := j) keepsPart coversPart avoidsPart m
  obtain ⟨findings', same'⟩ :=
    restrict_applyDelta_applyDelta (i := j) (j := i) keepsRest coversRest avoidsRest m
  refine ⟨findings, findings', rearranged_of_restrict_eq (p := b.targets) ?_ same'.symm,
    sameTraits_of_restrict_eq keepsPart same⟩
  have sub : ∀ d, b.targets d = true → part d = true := fun d hd => by simp [part, hd]
  rw [← restrict_restrict sub, same, restrict_restrict sub]

/-- A product can be derived with two independent deltas in either order or in none, and what is
derived only differs in the order of declarations and findings. -/
theorem flatten_comm (h₁ : (SymbolTable.ofModel m).deltas.resolve none n₁ = .ok e₁)
    (h₂ : (SymbolTable.ofModel m).deltas.resolve none n₂ = .ok e₂)
    (independent : e₁.decl.Independent e₂.decl) (traits₁ : e₁.decl.LeavesTraits)
    (traits₂ : e₂.decl.LeavesTraits) (product₁ product₂ : Option String) :
    (m.flatten ⟨product₁, [n₁, n₂]⟩).isOk = (m.flatten ⟨product₂, [n₂, n₁]⟩).isOk ∧
      ∀ f f', m.flatten ⟨product₁, [n₁, n₂]⟩ = .ok f → m.flatten ⟨product₂, [n₂, n₁]⟩ = .ok f' →
        f.model.Rearranged f'.model ∧ f.findings.Perm f'.findings := by
  rcases eq_or_ne n₁ n₂ with rfl | ne
  · obtain ⟨ds, invalid⟩ := m.validateDeltas_repeated n₁
    rw [flatten_of_invalid product₁ invalid, flatten_of_invalid product₂ invalid]
    exact ⟨rfl, fun f f' hf => by cases hf⟩
  · have valid := validateDeltas_pair h₁ h₂ ne independent.unordered
    have valid' := validateDeltas_pair h₂ h₁ ne.symm independent.symm.unordered
    by_cases ordered : e₁.decl.OrderedWithItself ∨ e₂.decl.OrderedWithItself
    · rw [if_pos ordered] at valid
      rw [if_pos ordered.symm] at valid'
      obtain ⟨ds, invalid⟩ := valid
      obtain ⟨ds', invalid'⟩ := valid'
      rw [flatten_of_invalid product₁ invalid, flatten_of_invalid product₂ invalid']
      exact ⟨rfl, fun f f' hf => by cases hf⟩
    · rw [if_neg ordered] at valid
      rw [if_neg (mt Or.symm ordered)] at valid'
      obtain ⟨findings, findings', rearranged, same⟩ :=
        applyDelta_comm independent traits₁ traits₂ m e₁.module e₂.module
      rw [flatten_pair valid, flatten_pair valid', findings, findings']
      by_cases applied : (m.applyDelta e₁.module e₁.decl).2 = [] ∧
        (m.applyDelta e₂.module e₂.decl).2 = []
      · rw [if_pos applied, if_pos applied.symm]
        refine ⟨Eq.trans (b := true) rfl rfl, fun f f' hf hf' => ?_⟩
        obtain rfl := Except.ok.inj hf
        obtain rfl := Except.ok.inj hf'
        exact rearranged.composeClasses same
      · rw [if_neg applied, if_neg (mt And.symm applied)]
        exact ⟨Eq.trans (b := false) rfl rfl, fun f f' hf => by cases hf⟩

/-! ## A program with independent deltas -/

/-- Adds a class. -/
def classDelta : DeltaDecl :=
  ⟨"A", none, [], [], none, [.addClass { (default : ClassDecl) with name := "New" }], none⟩

/-- Adds a method to a class. -/
def methodDelta : DeltaDecl :=
  ⟨"B", none, [], [], none, [.modifyClass ⟨"Old", [], [.addMethod default], none⟩], none⟩

/-- A class and two deltas. -/
def deltasModel : Model :=
  ⟨[⟨none, [⟨"M", [.class { (default : ClassDecl) with name := "Old" }, .delta classDelta,
    .delta methodDelta], none⟩]⟩]⟩

theorem flatten_comm_deltasModel :
    (deltasModel.flatten ⟨none, ["A", "B"]⟩).isOk = true ∧
      (deltasModel.flatten ⟨none, ["B", "A"]⟩).isOk = true ∧
      ∀ f f', deltasModel.flatten ⟨none, ["A", "B"]⟩ = .ok f →
        deltasModel.flatten ⟨none, ["B", "A"]⟩ = .ok f' →
          f.model.Rearranged f'.model ∧ f.findings.Perm f'.findings := by
  have independent : classDelta.Independent methodDelta :=
    ⟨by simp [DeltaDecl.Unordered, classDelta, methodDelta], by decide +kernel⟩
  have traits₁ : classDelta.LeavesTraits := by unfold DeltaDecl.LeavesTraits; decide +kernel
  have traits₂ : methodDelta.LeavesTraits := by unfold DeltaDecl.LeavesTraits; decide +kernel
  have first : (SymbolTable.ofModel deltasModel).deltas.resolve none "A" =
      .ok ⟨⟨0, 0, 1⟩, "M", "A", classDelta⟩ := rfl
  have second : (SymbolTable.ofModel deltasModel).deltas.resolve none "B" =
      .ok ⟨⟨0, 0, 2⟩, "M", "B", methodDelta⟩ := rfl
  have comm := flatten_comm first second independent traits₁ traits₂ none none
  have ok : (deltasModel.flatten ⟨none, ["A", "B"]⟩).isOk = true := by decide +kernel
  exact ⟨ok, comm.1.symm.trans ok, comm.2⟩

end Model

end DeltaLang
