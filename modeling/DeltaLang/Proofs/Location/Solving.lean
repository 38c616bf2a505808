import DeltaLang.Proofs.Location.Order
import DeltaLang.Proofs.Location.Sites
import Mathlib.Algebra.Order.BigOperators.Group.List
import Mathlib.Algebra.Order.Ring.Nat
import Mathlib.Data.Nat.Find

/-!
# Solving is exact

A round lets every flow take effect, in place, and only ever raises types.  A type rises three times
at most, so the rounds come to one that changes nothing, long before they are stopped.  What they
come to admits all that flows, and since each step stays below whatever does, it is the least such
solution.  Being the least, it cannot depend on the order in which the flows take effect.
-/

namespace DeltaLang

namespace Valuation

/-- The type of a node; that of a node which is not in the valuation is the bottom type. -/
def typeOf (values : Valuation) (node : NodeRef) : LocationType :=
  (values.lookup node).getD .bottom

/-- No node has a type that the other valuation does not admit there. -/
def Below (v w : Valuation) : Prop := ∀ node, v.typeOf node ≤ w.typeOf node

variable {u v w : Valuation}

theorem Below.refl (v : Valuation) : v.Below v := fun _ => le_refl _

theorem Below.trans (h : u.Below v) (h' : v.Below w) : u.Below w :=
  fun node => le_trans (h node) (h' node)

theorem typeOf_cons (node n : NodeRef) (t : LocationType) (v : Valuation) :
    typeOf ((n, t) :: v) node = if node = n then t else v.typeOf node := by
  unfold typeOf
  rw [List.lookup_cons]
  by_cases same : node = n
  · simp [same]
  · rw [if_neg same, beq_false_of_ne same]

theorem typeOf_of_notMem {node : NodeRef} (h : node ∉ v.map Prod.fst) :
    v.typeOf node = .bottom := by
  have absent : v.lookup node = none := by
    rw [List.lookup_eq_none_iff]
    intro p mem
    rw [bne_iff_ne]
    intro same
    exact h (same ▸ List.mem_map_of_mem mem)
  rw [typeOf, absent]
  rfl

/-- Valuations of the same nodes are told apart by the types they give. -/
theorem eq_of_typeOf (keys : v.map Prod.fst = w.map Prod.fst) (nodup : (v.map Prod.fst).Nodup)
    (h : ∀ node, v.typeOf node = w.typeOf node) : v = w := by
  induction v generalizing w with
  | nil => exact (List.map_eq_nil_iff.1 keys.symm).symm
  | cons entry v ih =>
    obtain ⟨n, t⟩ := entry
    cases w with
    | nil => cases keys
    | cons entry' w =>
      obtain ⟨n', t'⟩ := entry'
      obtain ⟨rfl, rest⟩ : n = n' ∧ v.map Prod.fst = w.map Prod.fst := List.cons.inj keys
      have fresh : n ∉ v.map Prod.fst := (List.nodup_cons.1 nodup).1
      have here : t = t' := by simpa [typeOf_cons] using h n
      have same : v = w := by
        refine ih rest (List.nodup_cons.1 nodup).2 fun node => ?_
        by_cases same : node = n
        · rw [same, typeOf_of_notMem fresh, typeOf_of_notMem (rest ▸ fresh)]
        · simpa [typeOf_cons, same] using h node
      rw [here, same]

theorem Below.antisymm (h : v.Below w) (h' : w.Below v) (keys : v.map Prod.fst = w.map Prod.fst)
    (nodup : (v.map Prod.fst).Nodup) : v = w :=
  eq_of_typeOf keys nodup fun node => le_antisymm (h node) (h' node)

theorem keys_assign (v : Valuation) (node : NodeRef) (t : LocationType) :
    (FlowSystem.assign v node t).map Prod.fst = v.map Prod.fst := by
  unfold FlowSystem.assign
  rw [List.map_map]
  rfl

theorem typeOf_assign {n : NodeRef} (known : n ∈ v.map Prod.fst) (t : LocationType)
    (node : NodeRef) :
    typeOf (FlowSystem.assign v n t) node = if node = n then t else v.typeOf node := by
  induction v with
  | nil => cases known
  | cons entry v ih =>
    obtain ⟨n', t'⟩ := entry
    have step : FlowSystem.assign ((n', t') :: v) n t =
        (n', if n' = n then t else t') :: FlowSystem.assign v n t := rfl
    rw [step, typeOf_cons, typeOf_cons]
    by_cases here : node = n'
    · subst here
      by_cases same : node = n <;> simp [same]
    · rw [if_neg here, if_neg here]
      by_cases later : n ∈ v.map Prod.fst
      · exact ih later
      · have first : n = n' := (List.mem_cons.1 known).resolve_right later
        have other : node ≠ n := fun same => here (same.trans first)
        have kept : FlowSystem.assign v n t = v := by
          unfold FlowSystem.assign
          conv_rhs => rw [← List.map_id v]
          refine List.map_congr_left fun ⟨m, old⟩ mem => ?_
          have ne : m ≠ n := fun same => later (same ▸ List.mem_map_of_mem mem)
          simp [ne]
        rw [kept, if_neg other]

end Valuation

namespace FlowSystem

variable (s : FlowSystem)

/-- The declarations to solve for. -/
def unannotated : List NodeRef := (s.decls.filter fun (_, d) => d.fixed.isNone).map Prod.fst

/-- What the flow stores is admitted by its target, if that is to be solved for. -/
def Admits (values : Valuation) (f : Flow) : Prop :=
  ∀ rank, s.decls.lookup f.target = some ⟨none, rank⟩ →
    (s.eval values f.value).widen rank s.options.precision ≤ values.typeOf f.target

/-- The valuation gives a type to each declaration that is not annotated; to one that nothing flows
into it is at least the default, and to the others one that admits all that flows into them. -/
structure Solves (values : Valuation) : Prop where
  domain : values.map Prod.fst = s.unannotated
  default : ∀ node ∈ s.unannotated, (∀ f ∈ s.flows, f.target ≠ node) →
    s.options.default ≤ values.typeOf node
  admits : ∀ f ∈ s.flows, s.Admits values f

variable {s} {v w : Valuation} {f : Flow}

/-! ## One flow -/

theorem nodup_unannotated (h : (s.decls.map Prod.fst).Nodup) : s.unannotated.Nodup :=
  h.sublist (List.filter_sublist.map _)

theorem mem_unannotated {node : NodeRef} {rank : Nat}
    (h : s.decls.lookup node = some ⟨none, rank⟩) : node ∈ s.unannotated := by
  obtain ⟨front, back, split, -⟩ := List.lookup_eq_some_iff.1 h
  refine List.mem_map.2 ⟨(node, ⟨none, rank⟩), List.mem_filter.2 ⟨?_, rfl⟩, rfl⟩
  rw [split]
  exact List.mem_append_right _ (List.mem_cons_self ..)

/-- Terms are monotone in the declarations they hang on. -/
theorem eval_mono (h : v.Below w) (value : LocationTerm) : s.eval v value ≤ s.eval w value := by
  induction value with
  | const t => exact le_refl t
  | var node =>
    unfold eval
    cases s.fixed? node with
    | some t => exact le_refl t
    | none => exact h node
  | adapt receiver declared ih => exact LocationType.adapt_mono ih declared

theorem keys_flowOnce (v : Valuation) (f : Flow) :
    (s.flowOnce v f).map Prod.fst = v.map Prod.fst := by
  unfold flowOnce
  split
  · exact v.keys_assign f.target _
  · rfl

/-- A flow changes its target only, by joining what it stores there. -/
theorem typeOf_flowOnce (domain : v.map Prod.fst = s.unannotated) {rank : Nat}
    (target : s.decls.lookup f.target = some ⟨none, rank⟩) (node : NodeRef) :
    Valuation.typeOf (s.flowOnce v f) node =
      if node = f.target then
        v.typeOf f.target ⊔ (s.eval v f.value).widen rank s.options.precision
      else v.typeOf node := by
  have known : f.target ∈ v.map Prod.fst := domain ▸ mem_unannotated target
  unfold flowOnce
  rw [target]
  exact Valuation.typeOf_assign known _ node

theorem flowOnce_of_annotated (h : ∀ rank, s.decls.lookup f.target ≠ some ⟨none, rank⟩) :
    s.flowOnce v f = v := by
  unfold flowOnce
  split
  · rename_i rank target
    exact absurd target (h rank)
  · rfl

theorem below_flowOnce (domain : v.map Prod.fst = s.unannotated) (f : Flow) :
    v.Below (s.flowOnce v f) := by
  intro node
  by_cases target : ∃ rank, s.decls.lookup f.target = some ⟨none, rank⟩
  · obtain ⟨rank, target⟩ := target
    rw [typeOf_flowOnce domain target]
    by_cases here : node = f.target
    · rw [if_pos here, here]
      exact le_sup_left
    · rw [if_neg here]
  · rw [flowOnce_of_annotated (not_exists.1 target)]

theorem flowOnce_below (domain : v.map Prod.fst = s.unannotated) (h : v.Below w)
    (admits : s.Admits w f) : Valuation.Below (s.flowOnce v f) w := by
  intro node
  by_cases target : ∃ rank, s.decls.lookup f.target = some ⟨none, rank⟩
  · obtain ⟨rank, target⟩ := target
    rw [typeOf_flowOnce domain target]
    by_cases here : node = f.target
    · rw [if_pos here, here]
      have incoming := LocationType.widen_mono (s.eval_mono h f.value) rank s.options.precision
      exact sup_le (h f.target) (le_trans incoming (admits rank target))
    · rw [if_neg here]
      exact h node
  · rw [flowOnce_of_annotated (not_exists.1 target)]
    exact h node

/-- A flow that changes nothing is admitted. -/
theorem admits_of_flowOnce_eq (domain : v.map Prod.fst = s.unannotated)
    (h : s.flowOnce v f = v) : s.Admits v f := by
  intro rank target
  have joined := typeOf_flowOnce domain target f.target
  rw [h, if_pos rfl] at joined
  rw [joined]
  exact le_sup_right

/-! ## Rounds -/

section Rounds

variable (flows : List Flow)

theorem keys_flows (v : Valuation) : (flows.foldl s.flowOnce v).map Prod.fst = v.map Prod.fst := by
  induction flows generalizing v with
  | nil => rfl
  | cons f flows ih => exact (ih _).trans (keys_flowOnce v f)

theorem below_flows (domain : v.map Prod.fst = s.unannotated) :
    v.Below (flows.foldl s.flowOnce v) := by
  induction flows generalizing v with
  | nil => exact .refl v
  | cons f flows ih =>
    exact (below_flowOnce domain f).trans (ih ((keys_flowOnce v f).trans domain))

theorem flows_below (domain : v.map Prod.fst = s.unannotated) (h : v.Below w)
    (admits : ∀ f ∈ flows, s.Admits w f) : Valuation.Below (flows.foldl s.flowOnce v) w := by
  induction flows generalizing v with
  | nil => exact h
  | cons f flows ih =>
    have first := flowOnce_below domain h (admits f (List.mem_cons_self ..))
    exact ih ((keys_flowOnce v f).trans domain) first fun g mem =>
      admits g (List.mem_cons_of_mem f mem)

/-- Flows that change nothing together change nothing each: none can take back what another did. -/
theorem flowOnce_eq_of_flows (nodup : s.unannotated.Nodup) (domain : v.map Prod.fst = s.unannotated)
    (h : flows.foldl s.flowOnce v = v) : ∀ f ∈ flows, s.flowOnce v f = v := by
  induction flows with
  | nil =>
    intro f mem
    cases mem
  | cons f flows ih =>
    have domain' : (s.flowOnce v f).map Prod.fst = s.unannotated :=
      (keys_flowOnce v f).trans domain
    have down : Valuation.Below (s.flowOnce v f) v := by
      have later := below_flows (s := s) flows domain'
      rwa [← List.foldl_cons, h] at later
    have first : s.flowOnce v f = v :=
      down.antisymm (below_flowOnce domain f) (keys_flowOnce v f) (domain' ▸ nodup)
    rw [List.foldl_cons, first] at h
    intro g mem
    cases mem with
    | head => exact first
    | tail _ mem => exact ih h g mem

end Rounds

theorem keys_start : s.start.map Prod.fst = s.unannotated := by
  unfold start unannotated
  rw [List.map_map]
  rfl

theorem keys_iterate (n : Nat) : (s.round^[n] s.start).map Prod.fst = s.unannotated := by
  induction n with
  | zero => exact keys_start
  | succ n ih =>
    rw [Function.iterate_succ_apply']
    exact (keys_flows s.flows _).trans ih

theorem typeOf_start {node : NodeRef} (h : node ∈ s.unannotated) :
    Valuation.typeOf s.start node =
      if s.flows.any (·.target == node) then .bottom else s.options.default := by
  have graph : s.start = s.unannotated.map fun node =>
      (node, if s.flows.any (·.target == node) then .bottom else s.options.default) := by
    unfold start unannotated
    rw [List.map_map]
    rfl
  unfold Valuation.typeOf
  rw [graph, List.lookup_graph _ h]
  rfl

theorem Solves.start_below (h : s.Solves w) : Valuation.Below s.start w := by
  intro node
  by_cases solved : node ∈ s.unannotated
  · rw [typeOf_start solved]
    by_cases reached : s.flows.any (·.target == node) = true
    · rw [if_pos reached]
      exact LocationType.bottom_le _
    · rw [if_neg reached]
      refine h.default node solved fun f mem same => reached ?_
      exact List.any_eq_true.2 ⟨f, mem, beq_iff_eq.2 same⟩
  · rw [Valuation.typeOf_of_notMem (keys_start ▸ solved)]
    exact LocationType.bottom_le _

/-- However often the rounds are repeated, no solution is passed. -/
theorem Solves.iterate_below (h : s.Solves w) (n : Nat) :
    Valuation.Below (s.round^[n] s.start) w := by
  induction n with
  | zero => exact h.start_below
  | succ n ih =>
    rw [Function.iterate_succ_apply']
    exact flows_below s.flows (keys_iterate n) ih h.admits

theorem start_below_iterate (n : Nat) : Valuation.Below s.start (s.round^[n] s.start) := by
  induction n with
  | zero => exact .refl _
  | succ n ih =>
    rw [Function.iterate_succ_apply']
    exact ih.trans (below_flows s.flows (keys_iterate n))

/-- Where a round changes nothing, all is solved. -/
theorem solves_of_round_eq (nodup : s.unannotated.Nodup) {n : Nat}
    (h : s.round (s.round^[n] s.start) = s.round^[n] s.start) :
    s.Solves (s.round^[n] s.start) where
  domain := keys_iterate n
  default := by
    intro node solved unreached
    have started : Valuation.typeOf s.start node = s.options.default := by
      rw [typeOf_start solved, if_neg]
      intro reached
      obtain ⟨f, mem, same⟩ := List.any_eq_true.1 reached
      exact unreached f mem (beq_iff_eq.1 same)
    rw [← started]
    exact start_below_iterate n node
  admits := fun f mem =>
    admits_of_flowOnce_eq (keys_iterate n)
      (flowOnce_eq_of_flows s.flows nodup (keys_iterate n) h f mem)

/-! ## The rounds come to an end -/

/-- How far the types have risen altogether. -/
def level (s : FlowSystem) (values : Valuation) : Nat :=
  (s.unannotated.map fun node => (values.typeOf node).height).sum

theorem level_le (v : Valuation) : s.level v ≤ 3 * s.decls.length := by
  have each : ∀ n ∈ s.unannotated.map fun node => (v.typeOf node).height, n ≤ 3 := by
    intro n mem
    obtain ⟨node, -, rfl⟩ := List.mem_map.1 mem
    exact LocationType.height_le _
  have total := List.sum_le_card_nsmul _ 3 each
  have fewer : s.unannotated.length ≤ s.decls.length := by
    unfold unannotated
    rw [List.length_map]
    exact List.length_filter_le _ _
  rw [List.length_map, nsmul_eq_mul, Nat.cast_id] at total
  unfold level
  omega

theorem level_lt (nodup : s.unannotated.Nodup) (domain : v.map Prod.fst = s.unannotated)
    (domain' : w.map Prod.fst = s.unannotated) (h : v.Below w) (ne : v ≠ w) :
    s.level v < s.level w := by
  have risen : ∃ node ∈ s.unannotated, v.typeOf node ≠ w.typeOf node := by
    by_contra none
    push Not at none
    refine ne (Valuation.eq_of_typeOf (domain.trans domain'.symm) (domain ▸ nodup) fun node => ?_)
    by_cases solved : node ∈ s.unannotated
    · exact none node solved
    · rw [Valuation.typeOf_of_notMem (domain ▸ solved),
        Valuation.typeOf_of_notMem (domain' ▸ solved)]
  obtain ⟨node, solved, ne⟩ := risen
  exact List.sum_lt_sum _ _ (fun n _ => LocationType.height_mono (h n))
    ⟨node, solved, LocationType.height_lt_of_ne (h node) ne⟩

/-- As long as every round changes something, each adds to the level. -/
theorem le_level_iterate (nodup : s.unannotated.Nodup) (n : Nat)
    (h : ∀ j < n, s.round (s.round^[j] s.start) ≠ s.round^[j] s.start) :
    n ≤ s.level (s.round^[n] s.start) := by
  induction n with
  | zero => exact Nat.zero_le _
  | succ n ih =>
    have before := ih fun j below => h j (Nat.lt_succ_of_lt below)
    have changed := h n (Nat.lt_succ_self n)
    rw [Function.iterate_succ_apply']
    have grown : s.level (s.round^[n] s.start) < s.level (s.round (s.round^[n] s.start)) :=
      level_lt nodup (keys_iterate n) ((keys_flows s.flows _).trans (keys_iterate n))
        (below_flows s.flows (keys_iterate n)) changed.symm
    omega

/-- Some round within the bound is the first to change nothing. -/
theorem exists_round_eq (nodup : s.unannotated.Nodup) :
    ∃ k < s.rounds, s.round (s.round^[k] s.start) = s.round^[k] s.start ∧
      ∀ j < k, s.round (s.round^[j] s.start) ≠ s.round^[j] s.start := by
  have stops : ∃ k, s.round (s.round^[k] s.start) = s.round^[k] s.start := by
    by_contra never
    have risen := le_level_iterate nodup s.rounds fun j _ same => never ⟨j, same⟩
    have bound := s.level_le (s.round^[s.rounds] s.start)
    unfold rounds at risen bound
    omega
  refine ⟨Nat.find stops, ?_, Nat.find_spec stops, fun j below => Nat.find_min stops below⟩
  have risen := le_level_iterate nodup (Nat.find stops) fun j below => Nat.find_min stops below
  have bound := s.level_le (s.round^[Nat.find stops] s.start)
  unfold rounds
  omega

/-- Repeating rounds comes to rest where a round changes nothing. -/
theorem solve_eq_iterate {k : Nat} (below : k < s.rounds)
    (fixed : s.round (s.round^[k] s.start) = s.round^[k] s.start) :
    s.solve = s.round^[k] s.start := by
  have split : s.rounds = (s.rounds - k) + k := by omega
  unfold solve
  rw [iterate_eq, split, Function.iterate_add_apply]
  exact Function.iterate_fixed fixed _

theorem solves_solve (h : (s.decls.map Prod.fst).Nodup) : s.Solves s.solve := by
  obtain ⟨k, below, fixed, -⟩ := exists_round_eq (nodup_unannotated h)
  rw [solve_eq_iterate below fixed]
  exact solves_of_round_eq (nodup_unannotated h) fixed

theorem Solves.solve_below (h : s.Solves w) : Valuation.Below s.solve w := by
  unfold solve
  rw [iterate_eq]
  exact h.iterate_below s.rounds

/-- Solutions do not see the order of the flows. -/
theorem Solves.of_flows {flows : List Flow} (same : ∀ f, f ∈ flows ↔ f ∈ s.flows)
    (h : s.Solves w) : ({ s with flows } : FlowSystem).Solves w where
  domain := h.domain
  default := fun node solved unreached =>
    h.default node solved fun f mem => unreached f ((same f).2 mem)
  admits := fun f mem rank target => by
    have eval (value : LocationTerm) :
        ({ s with flows } : FlowSystem).eval w value = s.eval w value := by
      induction value with
      | const t => rfl
      | var node => rfl
      | adapt receiver declared ih => simp only [FlowSystem.eval, ih]
    rw [eval]
    exact h.admits f ((same f).1 mem) rank target

/-- Solving ends, with the first round that changes nothing, and gives the least solution, which is
the same for flows that are listed in another order. -/
theorem solve_isLeast (s : FlowSystem) (nodup : (s.decls.map Prod.fst).Nodup) :
    (∃ k < s.rounds, s.solve = s.round^[k] s.start ∧ s.round s.solve = s.solve ∧
      ∀ j < k, s.round (s.round^[j] s.start) ≠ s.round^[j] s.start) ∧
    s.Solves s.solve ∧
    (∀ values, s.Solves values → Valuation.Below s.solve values) ∧
    ∀ flows, (∀ f, f ∈ flows ↔ f ∈ s.flows) → ({ s with flows } : FlowSystem).solve = s.solve := by
  refine ⟨?_, solves_solve nodup, fun values => Solves.solve_below, fun flows same => ?_⟩
  · obtain ⟨k, below, fixed, changing⟩ := exists_round_eq (nodup_unannotated nodup)
    have ended := solve_eq_iterate below fixed
    exact ⟨k, below, ended, ended ▸ fixed, changing⟩
  · have other : ({ s with flows } : FlowSystem).Solves s.solve :=
      (solves_solve nodup).of_flows same
    have solves : ({ s with flows } : FlowSystem).Solves ({ s with flows } : FlowSystem).solve :=
      solves_solve nodup
    have back : s.Solves ({ s with flows } : FlowSystem).solve :=
      Solves.of_flows (s := { s with flows }) (fun f => (same f).symm) solves
    exact other.solve_below.antisymm back.solve_below (solves.domain.trans other.domain.symm)
      (solves.domain ▸ nodup_unannotated nodup)

/-- Objects of two sites are passed round between a local and a field, and out as a result; nothing
flows into the other field. -/
def crossing : FlowSystem where
  options := .standard
  decls := [(.local "M.C" "m" "x" 0, ⟨none, 1⟩), (.field "M.C" "f", ⟨none, 2⟩),
    (.field "M.C" "g", ⟨none, 2⟩), (.method "M.C" "m", ⟨none, 3⟩),
    (.param "M.C" "m" "p", ⟨some .near, 3⟩)]
  flows := [⟨.const (.farOf 1), .local "M.C" "m" "x" 0, none⟩,
    ⟨.var (.local "M.C" "m" "x" 0), .field "M.C" "f", none⟩,
    ⟨.adapt (.var (.field "M.C" "f")) .near, .local "M.C" "m" "x" 0, none⟩,
    ⟨.const (.farOf 2), .field "M.C" "f", none⟩,
    ⟨.adapt (.var (.param "M.C" "m" "p")) .near, .method "M.C" "m", none⟩,
    ⟨.var (.local "M.C" "m" "x" 0), .param "M.C" "m" "p", none⟩]

theorem solve_isLeast_crossing :
    (crossing.decls.map Prod.fst).Nodup ∧
    crossing.solve = [(.local "M.C" "m" "x" 0, .far), (.field "M.C" "f", .far),
      (.field "M.C" "g", .somewhere), (.method "M.C" "m", .near)] ∧
    crossing.Solves crossing.solve ∧
    (∀ values, crossing.Solves values → Valuation.Below crossing.solve values) ∧
    ({ crossing with flows := crossing.flows.reverse } : FlowSystem).solve = crossing.solve := by
  have nodup : (crossing.decls.map Prod.fst).Nodup := by decide
  obtain ⟨-, solves, least, order⟩ := solve_isLeast crossing nodup
  exact ⟨nodup, by decide, solves, least, order _ fun _ => List.mem_reverse⟩

end FlowSystem

end DeltaLang
