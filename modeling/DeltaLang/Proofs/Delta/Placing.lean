import DeltaLang.Delta.Order
import Mathlib.Data.List.Nodup
import Mathlib.Data.List.Range
import Mathlib.Data.List.Perm.Subperm

/-!
# Stable orders

While deltas are placed, a position is ready exactly if it is not placed and all its predecessors
are.  So an order has every position once, with each edge going forward, and if placing gets stuck
then every position that is left waits for another one that is left.
-/

namespace DeltaLang

/-! ## Picking elements by their positions -/

section

variable {α : Type} {l : List α} {o : List Nat}

theorem filterMap_range_getElem? (l : List α) : (List.range l.length).filterMap (l[·]?) = l := by
  induction l with
  | nil => rfl
  | cons a l ih =>
    rw [List.length_cons, List.range_succ_eq_map, List.filterMap_cons_some List.getElem?_cons_zero,
      List.filterMap_map]
    exact congrArg (a :: ·) ih

theorem filterMap_getElem?_perm (perm : o.Perm (List.range l.length)) :
    (o.filterMap (l[·]?)).Perm l := by
  have all := perm.filterMap (l[·]?)
  rwa [filterMap_range_getElem?] at all

theorem getElem?_filterMap_getElem? (bound : ∀ i ∈ o, i < l.length) (x : Nat) :
    (o.filterMap (l[·]?))[x]? = o[x]?.bind (l[·]?) := by
  induction o generalizing x with
  | nil => simp
  | cons i o ih =>
    have inside := bound i List.mem_cons_self
    rw [List.filterMap_cons_some (List.getElem?_eq_getElem inside)]
    cases x with
    | zero => simp [inside]
    | succ x => simpa using ih (fun j mem => bound j (List.mem_cons_of_mem i mem)) x

end

/-- A clause of one of the deltas asks that the first comes before the second. -/
def DeltaDecl.Precedes (a b : DeltaDecl) : Prop := a.name ∈ b.after ∨ b.name ∈ a.before

namespace DeltaOrder

variable {n i : Nat} {es left : List Edge} {st : Progress} {ds : List DeltaDecl}

/-! ## Edges -/

theorem mem_insertEdge {e f : Edge} : f ∈ insertEdge e es ↔ f = e ∨ f ∈ es := by
  induction es with
  | nil => simp [insertEdge]
  | cons g gs ih =>
    rw [insertEdge]
    split
    · exact List.mem_cons
    · split
      · rw [List.mem_cons, ih, List.mem_cons, or_left_comm]
      · have same : e = g := by
          obtain ⟨a, b⟩ := e
          obtain ⟨c, d⟩ := g
          simp only [edgeLt, Bool.or_eq_true, Bool.and_eq_true, beq_iff_eq, decide_eq_true_eq]
            at *
          rw [Prod.mk.injEq]
          omega
        rw [same, List.mem_cons, ← or_assoc, or_self]

theorem mem_foldr_insertEdge {e : Edge} : e ∈ es.foldr insertEdge [] ↔ e ∈ es := by
  induction es with
  | nil => exact Iff.rfl
  | cons f fs ih => rw [List.foldr_cons, mem_insertEdge, ih, List.mem_cons]

theorem mem_edges_iff {e : Edge} :
    e ∈ edges ds ↔ ∃ d i, ds[i]? = some d ∧ e ∈ clauseEdges ds d i := by
  rw [edges, mem_foldr_insertEdge, List.mem_flatMap]
  simp only [Prod.exists, List.mem_zipIdx_iff_getElem?]

theorem lt_of_indexOf?_eq_some {name : String} {j : Nat} (h : indexOf? ds name = some j) :
    j < ds.length :=
  (List.findIdx?_eq_some_iff_getElem.1 h).1

theorem indexOf?_eq_some_iff (distinct : (ds.map DeltaDecl.name).Nodup) {name : String}
    {j : Nat} : indexOf? ds name = some j ↔ ∃ d, ds[j]? = some d ∧ d.name = name := by
  rw [indexOf?, List.findIdx?_eq_some_iff_getElem]
  constructor
  · rintro ⟨bound, found, -⟩
    exact ⟨ds[j], List.getElem?_eq_getElem bound, by simpa using found⟩
  · rintro ⟨d, at', rfl⟩
    obtain ⟨bound, rfl⟩ := List.getElem?_eq_some_iff.1 at'
    refine ⟨bound, by simp, fun k before => ?_⟩
    have differ := List.pairwise_iff_getElem.1 distinct k j (by simp; omega) (by simpa) before
    simpa using differ

theorem mem_clauseEdges {d : DeltaDecl} {x y : Nat} :
    (x, y) ∈ clauseEdges ds d i ↔
      (y = i ∧ ∃ name ∈ d.after, indexOf? ds name = some x) ∨
        x = i ∧ ∃ name ∈ d.before, indexOf? ds name = some y := by
  simp only [clauseEdges, List.mem_append, List.mem_map, List.mem_filterMap, Prod.mk.injEq]
  constructor
  · rintro (⟨j, found, rfl, rfl⟩ | ⟨j, found, rfl, rfl⟩)
    · exact .inl ⟨rfl, found⟩
    · exact .inr ⟨rfl, found⟩
  · rintro (⟨rfl, found⟩ | ⟨rfl, found⟩)
    · exact .inl ⟨x, found, rfl, rfl⟩
    · exact .inr ⟨y, found, rfl, rfl⟩

theorem lt_of_mem_edges {x y : Nat} (h : (x, y) ∈ edges ds) : x < ds.length ∧ y < ds.length := by
  obtain ⟨d, i, at', mem⟩ := mem_edges_iff.1 h
  have bound := (List.getElem?_eq_some_iff.1 at').1
  rcases mem_clauseEdges.1 mem with ⟨rfl, name, -, found⟩ | ⟨rfl, name, -, found⟩
  · exact ⟨lt_of_indexOf?_eq_some found, bound⟩
  · exact ⟨bound, lt_of_indexOf?_eq_some found⟩

/-- Of deltas of distinct names an edge joins two of which the first is to precede the second. -/
theorem mem_edges_iff_of_nodup (distinct : (ds.map DeltaDecl.name).Nodup) {x y : Nat} :
    (x, y) ∈ edges ds ↔ ∃ a b, ds[x]? = some a ∧ ds[y]? = some b ∧ a.Precedes b := by
  simp only [mem_edges_iff, mem_clauseEdges, indexOf?_eq_some_iff distinct]
  constructor
  · rintro ⟨d, i, at', ⟨rfl, name, mem, a, first, rfl⟩ | ⟨rfl, name, mem, b, second, rfl⟩⟩
    · exact ⟨a, d, first, at', .inl mem⟩
    · exact ⟨d, b, at', second, .inr mem⟩
  · rintro ⟨a, b, first, second, mem | mem⟩
    · exact ⟨b, y, second, .inl ⟨rfl, a.name, mem, a, first, rfl⟩⟩
    · exact ⟨a, x, first, .inr ⟨rfl, b.name, mem, b, second, rfl⟩⟩

/-! ## Positions ready to be placed -/

theorem mem_insertIndex {j : Nat} {js : List Nat} : j ∈ insertIndex i js ↔ j = i ∨ j ∈ js := by
  induction js with
  | nil => simp [insertIndex]
  | cons k ks ih =>
    rw [insertIndex]
    split
    · exact List.mem_cons
    · split
      · rw [List.mem_cons, ih, List.mem_cons, or_left_comm]
      · have same : i = k := by omega
        rw [same, List.mem_cons, ← or_assoc, or_self]

theorem pairwise_insertIndex {js : List Nat} (ascending : js.Pairwise (· < ·)) :
    (insertIndex i js).Pairwise (· < ·) := by
  induction js with
  | nil => simp [insertIndex]
  | cons k ks ih =>
    rw [List.pairwise_cons] at ascending
    obtain ⟨first, rest⟩ := ascending
    rw [insertIndex]
    split
    · rename_i before
      refine List.pairwise_cons.2 ⟨fun j mem => ?_, List.pairwise_cons.2 ⟨first, rest⟩⟩
      rcases List.mem_cons.1 mem with rfl | mem
      · exact before
      · exact before.trans (first j mem)
    · split
      · rename_i after
        refine List.pairwise_cons.2 ⟨fun j mem => ?_, ih rest⟩
        rcases mem_insertIndex.1 mem with rfl | mem
        · exact after
        · exact first j mem
      · exact List.pairwise_cons.2 ⟨first, rest⟩

/-! ## Counting edges -/

theorem inDegree_cons (e : Edge) (es : List Edge) (i : Nat) :
    inDegree (e :: es) i = inDegree es i + if e.2 = i then 1 else 0 := by
  simp [inDegree, List.countP_cons]

theorem inDegree_perm {es es' : List Edge} (h : es.Perm es') (i : Nat) :
    inDegree es i = inDegree es' i := h.countP_eq _

theorem inDegree_eq_zero_iff : inDegree es i = 0 ↔ ∀ j, (j, i) ∉ es := by
  rw [inDegree, List.countP_eq_zero]
  constructor
  · intro none j mem
    simpa using none (j, i) mem
  · rintro none ⟨j, k⟩ mem into
    obtain rfl : k = i := by simpa using into
    exact none j mem

/-! ## Releasing -/

/-- While edges are left, the positions that wait for none of them are ready, unless they are
placed. -/
structure Progress.Sound (n : Nat) (left : List Edge) (st : Progress) : Prop where
  waiting : st.waiting = (List.range n).map (inDegree left)
  ready : ∀ i, i ∈ st.ready ↔ i < n ∧ i ∉ st.placed ∧ inDegree left i = 0
  ascending : st.ready.Pairwise (· < ·)
  placed : ∀ i ∈ st.placed, i < n ∧ inDegree left i = 0

theorem Progress.sound_initial (n : Nat) (es : List Edge) :
    (Progress.initial n es).Sound n es where
  waiting := rfl
  ready i := by simp [Progress.initial]
  ascending := List.pairwise_lt_range.filter _
  placed i mem := by simp [Progress.initial] at mem

namespace Progress.Sound

theorem perm {left' : List Edge} (h : st.Sound n left) (same : left.Perm left') :
    st.Sound n left' := by
  have degree : inDegree left = inDegree left' := funext (inDegree_perm same)
  exact ⟨degree ▸ h.waiting, degree ▸ h.ready, h.ascending, degree ▸ h.placed⟩

/-- Counting an edge as done leaves one edge less. -/
theorem release {e : Edge} (h : st.Sound n (e :: left)) (bound : e.2 < n) :
    (st.release e.2).Sound n left := by
  have now : st.waiting.getD e.2 0 = inDegree left e.2 + 1 := by
    rw [h.waiting]
    simp [bound, inDegree_cons]
  have waits : e.2 ∉ st.placed := fun mem => by
    have none := (h.placed e.2 mem).2
    simp [inDegree_cons] at none
  have others {i : Nat} (ne : i ≠ e.2) : inDegree (e :: left) i = inDegree left i := by
    simp [inDegree_cons, ne.symm]
  refine ⟨?_, fun i => ?_, ?_, fun i mem => ?_⟩
  · rw [Progress.release, now, h.waiting]
    refine List.ext_getElem (by simp) fun i _ _ => ?_
    by_cases eq : e.2 = i
    · simp [eq]
    · simp [eq, others (Ne.symm eq)]
  · simp only [Progress.release, now, Nat.add_sub_cancel]
    by_cases eq : i = e.2
    · subst eq
      split
      · simp [mem_insertIndex, *]
      · simp [h.ready, inDegree_cons, *]
    · split
      · simp [mem_insertIndex, eq, h.ready, others eq]
      · simp [h.ready, others eq]
  · simp only [Progress.release]
    split
    · exact pairwise_insertIndex h.ascending
    · exact h.ascending
  · have ne : i ≠ e.2 := fun eq => waits (eq ▸ mem)
    exact ⟨(h.placed i mem).1, others ne ▸ (h.placed i mem).2⟩

theorem releaseAll {done : List Edge} (h : st.Sound n (done ++ left))
    (bound : ∀ e ∈ done, e.2 < n) :
    (done.foldl (fun st e => st.release e.2) st).Sound n left := by
  induction done generalizing st with
  | nil => exact h
  | cons e done ih =>
    exact ih (h.release (bound e List.mem_cons_self)) fun e' mem =>
      bound e' (List.mem_cons_of_mem e mem)

end Progress.Sound

/-! ## Placing -/

/-- The edges from positions that are not placed. -/
def leaving (es : List Edge) (placed : List Nat) : List Edge := es.filter fun e => e.1 ∉ placed

theorem placed_releaseAll (es : List Edge) (st : Progress) :
    (es.foldl (fun st e => st.release e.2) st).placed = st.placed := by
  induction es generalizing st with
  | nil => rfl
  | cons e es ih => exact ih (st.release e.2)

theorem leaving_perm {placed : List Nat} (fresh : i ∉ placed) :
    (leaving es placed).Perm (es.filter (·.1 == i) ++ leaving es (placed ++ [i])) := by
  have parts := List.filter_append_perm (fun e : Edge => e.1 == i) (leaving es placed)
  have first : (leaving es placed).filter (fun e => e.1 == i) = es.filter (·.1 == i) := by
    rw [leaving, List.filter_filter]
    refine List.filter_congr fun e _ => ?_
    by_cases eq : e.1 = i
    · simp [eq, fresh]
    · simp [eq]
  have second : (leaving es placed).filter (fun e => !(e.1 == i)) =
      leaving es (placed ++ [i]) := by
    rw [leaving, leaving, List.filter_filter]
    refine List.filter_congr fun e _ => ?_
    by_cases eq : e.1 = i <;> simp [eq]
  rw [first, second] at parts
  exact parts.symm

/-- No edge is left into a position exactly if its predecessors are placed. -/
theorem inDegree_leaving_eq_zero_iff {placed : List Nat} :
    inDegree (leaving es placed) i = 0 ↔ ∀ j, (j, i) ∈ es → j ∈ placed := by
  simp [inDegree_eq_zero_iff, leaving]

/-- Some positions are placed, each once, and no edge goes back among them. -/
structure Progress.Reached (n : Nat) (es : List Edge) (st : Progress) : Prop where
  sound : st.Sound n (leaving es st.placed)
  nodup : st.placed.Nodup
  forward : st.placed.Pairwise fun a b => (b, a) ∉ es
  loopless : ∀ a ∈ st.placed, (a, a) ∉ es

namespace Progress.Reached

theorem initial (n : Nat) (es : List Edge) : (Progress.initial n es).Reached n es where
  sound := by
    have all : leaving es (Progress.initial n es).placed = es :=
      List.filter_eq_self.2 fun e _ => by simp [Progress.initial]
    rw [all]
    exact Progress.sound_initial n es
  nodup := List.nodup_nil
  forward := List.Pairwise.nil
  loopless a mem := by simp [Progress.initial] at mem

/-- With the first ready position placed, exactly the edges from it are still to be released. -/
theorem take (h : st.Reached n es) {ready : List Nat} (first : st.ready = i :: ready) :
    Progress.Sound n (es.filter (·.1 == i) ++ leaving es (st.placed ++ [i]))
      { st with ready := ready, placed := st.placed ++ [i] } := by
  obtain ⟨lt, fresh, free⟩ := (h.sound.ready i).1 (first ▸ List.mem_cons_self)
  have ascending : (i :: ready).Pairwise (· < ·) := first ▸ h.sound.ascending
  obtain ⟨above, ascending⟩ := List.pairwise_cons.1 ascending
  have next : Progress.Sound n (leaving es st.placed)
      { st with ready := ready, placed := st.placed ++ [i] } := by
    refine ⟨h.sound.waiting, fun j => ?_, ascending, fun j mem => ?_⟩
    · have old := h.sound.ready j
      rw [first, List.mem_cons] at old
      have apart : j ∈ ready → j ≠ i := fun mem eq => absurd (above j mem) (by omega)
      simp only [List.mem_append, List.mem_singleton, not_or]
      constructor
      · intro mem
        obtain ⟨lt, out, free⟩ := old.1 (.inr mem)
        exact ⟨lt, ⟨out, apart mem⟩, free⟩
      · rintro ⟨lt, ⟨out, ne⟩, free⟩
        exact (old.2 ⟨lt, out, free⟩).resolve_left ne
    · rcases List.mem_append.1 mem with mem | mem
      · exact h.sound.placed j mem
      · obtain rfl := List.mem_singleton.1 mem
        exact ⟨lt, free⟩
  exact next.perm (leaving_perm fresh)

/-- Placing the first ready position keeps what is reached. -/
theorem step (bound : ∀ e ∈ es, e.2 < n) (h : st.Reached n es) {ready : List Nat}
    (first : st.ready = i :: ready) :
    Reached n es ((es.filter (·.1 == i)).foldl (fun st e => st.release e.2)
      { st with ready := ready, placed := st.placed ++ [i] }) := by
  obtain ⟨-, fresh, free⟩ := (h.sound.ready i).1 (first ▸ List.mem_cons_self)
  have released := (h.take first).releaseAll fun e mem => bound e (List.mem_filter.1 mem).1
  refine ⟨?_, ?_, ?_, fun a mem => ?_⟩
  · rwa [placed_releaseAll]
  · rw [placed_releaseAll]
    exact List.concat_eq_append ▸ h.nodup.concat fresh
  · rw [placed_releaseAll]
    refine List.pairwise_append.2 ⟨h.forward, List.pairwise_singleton _ i, fun a mem b last => ?_⟩
    rw [List.mem_singleton.1 last]
    exact fun edge => fresh (inDegree_leaving_eq_zero_iff.1 (h.sound.placed a mem).2 i edge)
  · rw [placed_releaseAll] at mem
    rcases List.mem_append.1 mem with mem | mem
    · exact h.loopless a mem
    · rw [List.mem_singleton.1 mem]
      exact fun edge => fresh (inDegree_leaving_eq_zero_iff.1 free i edge)

/-- Placing goes on until nothing is ready or as often as it may. -/
theorem run (bound : ∀ e ∈ es, e.2 < n) (h : st.Reached n es) (k : Nat) :
    (place es k st).Reached n es ∧
      ((place es k st).ready = [] ∨ (place es k st).placed.length = st.placed.length + k) := by
  induction k generalizing st with
  | zero => exact ⟨h, .inr rfl⟩
  | succ k ih =>
    rw [place]
    split
    · exact ⟨h, .inl ‹_›⟩
    · rename_i i ready first
      obtain ⟨reached, rest⟩ := ih (h.step bound first)
      refine ⟨reached, rest.imp_right fun length => ?_⟩
      rw [length, placed_releaseAll, List.length_append, List.length_singleton]
      omega

/-- Positions that are placed are told apart, so if there are enough, these are all. -/
theorem perm_range (h : st.Reached n es) (length : st.placed.length = n) :
    st.placed.Perm (List.range n) := by
  have sub : st.placed ⊆ List.range n := fun i mem => List.mem_range.2 (h.sound.placed i mem).1
  exact (List.subperm_of_subset h.nodup sub).perm_of_length_le (by rw [length, List.length_range])

theorem length_placed (h : st.Reached n es) (all : ∀ i < n, i ∈ st.placed) :
    st.placed.length = n := by
  have sub : st.placed ⊆ List.range n := fun i mem => List.mem_range.2 (h.sound.placed i mem).1
  have upper := (List.subperm_of_subset h.nodup sub).length_le
  have lower := (List.subperm_of_subset List.nodup_range
    fun i mem => all i (List.mem_range.1 mem)).length_le
  rw [List.length_range] at upper lower
  omega

/-- A position that is left when nothing is ready waits for another one that is left. -/
theorem exists_waiting (h : st.Reached n es) (stuck : st.ready = []) (lt : i < n)
    (out : i ∉ st.placed) : ∃ j, j ∉ st.placed ∧ (j, i) ∈ es := by
  by_contra none
  have free : inDegree (leaving es st.placed) i = 0 :=
    inDegree_leaving_eq_zero_iff.2 fun j edge => by_contra fun left => none ⟨j, left, edge⟩
  have ready := (h.sound.ready i).2 ⟨lt, out, free⟩
  rw [stuck] at ready
  cases ready

end Progress.Reached

/-! ## Orders -/

/-- How far the placing of deltas comes in the end. -/
def placing (ds : List DeltaDecl) : Progress :=
  place (edges ds) ds.length (.initial ds.length (edges ds))

theorem reached_placing (ds : List DeltaDecl) : (placing ds).Reached ds.length (edges ds) :=
  ((Progress.Reached.initial ds.length (edges ds)).run (fun _ mem => (lt_of_mem_edges mem).2)
    ds.length).1

/-- Placing never stops while a position is ready. -/
theorem ready_placing (ds : List DeltaDecl) : (placing ds).ready = [] := by
  have reached := reached_placing ds
  obtain ⟨-, done | length⟩ := (Progress.Reached.initial ds.length (edges ds)).run
    (fun _ mem => (lt_of_mem_edges mem).2) ds.length
  · exact done
  · have perm := reached.perm_range (by simpa [placing, Progress.initial] using length)
    refine List.eq_nil_iff_forall_not_mem.2 fun i mem => ?_
    obtain ⟨lt, out, -⟩ := (reached.sound.ready i).1 mem
    exact out (perm.symm.subset (List.mem_range.2 lt))

/-- There is an order exactly if every position is placed. -/
theorem isOk_order (ds : List DeltaDecl) :
    (order ds).isOk = decide ((placing ds).placed.length = ds.length) := by
  rw [order, placing]
  split
  · rw [decide_eq_true ‹_›]
    rfl
  · rw [decide_eq_false ‹_›]
    rfl

theorem order_eq_ok_iff {o : List Nat} :
    order ds = .ok o ↔ (placing ds).placed = o ∧ o.length = ds.length := by
  rw [order, placing]
  dsimp only
  split
  · rename_i length
    exact ⟨fun h => ⟨Except.ok.inj h, Except.ok.inj h ▸ length⟩, fun h => congrArg Except.ok h.1⟩
  · rename_i short
    refine ⟨fun h => ?_, fun ⟨same, length⟩ => absurd (same ▸ length) short⟩
    cases h

/-- Without an order, what is not placed is named. -/
theorem names_of_order {names : List String} (h : order ds = .error names) :
    (placing ds).placed.length ≠ ds.length ∧
      names =
        (ds.zipIdx.filter fun (_, i) => i ∉ (placing ds).placed).map fun (d, _) => d.name := by
  rw [order] at h
  dsimp only at h
  split at h
  · cases h
  · rename_i short
    exact ⟨short, (Except.error.inj h).symm⟩

/-- An order has every position once, and each edge goes forward. -/
theorem order_sound {o : List Nat} (h : order ds = .ok o) :
    o.Perm (List.range ds.length) ∧ (o.Pairwise fun a b => (b, a) ∉ edges ds) ∧
      ∀ a, (a, a) ∉ edges ds := by
  obtain ⟨rfl, length⟩ := order_eq_ok_iff.1 h
  have reached := reached_placing ds
  have perm := reached.perm_range length
  refine ⟨perm, reached.forward, fun a mem => ?_⟩
  exact reached.loopless a (perm.symm.subset (List.mem_range.2 (lt_of_mem_edges mem).1)) mem

/-- Where the deltas of distinct names are put into their order, every edge goes forward. -/
theorem forward_of_order {o : List Nat} (h : order ds = .ok o)
    (distinct : (ds.map DeltaDecl.name).Nodup) {x y : Nat}
    (edge : (x, y) ∈ edges (o.filterMap (ds[·]?))) : x < y := by
  obtain ⟨perm, back, loops⟩ := order_sound h
  have bound : ∀ i ∈ o, i < ds.length := fun i mem => List.mem_range.1 (perm.subset mem)
  have arranged := filterMap_getElem?_perm perm
  have distinct' : ((o.filterMap (ds[·]?)).map DeltaDecl.name).Nodup :=
    (arranged.map _).nodup_iff.2 distinct
  obtain ⟨a, b, first, second, precedes⟩ := (mem_edges_iff_of_nodup distinct').1 edge
  -- The two deltas are joined by the same edge at the positions they come from.
  rw [getElem?_filterMap_getElem? bound, Option.bind_eq_some_iff] at first second
  obtain ⟨i, atX, first⟩ := first
  obtain ⟨j, atY, second⟩ := second
  have edge' : (i, j) ∈ edges ds :=
    (mem_edges_iff_of_nodup distinct).2 ⟨a, b, first, second, precedes⟩
  obtain ⟨boundX, rfl⟩ := List.getElem?_eq_some_iff.1 atX
  obtain ⟨boundY, rfl⟩ := List.getElem?_eq_some_iff.1 atY
  rcases Nat.lt_trichotomy x y with before | rfl | after
  · exact before
  · exact absurd edge' (loops _)
  · exact absurd edge' (List.pairwise_iff_getElem.1 back y x boundY boundX after)

/-- Where there is no order, some positions each wait for another one of them. -/
theorem exists_waiting_of_order {names : List String} (h : order ds = .error names) :
    ∃ waiting : List Nat, waiting ≠ [] ∧ ∀ i ∈ waiting, ∃ j ∈ waiting, (j, i) ∈ edges ds := by
  have reached := reached_placing ds
  refine ⟨(List.range ds.length).filter (· ∉ (placing ds).placed), fun none => ?_, fun i mem => ?_⟩
  · refine (names_of_order h).1 (reached.length_placed fun i lt => ?_)
    simpa using List.filter_eq_nil_iff.1 none i (List.mem_range.2 lt)
  · simp only [List.mem_filter, List.mem_range, decide_eq_true_eq] at mem ⊢
    obtain ⟨j, out, edge⟩ := reached.exists_waiting (ready_placing ds) mem.1 mem.2
    exact ⟨j, ⟨(lt_of_mem_edges edge).1, out⟩, edge⟩

/-- If all edges go forward, there is an order. -/
theorem exists_order_of_forward (forward : ∀ x y, (x, y) ∈ edges ds → x < y) :
    ∃ o, order ds = .ok o := by
  cases h : order ds with
  | ok o => exact ⟨o, rfl⟩
  | error names =>
    obtain ⟨waiting, nonempty, blocked⟩ := exists_waiting_of_order h
    -- The first position that waits would wait for one before it.
    have none : ∀ i, i ∉ waiting := fun i => by
      induction i using Nat.strong_induction_on with
      | _ i ih =>
        intro mem
        obtain ⟨j, waits, edge⟩ := blocked i mem
        exact ih j (forward j i edge) waits
    exact absurd (List.eq_nil_iff_forall_not_mem.2 none) nonempty

end DeltaOrder

end DeltaLang
