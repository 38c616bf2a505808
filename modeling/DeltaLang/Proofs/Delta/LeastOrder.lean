import DeltaLang.Proofs.Delta.Placing
import DeltaLang.Proofs.Names.Ranks

/-!
# The least order

Placing always takes the least position that is free, so of all arrangements in which every edge
goes forward the order is the first one lexicographically.  A position is never placed if it lies on
a cycle or behind one, and every other one is in the end.  The counters of the positions never fall
below zero, since an edge is released once, when its source is placed.
-/

namespace DeltaLang

namespace DeltaOrder

variable {n i : Nat} {es left : List Edge} {st : Progress} {ds : List DeltaDecl}
  {placed rest o : List Nat}

/-! ## Arrangements -/

/-- The list has all positions, each once, and every edge goes forward in it. -/
structure Arranges (n : Nat) (es : List Edge) (o : List Nat) : Prop where
  perm : o.Perm (List.range n)
  forward : ∀ x y, (x, y) ∈ es → o.idxOf x < o.idxOf y

/-- An edge leads from the first position to the second. -/
def Leads (es : List Edge) (x y : Nat) : Prop := (x, y) ∈ es

/-- The position lies on a cycle or can be reached from one. -/
def BehindCycle (es : List Edge) (i : Nat) : Prop :=
  ∃ c, Relation.TransGen (Leads es) c c ∧ Relation.ReflTransGen (Leads es) c i

/-- Where no edge goes back and there are no loops, every edge goes forward. -/
theorem idxOf_lt_of_pairwise (back : o.Pairwise fun a b => (b, a) ∉ es)
    (loops : ∀ a ∈ o, (a, a) ∉ es) {x y : Nat} (hx : x ∈ o) (hy : y ∈ o) (edge : (x, y) ∈ es) :
    o.idxOf x < o.idxOf y := by
  have boundX := List.idxOf_lt_length_iff.2 hx
  have boundY := List.idxOf_lt_length_iff.2 hy
  rcases Nat.lt_trichotomy (o.idxOf x) (o.idxOf y) with before | same | after
  · exact before
  · obtain rfl := (List.idxOf_inj hx).1 same
    exact absurd edge (loops x hx)
  · have none := List.pairwise_iff_getElem.1 back _ _ boundY boundX after
    rw [List.getElem_idxOf, List.getElem_idxOf] at none
    exact absurd edge none

theorem idxOf_range (lt : i < n) : (List.range n).idxOf i = i := by
  have found := List.nodup_range.idxOf_getElem i (by rwa [List.length_range])
  rwa [List.getElem_range] at found

/-- The positions as they are given are an arrangement if every edge goes forward. -/
theorem arranges_range_iff (bound : ∀ x y, (x, y) ∈ es → x < n ∧ y < n) :
    Arranges n es (List.range n) ↔ ∀ x y, (x, y) ∈ es → x < y := by
  have same {x y : Nat} (edge : (x, y) ∈ es) :
      (List.range n).idxOf x < (List.range n).idxOf y ↔ x < y := by
    rw [idxOf_range (bound x y edge).1, idxOf_range (bound x y edge).2]
  constructor
  · exact fun arranges x y edge => (same edge).1 (arranges.forward x y edge)
  · exact fun forward => ⟨.refl _, fun x y edge => (same edge).2 (forward x y edge)⟩

/-! ## Free positions -/

/-- The position can be placed next: it is not placed, and all its predecessors are. -/
def Free (n : Nat) (es : List Edge) (placed : List Nat) (i : Nat) : Prop :=
  i < n ∧ i ∉ placed ∧ ∀ j, (j, i) ∈ es → j ∈ placed

theorem Progress.Reached.mem_ready_iff (h : st.Reached n es) :
    i ∈ st.ready ↔ Free n es st.placed i := by
  rw [h.sound.ready, inDegree_leaving_eq_zero_iff, Free]

/-- What follows some positions in an arrangement is free once these are placed. -/
theorem Arranges.free (h : Arranges n es (placed ++ i :: rest)) : Free n es placed i := by
  have distinct : (placed ++ i :: rest).Nodup := h.perm.nodup_iff.2 List.nodup_range
  have fresh : i ∉ placed := fun mem =>
    (List.nodup_append.1 distinct).2.2 i mem i List.mem_cons_self rfl
  refine ⟨List.mem_range.1 (h.perm.subset (by simp)), fresh, fun j edge => by_contra fun out => ?_⟩
  have before := h.forward j i edge
  rw [List.idxOf_append_of_notMem out, List.idxOf_append_of_notMem fresh, List.idxOf_cons_self]
    at before
  omega

/-- After some positions are placed, each position of the list is the least that is free in its
turn. -/
def Greedy (n : Nat) (es : List Edge) : List Nat → List Nat → Prop
  | _, [] => True
  | placed, i :: rest =>
    (Free n es placed i ∧ ∀ j, Free n es placed j → i ≤ j) ∧ Greedy n es (placed ++ [i]) rest

/-- What placing adds is the least that is free, again and again. -/
theorem Progress.Reached.exists_greedy (bound : ∀ e ∈ es, e.2 < n) (h : st.Reached n es) (k : Nat) :
    ∃ rest, (place es k st).placed = st.placed ++ rest ∧ Greedy n es st.placed rest := by
  induction k generalizing st with
  | zero => exact ⟨[], (List.append_nil _).symm, trivial⟩
  | succ k ih =>
    rw [place]
    split
    · exact ⟨[], (List.append_nil _).symm, trivial⟩
    · rename_i i ready first
      obtain ⟨rest, placed, greedy⟩ := ih (h.step bound first)
      rw [placed_releaseAll] at placed greedy
      have ascending : (i :: ready).Pairwise (· < ·) := first ▸ h.sound.ascending
      refine ⟨i :: rest, by rw [placed, List.append_assoc]; rfl, ⟨?_, fun j free => ?_⟩, greedy⟩
      · exact h.mem_ready_iff.1 (first ▸ List.mem_cons_self)
      · have ready := h.mem_ready_iff.2 free
        rw [first] at ready
        rcases List.mem_cons.1 ready with rfl | later
        · exact le_rfl
        · exact ((List.pairwise_cons.1 ascending).1 j later).le

/-- Two lists that place the same positions first differ where the greedy one has the lesser
position. -/
theorem Greedy.eq_or_lex {rest' : List Nat} (greedy : Greedy n es placed rest)
    (arranges : Arranges n es (placed ++ rest')) (length : rest.length = rest'.length) :
    rest = rest' ∨ List.Lex (· < ·) rest rest' := by
  induction rest generalizing placed rest' with
  | nil => exact .inl (List.length_eq_zero_iff.1 length.symm).symm
  | cons i rest ih =>
    cases rest' with
    | nil => cases length
    | cons j rest' =>
      rcases (greedy.1.2 j arranges.free).lt_or_eq with lt | rfl
      · exact .inr (.rel lt)
      · rw [List.append_cons] at arranges
        refine (ih greedy.2 arranges (Nat.succ.inj length)).imp (fun same => ?_) .cons
        rw [same]

/-- The arrangement that comes before all others lexicographically. -/
structure LeastArrangement (n : Nat) (es : List Edge) (o : List Nat) : Prop where
  arranges : Arranges n es o
  least : ∀ o', Arranges n es o' → o = o' ∨ List.Lex (· < ·) o o'

theorem greedy_of_order (h : order ds = .ok o) : Greedy ds.length (edges ds) [] o := by
  obtain ⟨rest, placed, greedy⟩ := (Progress.Reached.initial ds.length (edges ds)).exists_greedy
    (fun e mem => (lt_of_mem_edges mem).2) ds.length
  obtain rfl : rest = o := placed.symm.trans (order_eq_ok_iff.1 h).1
  exact greedy

/-- An order is the least arrangement. -/
theorem leastArrangement_of_order (h : order ds = .ok o) :
    LeastArrangement ds.length (edges ds) o := by
  obtain ⟨perm, back, loops⟩ := order_sound h
  have inside {i : Nat} (lt : i < ds.length) : i ∈ o := perm.symm.subset (List.mem_range.2 lt)
  refine ⟨⟨perm, fun x y edge => ?_⟩, fun o' arranges => ?_⟩
  · obtain ⟨ltX, ltY⟩ := lt_of_mem_edges edge
    exact idxOf_lt_of_pairwise back (fun a _ => loops a) (inside ltX) (inside ltY) edge
  · exact (greedy_of_order h).eq_or_lex arranges (perm.trans arranges.perm.symm).length_eq

/-- Where every edge goes forward, the next position is always the least that is free. -/
theorem Greedy.eq_range' (forward : ∀ x y, (x, y) ∈ es → x < y) {k : Nat}
    (greedy : Greedy n es (List.range k) rest) (length : k + rest.length ≤ n) :
    rest = List.range' k rest.length := by
  induction rest generalizing k with
  | nil => rfl
  | cons i rest ih =>
    obtain ⟨⟨free, least⟩, greedy⟩ := greedy
    rw [List.length_cons] at length
    have next : Free n es (List.range k) k :=
      ⟨by omega, by simp, fun j edge => List.mem_range.2 (forward j k edge)⟩
    obtain rfl : i = k := (least k next).antisymm (by simpa using free.2.1)
    rw [← List.range_succ] at greedy
    rw [List.length_cons, List.range'_succ, ← ih greedy (by omega)]

/-- The order is the list as it is given exactly if every edge goes forward. -/
theorem order_eq_range_iff :
    order ds = .ok (List.range ds.length) ↔ ∀ x y, (x, y) ∈ edges ds → x < y := by
  constructor
  · intro h
    exact (arranges_range_iff fun _ _ => lt_of_mem_edges).1 (leastArrangement_of_order h).arranges
  · intro forward
    obtain ⟨o, h⟩ := exists_order_of_forward forward
    have length : o.length = ds.length := (order_eq_ok_iff.1 h).2
    have same := (greedy_of_order h).eq_range' (k := 0) forward (by omega)
    rw [h, same, length, List.range_eq_range']

/-! ## What cannot be placed -/

/-- What is left when nothing is ready is what lies on a cycle or behind one. -/
theorem Progress.Reached.notMem_placed_iff (h : st.Reached n es) (stuck : st.ready = [])
    (bound : ∀ x y, (x, y) ∈ es → x < n ∧ y < n) (lt : i < n) :
    i ∉ st.placed ↔ BehindCycle es i := by
  -- `wait a b` says that `a` has to wait for `b`.
  let wait : Nat → Nat → Prop := Function.swap (Leads es)
  have closed : ∀ a ∈ st.placed, ∀ b, wait a b → b ∈ st.placed := fun a mem b edge =>
    inDegree_leaving_eq_zero_iff.1 (h.sound.placed a mem).2 b edge
  constructor
  · classical
    intro out
    by_contra free
    let l := (List.range n).filter fun a => a ∉ st.placed ∧ Relation.ReflTransGen (Leads es) a i
    have mem_l (a : Nat) :
        a ∈ l ↔ a < n ∧ a ∉ st.placed ∧ Relation.ReflTransGen (Leads es) a i := by
      simp [l]
    obtain ⟨rank, -, descends⟩ := exists_rank_of_acyclic (r := wait) (l := l) fun a mem cycle =>
      free ⟨a, Relation.transGen_swap.1 cycle, ((mem_l a).1 mem).2.2⟩
    -- each position waits for one of lesser rank, so there is none
    have none : ∀ k, ∀ a ∈ l, rank a ≠ k := fun k => by
      induction k using Nat.strong_induction_on with
      | _ k ih =>
        rintro a mem rfl
        obtain ⟨lt, out, leads⟩ := (mem_l a).1 mem
        obtain ⟨b, left, edge⟩ := h.exists_waiting stuck lt out
        have mem' : b ∈ l := (mem_l b).2 ⟨(bound b a edge).1, left, .head edge leads⟩
        exact ih (rank b) (descends a b mem' edge) b mem' rfl
    exact none _ i ((mem_l i).2 ⟨lt, out, .refl⟩) rfl
  · rintro ⟨c, cycle, leads⟩ mem
    have mem' : c ∈ st.placed := by
      clear cycle
      induction leads using Relation.ReflTransGen.head_induction_on with
      | refl => exact mem
      | head edge _ ih => exact closed _ ih _ edge
    have earlier : ∀ a ∈ st.placed, ∀ b, wait a b → st.placed.idxOf b < st.placed.idxOf a :=
      fun a ha b edge => idxOf_lt_of_pairwise h.forward h.loopless (closed a ha b edge) ha edge
    exact not_transGen_of_rank closed earlier mem' (Relation.transGen_swap.2 cycle)

/-! ## Counters -/

/-- Counts one edge into a position as done, if its counter is above zero. -/
def Progress.release? (st : Progress) (i : Nat) : Option Progress :=
  if 0 < st.waiting.getD i 0 then some (st.release i) else none

/-- Placing that gives up where a counter would fall below zero. -/
def place? (es : List Edge) : Nat → Progress → Option Progress
  | 0, st => some st
  | n + 1, st =>
    match st.ready with
    | [] => some st
    | i :: ready => do
      let next := { st with ready := ready, placed := st.placed ++ [i] }
      place? es n (← (es.filter (·.1 == i)).foldlM (fun st e => st.release? e.2) next)

namespace Progress

theorem Sound.release?_eq {e : Edge} (h : st.Sound n (e :: left)) (bound : e.2 < n) :
    st.release? e.2 = some (st.release e.2) := by
  refine if_pos ?_
  rw [h.waiting]
  simp [bound, inDegree_cons]

theorem Sound.releaseAll?_eq {done : List Edge} (h : st.Sound n (done ++ left))
    (bound : ∀ e ∈ done, e.2 < n) :
    done.foldlM (fun st e => st.release? e.2) st =
      some (done.foldl (fun st e => st.release e.2) st) := by
  induction done generalizing st with
  | nil => rfl
  | cons e done ih =>
    have first := bound e List.mem_cons_self
    rw [List.foldlM_cons, h.release?_eq first, List.foldl_cons]
    exact ih (h.release first) fun e' mem => bound e' (List.mem_cons_of_mem e mem)

theorem Reached.place?_eq (bound : ∀ e ∈ es, e.2 < n) (h : st.Reached n es) (k : Nat) :
    place? es k st = some (place es k st) := by
  induction k generalizing st with
  | zero => rfl
  | succ k ih =>
    rw [place?, place]
    cases first : st.ready with
    | nil => rfl
    | cons i ready =>
      have released := (h.take first).releaseAll?_eq fun e mem => bound e (List.mem_filter.1 mem).1
      simp only [released, Option.bind_eq_bind, Option.bind_some]
      exact ih (h.step bound first)

end Progress

/-! ## Orders -/

theorem lt_of_behindCycle (h : BehindCycle (edges ds) i) : i < ds.length := by
  obtain ⟨c, cycle, leads⟩ := h
  obtain ⟨d, -, into⟩ := Relation.TransGen.tail'_iff.1 (cycle.trans_left leads)
  exact (lt_of_mem_edges into).2

theorem notMem_placing_iff (lt : i < ds.length) :
    i ∉ (placing ds).placed ↔ BehindCycle (edges ds) i :=
  (reached_placing ds).notMem_placed_iff (ready_placing ds) (fun _ _ => lt_of_mem_edges) lt

/-- There is an order exactly if there is no cycle. -/
theorem isOk_order_iff :
    (order ds).isOk = true ↔ ∀ i, ¬ Relation.TransGen (Leads (edges ds)) i i := by
  rw [isOk_order, decide_eq_true_iff]
  constructor
  · intro length i cycle
    have behind : BehindCycle (edges ds) i := ⟨i, cycle, .refl⟩
    have lt := lt_of_behindCycle behind
    refine (notMem_placing_iff lt).2 behind ?_
    exact ((reached_placing ds).perm_range length).symm.subset (List.mem_range.2 lt)
  · intro acyclic
    refine (reached_placing ds).length_placed fun i lt => by_contra fun out => ?_
    obtain ⟨c, cycle, -⟩ := (notMem_placing_iff lt).1 out
    exact acyclic c cycle

open Classical in
/-- Deltas have an order exactly if no edges form a cycle.  The order is then the arrangement in
which every edge goes forward that comes first lexicographically, and it is the list as it is given
exactly if every edge goes forward there.  Otherwise the deltas are named, in the order of the list,
that lie on a cycle or behind one.  Placing only stops when nothing is ready, and it never counts
below zero. -/
theorem order_exact (ds : List DeltaDecl) :
    ((order ds).isOk = true ↔ ∀ i, ¬ Relation.TransGen (Leads (edges ds)) i i) ∧
      (∀ o, order ds = .ok o → LeastArrangement ds.length (edges ds) o) ∧
      (order ds = .ok (List.range ds.length) ↔ ∀ x y, (x, y) ∈ edges ds → x < y) ∧
      (∀ names, order ds = .error names →
        names =
          (ds.zipIdx.filter fun (_, i) => BehindCycle (edges ds) i).map fun (d, _) => d.name) ∧
      ∃ st, place? (edges ds) ds.length (.initial ds.length (edges ds)) = some st ∧
        st = place (edges ds) ds.length (.initial ds.length (edges ds)) ∧ st.ready = [] := by
  refine ⟨isOk_order_iff, fun o => leastArrangement_of_order, order_eq_range_iff, ?_, ?_⟩
  · intro names h
    rw [(names_of_order h).2]
    congr 1
    refine List.filter_congr fun s mem => ?_
    have lt : s.2 < ds.length := List.snd_lt_of_mem_zipIdx mem
    exact decide_eq_decide.2 (notMem_placing_iff lt)
  · exact ⟨placing ds, (Progress.Reached.initial ds.length (edges ds)).place?_eq
      (fun e mem => (lt_of_mem_edges mem).2) ds.length, rfl, ready_placing ds⟩

/-- A delta with ordering clauses only. -/
def constrainedDelta (name : String) (after before : List String) : DeltaDecl :=
  ⟨name, none, after, before, none, [], none⟩

/-- Deltas are moved no further than their clauses ask for; on a cycle, also what follows it is
named, and a repeated name stands for the first delta that has it. -/
theorem order_exact_constrainedDeltas :
    let ds := [constrainedDelta "A" ["C"] [], constrainedDelta "B" [] [],
      constrainedDelta "C" [] [], constrainedDelta "D" [] ["B"]]
    let knot := [constrainedDelta "A" ["B"] [], constrainedDelta "B" ["A"] ["C"],
      constrainedDelta "C" [] [], constrainedDelta "D" [] [], constrainedDelta "A" [] []]
    (order ds = .ok [2, 0, 3, 1] ∧ LeastArrangement 4 (edges ds) [2, 0, 3, 1]) ∧
      order knot = .error ["A", "B", "C"] ∧
      ∃ i, Relation.TransGen (Leads (edges knot)) i i := by
  intro ds knot
  have ordered : order ds = .ok [2, 0, 3, 1] := by decide
  have cyclic : order knot = .error ["A", "B", "C"] := by decide
  refine ⟨⟨ordered, (order_exact ds).2.1 _ ordered⟩, cyclic, by_contra fun acyclic => ?_⟩
  have ok := (order_exact knot).1.2 fun i cycle => acyclic ⟨i, cycle⟩
  rw [cyclic] at ok
  cases ok

end DeltaOrder

end DeltaLang
