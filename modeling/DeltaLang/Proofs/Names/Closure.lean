import DeltaLang.Names.Interfaces
import DeltaLang.Proofs.Names.Resolve
import DeltaLang.Proofs.Program.Entries
import Mathlib.Data.List.Flatten
import Mathlib.Logic.Relation

/-!
# Interfaces that are reached

Walking along interface extension visits exactly the interfaces that can be reached, since its
bound leaves a step for every root and for every edge.  The recursive descent finds exactly the
signatures of the interfaces that can be reached, since every level of it enters another one.
-/

namespace DeltaLang

namespace SymbolTable

variable {t : SymbolTable}

/-- The second interface is one that the first extends. -/
def Extends (t : SymbolTable) (i j : Entry InterfaceDecl) : Prop := j ∈ t.parents i

/-- The second interface is the first or one that it extends, however far. -/
def Reaches (t : SymbolTable) : Entry InterfaceDecl → Entry InterfaceDecl → Prop :=
  Relation.ReflTransGen t.Extends

/-- Interfaces are told apart by their places. -/
def Placed (t : SymbolTable) : Prop :=
  ∀ i ∈ t.interfaces, ∀ j ∈ t.interfaces, i.path = j.path → i = j

theorem mem_of_toOption {name : String} {frm : Option String} {i : Entry InterfaceDecl}
    (h : (t.interfaces.resolve frm name).toOption = some i) : i ∈ t.interfaces :=
  Namespace.mem_of_resolve_eq_ok (eq_ok_of_toOption h)

theorem mem_interfaces_of_mem_parents {i j : Entry InterfaceDecl} (h : j ∈ t.parents i) :
    j ∈ t.interfaces := by
  obtain ⟨name, -, found⟩ := List.mem_filterMap.1 h
  exact mem_of_toOption found

theorem Reaches.mem_interfaces {i j : Entry InterfaceDecl} (h : t.Reaches i j)
    (mem : i ∈ t.interfaces) : j ∈ t.interfaces := by
  induction h with
  | refl => exact mem
  | tail _ step => exact mem_interfaces_of_mem_parents step

/-! ## The bound of a walk -/

/-- The number of edges from interfaces that are not visited yet. -/
def edgesLeft (t : SymbolTable) (seen : List (Entry InterfaceDecl)) : Nat :=
  ((t.interfaces.filter fun i => !seen.any (·.path == i.path)).flatMap (·.decl.parents)).length

theorem length_parents_le (i : Entry InterfaceDecl) :
    (t.parents i).length ≤ i.decl.parents.length :=
  List.length_filterMap_le _ _

/-- Visiting an interface takes the edges from it off those that are left. -/
theorem edgesLeft_visit {i : Entry InterfaceDecl} {seen : List (Entry InterfaceDecl)}
    (mem : i ∈ t.interfaces) (fresh : seen.any (·.path == i.path) = false) :
    t.edgesLeft (seen ++ [i]) + i.decl.parents.length ≤ t.edgesLeft seen := by
  obtain ⟨front, back, split⟩ := List.append_of_mem mem
  have fewer (l : List (Entry InterfaceDecl)) :
      ((l.filter fun j => !(seen ++ [i]).any (·.path == j.path)).flatMap
          (·.decl.parents)).length ≤
        ((l.filter fun j => !seen.any (·.path == j.path)).flatMap (·.decl.parents)).length := by
    refine ((List.monotone_filter_right l fun j new => ?_).flatMap _).length_le
    rw [List.any_append, Bool.not_or, Bool.and_eq_true] at new
    exact new.1
  have ofFront := fewer front
  have ofBack := fewer back
  have visited : (!(seen ++ [i]).any (·.path == i.path)) = false := by simp
  have new : (!seen.any (·.path == i.path)) = true := by rw [fresh]; rfl
  simp only [edgesLeft, split, List.filter_append, List.flatMap_append, List.length_append]
  rw [List.filter_cons_of_neg (by rw [visited]; simp),
    List.filter_cons_of_pos (p := fun j : Entry InterfaceDecl => !seen.any (·.path == j.path)) new,
    List.flatMap_cons, List.length_append]
  omega

/-! ## Walks -/

/-- A walk has enough steps for what is to do, and what is seen only extends interfaces that are
seen or to do. -/
structure Underway (t : SymbolTable) (steps : Nat) (todo seen : List (Entry InterfaceDecl)) :
    Prop where
  known : ∀ i ∈ todo ++ seen, i ∈ t.interfaces
  enough : todo.length + t.edgesLeft seen ≤ steps
  closed : ∀ i ∈ seen, ∀ j ∈ t.parents i, j ∈ todo ++ seen

namespace Underway

variable {steps : Nat} {i : Entry InterfaceDecl} {todo seen : List (Entry InterfaceDecl)}

theorem skip (h : t.Underway (steps + 1) (i :: todo) seen) (old : i ∈ seen) :
    t.Underway steps todo seen := by
  obtain ⟨known, enough, closed⟩ := h
  rw [List.length_cons] at enough
  refine ⟨fun j mem => known j (List.mem_cons_of_mem i mem), by omega, fun j mem k edge => ?_⟩
  have next := closed j mem k edge
  simp only [List.cons_append, List.mem_cons, List.mem_append] at next ⊢
  rcases next with rfl | next
  · exact .inr old
  · exact next

theorem visit (h : t.Underway (steps + 1) (i :: todo) seen)
    (fresh : seen.any (·.path == i.path) = false) :
    t.Underway steps (t.parents i ++ todo) (seen ++ [i]) := by
  obtain ⟨known, enough, closed⟩ := h
  have mem : i ∈ t.interfaces := known i (by simp)
  have edges := edgesLeft_visit mem fresh
  have few := length_parents_le (t := t) i
  rw [List.length_cons] at enough
  refine ⟨fun j h => ?_, by rw [List.length_append]; omega, fun j h k edge => ?_⟩
  · simp only [List.mem_append, List.mem_singleton] at h
    rcases h with (h | h) | (h | rfl)
    · exact mem_interfaces_of_mem_parents h
    · exact known j (by simp [h])
    · exact known j (by simp [h])
    · exact mem
  · simp only [List.mem_append, List.mem_singleton] at h ⊢
    rcases h with h | rfl
    · have next := closed j h k edge
      simp only [List.cons_append, List.mem_cons, List.mem_append] at next
      rcases next with rfl | next | next
      · exact .inr (.inr rfl)
      · exact .inl (.inr next)
      · exact .inr (.inl next)
    · exact .inl (.inl edge)

/-- A walk under way visits what is to do and all that the interfaces it visits extend. -/
theorem walk (placed : t.Placed) (h : t.Underway steps todo seen) :
    (∀ i ∈ todo ++ seen, i ∈ t.walk steps todo seen) ∧
      ∀ i ∈ t.walk steps todo seen, ∀ j ∈ t.parents i, j ∈ t.walk steps todo seen := by
  induction steps generalizing todo seen with
  | zero =>
    have enough := h.enough
    obtain rfl : todo = [] := List.eq_nil_of_length_eq_zero (by omega)
    exact ⟨fun i mem => mem, h.closed⟩
  | succ steps ih =>
    cases todo with
    | nil =>
      rw [SymbolTable.walk]
      · exact ⟨fun i mem => mem, h.closed⟩
      · simp
    | cons i todo =>
      rw [SymbolTable.walk]
      split
      · rename_i old
        obtain ⟨i', mem', same⟩ := List.any_eq_true.1 old
        obtain rfl : i' = i := placed i' (h.known i' (by simp [mem'])) i (h.known i (by simp))
          (by simpa using same)
        obtain ⟨reached, closed⟩ := ih (h.skip mem')
        refine ⟨fun j mem => reached j ?_, closed⟩
        rcases List.mem_cons.1 mem with rfl | mem
        · exact List.mem_append_right _ mem'
        · exact mem
      · rename_i new
        obtain ⟨reached, closed⟩ := ih (h.visit (Bool.eq_false_iff.2 new))
        refine ⟨fun j mem => reached j ?_, closed⟩
        simp only [List.cons_append, List.mem_cons, List.mem_append] at mem ⊢
        tauto

end Underway

/-- What holds of the interfaces to do and of those seen, and is passed on along extension, holds
of all that a walk visits. -/
theorem walk_induction {P : Entry InterfaceDecl → Prop}
    (step : ∀ i, P i → ∀ j ∈ t.parents i, P j) {steps : Nat}
    {todo seen : List (Entry InterfaceDecl)} (start : ∀ i ∈ todo ++ seen, P i) :
    ∀ i ∈ t.walk steps todo seen, P i := by
  induction steps generalizing todo seen with
  | zero => exact fun i mem => start i (List.mem_append_right _ mem)
  | succ steps ih =>
    cases todo with
    | nil =>
      rw [walk]
      · exact start
      · simp
    | cons i todo =>
      rw [walk]
      split
      · exact ih fun j mem => start j (by simp_all)
      · refine ih fun j mem => ?_
        simp only [List.mem_append, List.mem_singleton] at mem
        rcases mem with (mem | mem) | (mem | rfl)
        · exact step i (start i (by simp)) j mem
        · exact start j (by simp [mem])
        · exact start j (by simp [mem])
        · exact start j (by simp)

/-! ## Closures -/

/-- The walk that a closure takes has enough steps. -/
theorem underway_closure {roots : List (Entry InterfaceDecl)}
    (known : ∀ i ∈ roots, i ∈ t.interfaces) : t.Underway (t.walkSteps roots) roots [] := by
  have all : t.edgesLeft [] = (t.interfaces.flatMap fun i => i.decl.parents).length := by
    simp [edgesLeft]
  exact ⟨by simpa using known, by rw [walkSteps, all]; omega, by simp⟩

/-- The closure of some interfaces consists of those they reach. -/
theorem mem_closure_iff (placed : t.Placed) {roots : List (Entry InterfaceDecl)}
    (known : ∀ i ∈ roots, i ∈ t.interfaces) {j : Entry InterfaceDecl} :
    j ∈ t.closure roots ↔ ∃ i ∈ roots, t.Reaches i j := by
  constructor
  · intro mem
    refine walk_induction (P := fun j => ∃ i ∈ roots, t.Reaches i j) ?_ (fun i mem => ?_) j mem
    · rintro j ⟨i, mem, reaches⟩ k edge
      exact ⟨i, mem, reaches.tail edge⟩
    · exact ⟨i, by simpa using mem, .refl⟩
  · rintro ⟨i, mem, reaches⟩
    obtain ⟨reached, closed⟩ := (underway_closure known).walk placed
    induction reaches with
    | refl => exact reached i (by simpa using mem)
    | tail _ step ih => exact closed _ ih _ step

/-- One interface is a subtype of another if both names mean interfaces and it reaches the other. -/
theorem isSubinterface_iff (placed : t.Placed) {sub sup : String} :
    t.isSubinterface sub sup = true ↔ ∃ i j, t.interfaces.resolve none sub = .ok i ∧
      t.interfaces.resolve none sup = .ok j ∧ t.Reaches i j := by
  unfold isSubinterface
  constructor
  · intro edge
    split at edge
    · rename_i i target hi htarget
      have known : ∀ l ∈ [i], l ∈ t.interfaces := fun l mem =>
        List.mem_singleton.1 mem ▸ Namespace.mem_of_resolve_eq_ok hi
      obtain ⟨j, reached, there⟩ := List.any_eq_true.1 edge
      obtain ⟨root, start, reaches⟩ := (mem_closure_iff placed known).1 reached
      obtain rfl := List.mem_singleton.1 start
      obtain rfl : j = target := placed j (reaches.mem_interfaces (known root start)) target
        (Namespace.mem_of_resolve_eq_ok htarget) (by simpa using there)
      exact ⟨root, j, hi, htarget, reaches⟩
    · cases edge
  · rintro ⟨i, j, hi, hj, reaches⟩
    have known : ∀ l ∈ [i], l ∈ t.interfaces := fun l mem =>
      List.mem_singleton.1 mem ▸ Namespace.mem_of_resolve_eq_ok hi
    rw [hi, hj]
    exact List.any_eq_true.2 ⟨j, (mem_closure_iff placed known).2 ⟨i, by simp, reaches⟩, by simp⟩

/-- What holds of the signatures found before and of those of all interfaces reached from one,
holds of what a descent into it finds. -/
theorem descend_induction {P : Signature → Prop} {depth : Nat} {i : Entry InterfaceDecl}
    {st : Descent} (reached : ∀ j, t.Reaches i j → ∀ sig ∈ j.decl.methods, P sig)
    (start : ∀ sig ∈ st.found, P sig) : ∀ sig ∈ (t.descend depth i st).found, P sig := by
  induction depth generalizing i st with
  | zero => exact start
  | succ depth ih =>
    rw [descend]
    split
    · exact start
    · refine List.foldlRecOn (motive := fun st : Descent => ∀ sig ∈ st.found, P sig) (t.parents i)
        _ ?_ fun st found j edge => ?_
      · intro sig mem
        rcases List.mem_append.1 mem with mem | mem
        · exact start sig mem
        · exact reached i .refl sig mem
      · exact ih (fun k reaches => reached k (.head edge reaches)) found

/-- The signatures of an interface are those of the interfaces it reaches. -/
theorem exists_of_mem_interfaceMethods {i : Entry InterfaceDecl} {sig : Signature}
    (mem : sig ∈ t.interfaceMethods i) : ∃ j, t.Reaches i j ∧ sig ∈ j.decl.methods :=
  descend_induction (P := fun sig => ∃ j, t.Reaches i j ∧ sig ∈ j.decl.methods)
    (fun j reaches _ mem => ⟨j, reaches, mem⟩) (by simp) sig mem

/-- The number of interfaces that are not entered yet. -/
def unentered (t : SymbolTable) (visited : List DeclPath) : Nat :=
  (t.interfaces.filter fun i => i.path ∉ visited).length

theorem unentered_mono {visited visited' : List DeclPath} (sub : visited ⊆ visited') :
    t.unentered visited' ≤ t.unentered visited :=
  (List.monotone_filter_right t.interfaces fun i out => by
    simp only [decide_eq_true_eq] at out ⊢
    exact fun mem => out (sub mem)).length_le

theorem unentered_cons_lt {i : Entry InterfaceDecl} (mem : i ∈ t.interfaces)
    {visited : List DeclPath} (new : i.path ∉ visited) :
    t.unentered (i.path :: visited) < t.unentered visited := by
  have sub : (t.interfaces.filter fun j => j.path ∉ i.path :: visited).Sublist
      (t.interfaces.filter fun j => j.path ∉ visited) :=
    List.monotone_filter_right t.interfaces fun j out => by
      simp only [decide_eq_true_eq] at out ⊢
      exact fun mem => out (List.mem_cons_of_mem _ mem)
  refine lt_of_le_of_ne sub.length_le fun same => ?_
  have left : i ∈ t.interfaces.filter fun j => j.path ∉ i.path :: visited := by
    rw [sub.eq_of_length same]
    exact List.mem_filter.2 ⟨mem, decide_eq_true new⟩
  simpa using (List.mem_filter.1 left).2

/-- Nothing that was done is undone, and of every interface entered on the way the signatures are
found and the parents are entered too. -/
structure Descends (t : SymbolTable) (st st' : Descent) : Prop where
  visited : st.visited ⊆ st'.visited
  found : st.found ⊆ st'.found
  entered : ∀ j ∈ t.interfaces, j.path ∈ st'.visited → j.path ∉ st.visited →
    j.decl.methods ⊆ st'.found ∧ ∀ k ∈ t.parents j, k.path ∈ st'.visited

namespace Descends

variable {a b c : Descent}

theorem refl (st : Descent) : t.Descends st st :=
  ⟨List.Subset.refl _, List.Subset.refl _, fun _ _ mem new => absurd mem new⟩

theorem trans (h : t.Descends a b) (h' : t.Descends b c) : t.Descends a c where
  visited := List.Subset.trans h.visited h'.visited
  found := List.Subset.trans h.found h'.found
  entered j mem late new := by
    by_cases early : j.path ∈ b.visited
    · obtain ⟨methods, parents⟩ := h.entered j mem early new
      exact ⟨List.Subset.trans methods h'.found, fun k edge => h'.visited (parents k edge)⟩
    · exact h'.entered j mem late early

/-- Entering an interface and then descending into its parents. -/
theorem enter (placed : t.Placed) {i : Entry InterfaceDecl} (mem : i ∈ t.interfaces)
    (h : t.Descends ⟨i.path :: a.visited, a.found ++ i.decl.methods⟩ b)
    (parents : ∀ k ∈ t.parents i, k.path ∈ b.visited) : t.Descends a b where
  visited := List.Subset.trans (List.subset_cons_self _ _) h.visited
  found := List.Subset.trans (List.subset_append_left _ _) h.found
  entered j mem' late new := by
    by_cases same : j.path = i.path
    · obtain rfl := placed j mem' i mem same
      exact ⟨List.Subset.trans (List.subset_append_right _ _) h.found, parents⟩
    · exact h.entered j mem' late fun early => (List.mem_cons.1 early).elim same new

end Descends

/-- A descent that may go deep enough enters the interface, and all that it extends. -/
theorem descends_descend (placed : t.Placed) {depth : Nat} {i : Entry InterfaceDecl}
    (mem : i ∈ t.interfaces) {st : Descent} (room : t.unentered st.visited < depth) :
    t.Descends st (t.descend depth i st) ∧ i.path ∈ (t.descend depth i st).visited := by
  induction depth generalizing i st with
  | zero => omega
  | succ depth ih =>
    rw [descend]
    split
    · rename_i entered
      exact ⟨.refl st, entered⟩
    · rename_i new
      have less := unentered_cons_lt mem new
      -- The parents are entered one after the other.
      have all : ∀ (ps : List (Entry InterfaceDecl)) (st : Descent), ps ⊆ t.interfaces →
          t.unentered st.visited < depth →
          t.Descends st (ps.foldl (fun st p => t.descend depth p st) st) ∧
            ∀ p ∈ ps, p.path ∈ (ps.foldl (fun st p => t.descend depth p st) st).visited := by
        intro ps
        induction ps with
        | nil => exact fun st _ _ => ⟨.refl st, by simp⟩
        | cons p ps ihs =>
          intro st sub room
          obtain ⟨mem, sub⟩ := List.cons_subset.1 sub
          obtain ⟨first, entered⟩ := ih mem room
          obtain ⟨rest, others⟩ := ihs _ sub
            (lt_of_le_of_lt (unentered_mono first.visited) room)
          exact ⟨first.trans rest, List.forall_mem_cons.2 ⟨rest.visited entered, others⟩⟩
      obtain ⟨below, parents⟩ := all (t.parents i)
        ⟨i.path :: st.visited, st.found ++ i.decl.methods⟩
        (fun _ edge => mem_interfaces_of_mem_parents edge) (by dsimp only; omega)
      exact ⟨below.enter placed mem parents, below.visited List.mem_cons_self⟩

/-- Collecting the signatures of an interface enters all that it reaches. -/
theorem descends_of_reaches (placed : t.Placed) {i j : Entry InterfaceDecl}
    (mem : i ∈ t.interfaces) (reaches : t.Reaches i j) :
    j.path ∈ (t.descend t.descentDepth i ⟨[], []⟩).visited ∧
      j.decl.methods ⊆ t.interfaceMethods i := by
  have room : t.unentered (Descent.mk [] []).visited < t.descentDepth :=
    Nat.lt_succ_of_le (List.length_filter_le _ _)
  obtain ⟨descends, entered⟩ := descends_descend placed mem room
  have closed {k : Entry InterfaceDecl} (reaches : t.Reaches i k)
      (entered : k.path ∈ (t.descend t.descentDepth i ⟨[], []⟩).visited) :=
    descends.entered k (Reaches.mem_interfaces reaches mem) entered List.not_mem_nil
  have reached : j.path ∈ (t.descend t.descentDepth i ⟨[], []⟩).visited := by
    induction reaches with
    | refl => exact entered
    | tail reaches edge ih => exact (closed reaches ih).2 _ edge
  exact ⟨reached, (closed reaches reached).1⟩

/-- The signatures of an interface are exactly those of the interfaces it reaches. -/
theorem mem_interfaceMethods_iff (placed : t.Placed) {i : Entry InterfaceDecl}
    (mem : i ∈ t.interfaces) {sig : Signature} :
    sig ∈ t.interfaceMethods i ↔ ∃ j, t.Reaches i j ∧ sig ∈ j.decl.methods := by
  constructor
  · exact exists_of_mem_interfaceMethods
  · rintro ⟨j, reaches, declared⟩
    exact (descends_of_reaches placed mem reaches).2 declared

/-! ## Implemented interfaces -/

variable {c : Entry ClassDecl}

theorem mem_interfaces_of_mem_implemented {i : Entry InterfaceDecl} (h : i ∈ t.implemented c) :
    i ∈ t.interfaces := by
  obtain ⟨name, -, found⟩ := List.mem_filterMap.1 h
  exact mem_of_toOption found

/-- A class implements what the interfaces it implements extend. -/
theorem mem_implementedInterfaces_of_reaches (placed : t.Placed) {i j : Entry InterfaceDecl}
    (mem : i ∈ t.implementedInterfaces c) (reaches : t.Reaches i j) :
    j ∈ t.implementedInterfaces c := by
  have known := fun i => mem_interfaces_of_mem_implemented (t := t) (c := c) (i := i)
  obtain ⟨root, start, first⟩ := (mem_closure_iff placed known).1 mem
  exact (mem_closure_iff placed known).2 ⟨root, start, first.trans reaches⟩

theorem mem_interfaces_of_mem_implementedInterfaces (placed : t.Placed) {i : Entry InterfaceDecl}
    (mem : i ∈ t.implementedInterfaces c) : i ∈ t.interfaces := by
  have known := fun i => mem_interfaces_of_mem_implemented (t := t) (c := c) (i := i)
  obtain ⟨root, start, first⟩ := (mem_closure_iff placed known).1 mem
  exact first.mem_interfaces (known root start)

/-- The entries of a model are told apart by their places. -/
theorem placed_ofModel (m : Model) : (ofModel m).Placed := fun _ mem _ mem' path =>
  Model.narrow_eq_of_path_eq mem mem' path

end SymbolTable

end DeltaLang
