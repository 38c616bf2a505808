import DeltaLang.Proofs.Names.Closure
import DeltaLang.Proofs.Program.Distinct

/-!
# The order in which interfaces are visited

Interface extension is followed in two ways.  The walk keeps a list of interfaces to visit, looks at
each when its turn comes, and puts what a visited one extends in front.  The descent goes into each
interface on the spot and comes back.  Both visit the same interfaces in the same order: what the
walk has in front of its list is what the descent has still to go through before it comes back.

Neither needs its bound.  Both are described here by rules that have none, and what the bounded
functions yield is derived by these rules, so that a walk and a descent always come to their end.
-/

namespace DeltaLang

namespace SymbolTable

variable {t : SymbolTable} {i : Entry InterfaceDecl}
  {is todo seen seen' out out' : List (Entry InterfaceDecl)} {st st' st'' : Descent}

/-! ## Rules without bounds -/

/-- With that much to do and that much seen, a walk ends when it has seen `out`. -/
inductive Walks (t : SymbolTable) :
    List (Entry InterfaceDecl) → List (Entry InterfaceDecl) → List (Entry InterfaceDecl) → Prop
  | done (seen : List (Entry InterfaceDecl)) : Walks t [] seen seen
  | skip {i : Entry InterfaceDecl} {todo seen out : List (Entry InterfaceDecl)}
      (old : i.path ∈ seen.map (·.path)) (rest : Walks t todo seen out) :
      Walks t (i :: todo) seen out
  | visit {i : Entry InterfaceDecl} {todo seen out : List (Entry InterfaceDecl)}
      (new : i.path ∉ seen.map (·.path)) (rest : Walks t (t.parents i ++ todo) (seen ++ [i]) out) :
      Walks t (i :: todo) seen out

/-- Entering the interfaces one after the other, with what was done before, ends when `st'` is
done. -/
inductive Enters (t : SymbolTable) : List (Entry InterfaceDecl) → Descent → Descent → Prop
  | done (st : Descent) : Enters t [] st st
  | skip {i : Entry InterfaceDecl} {is : List (Entry InterfaceDecl)} {st st' : Descent}
      (old : i.path ∈ st.visited) (rest : Enters t is st st') : Enters t (i :: is) st st'
  | enter {i : Entry InterfaceDecl} {is : List (Entry InterfaceDecl)} {st st' st'' : Descent}
      (new : i.path ∉ st.visited)
      (below : Enters t (t.parents i) ⟨i.path :: st.visited, st.found ++ i.decl.methods⟩ st')
      (rest : Enters t is st' st'') : Enters t (i :: is) st st''

namespace Walks

/-- A walk can only end in one way. -/
theorem unique (h : t.Walks todo seen out) (h' : t.Walks todo seen out') : out = out' := by
  induction h with
  | done seen => cases h' with
    | done => rfl
  | skip old _ ih => cases h' with
    | skip _ rest => exact ih rest
    | visit new _ => exact absurd old new
  | visit new _ ih => cases h' with
    | skip old _ => exact absurd old new
    | visit _ rest => exact ih rest

/-- No interface is visited twice. -/
theorem nodup (h : t.Walks todo seen out) (distinct : (seen.map (·.path)).Nodup) :
    (out.map (·.path)).Nodup := by
  induction h with
  | done seen => exact distinct
  | skip _ _ ih => exact ih distinct
  | @visit i todo seen out new _ ih =>
    refine ih ?_
    rw [List.map_append, List.map_singleton, ← List.concat_eq_append]
    exact distinct.concat new

end Walks

theorem any_path_iff : seen.any (·.path == i.path) = true ↔ i.path ∈ seen.map (·.path) := by
  simp

/-- A walk that is under way comes to its end. -/
theorem Underway.walks {steps : Nat} (placed : t.Placed) (h : t.Underway steps todo seen) :
    t.Walks todo seen (t.walk steps todo seen) := by
  induction steps generalizing todo seen with
  | zero =>
    have enough := h.enough
    obtain rfl : todo = [] := List.eq_nil_of_length_eq_zero (by omega)
    exact .done seen
  | succ steps ih =>
    cases todo with
    | nil =>
      rw [SymbolTable.walk]
      · exact .done seen
      · simp
    | cons i todo =>
      rw [SymbolTable.walk]
      split
      · rename_i old
        obtain ⟨i', mem, same⟩ := List.any_eq_true.1 old
        obtain rfl : i' = i := placed i' (h.known i' (by simp [mem])) i (h.known i (by simp))
          (by simpa using same)
        exact .skip (any_path_iff.1 old) (ih (h.skip mem))
      · rename_i new
        exact .visit (mt any_path_iff.2 new) (ih (h.visit (Bool.eq_false_iff.2 new)))

theorem walks_closure (placed : t.Placed) (known : is ⊆ t.interfaces) :
    t.Walks is [] (t.closure is) :=
  (underway_closure fun _ mem => known mem).walks placed

/-- A descent that may go deep enough enters interfaces until it comes back. -/
theorem enters_foldl_descend (placed : t.Placed) {depth : Nat} (known : is ⊆ t.interfaces)
    (room : t.unentered st.visited < depth) :
    t.Enters is st (is.foldl (fun st i => t.descend depth i st) st) := by
  induction depth generalizing is st with
  | zero => omega
  | succ depth ih =>
    induction is generalizing st with
    | nil => exact .done st
    | cons i is ihs =>
      obtain ⟨mem, known⟩ := List.cons_subset.1 known
      have left : t.unentered (t.descend (depth + 1) i st).visited < depth + 1 :=
        lt_of_le_of_lt (unentered_mono (descends_descend placed mem room).1.visited) room
      have rest := ihs known left
      rw [List.foldl_cons]
      rw [descend] at rest ⊢
      by_cases old : i.path ∈ st.visited
      · rw [if_pos old] at rest ⊢
        exact .skip old rest
      · rw [if_neg old] at rest ⊢
        have less := unentered_cons_lt mem old
        exact .enter old (ih (fun _ edge => mem_interfaces_of_mem_parents edge)
          (by dsimp only; omega)) rest

/-! ## The same order -/

/-- What a descent has done when it has entered just these interfaces in that order. -/
def Descent.ofSeen (seen : List (Entry InterfaceDecl)) : Descent :=
  ⟨(seen.map (·.path)).reverse, seen.flatMap (·.decl.methods)⟩

theorem Descent.mem_visited_ofSeen {path : DeclPath} :
    path ∈ (Descent.ofSeen seen).visited ↔ path ∈ seen.map (·.path) := List.mem_reverse

theorem Descent.ofSeen_append_singleton (seen : List (Entry InterfaceDecl))
    (i : Entry InterfaceDecl) : Descent.ofSeen (seen ++ [i]) =
      ⟨i.path :: (ofSeen seen).visited, (ofSeen seen).found ++ i.decl.methods⟩ := by
  simp [ofSeen]

/-- Where a descent enters some interfaces, a walk that has them in front of its list visits what
the descent enters, and then goes on with the rest of its list. -/
theorem Enters.exists_walks (h : t.Enters is (.ofSeen seen) st) :
    ∃ seen', st = .ofSeen seen' ∧
      ∀ todo out, t.Walks todo seen' out → t.Walks (is ++ todo) seen out := by
  -- The induction is on the rules of the descent, for whatever was seen before.
  generalize before : Descent.ofSeen seen = st₀ at h
  induction h generalizing seen with
  | done st => exact ⟨seen, before.symm, fun _ _ walks => walks⟩
  | skip old _ ih =>
    obtain ⟨seen', after, goes⟩ := ih before
    subst before
    exact ⟨seen', after, fun todo out walks =>
      .skip (Descent.mem_visited_ofSeen.1 old) (goes todo out walks)⟩
  | @enter i is st st' st'' new _ _ ihBelow ihRest =>
    subst before
    obtain ⟨seen₁, middle, goesBelow⟩ := ihBelow (Descent.ofSeen_append_singleton seen i)
    obtain ⟨seen₂, after, goesOn⟩ := ihRest middle.symm
    refine ⟨seen₂, after, fun todo out walks => ?_⟩
    exact .visit (mt Descent.mem_visited_ofSeen.2 new) (goesBelow _ _ (goesOn _ _ walks))

/-- Entering some interfaces with nothing done before is entering their closure in its order. -/
theorem foldl_descend_eq_ofSeen (placed : t.Placed) (known : is ⊆ t.interfaces) :
    is.foldl (fun st i => t.descend t.descentDepth i st) ⟨[], []⟩ = .ofSeen (t.closure is) := by
  have room : t.unentered (Descent.mk [] []).visited < t.descentDepth :=
    Nat.lt_succ_of_le (List.length_filter_le _ _)
  have enters : t.Enters is (.ofSeen []) _ := enters_foldl_descend placed known room
  obtain ⟨seen, after, goes⟩ := enters.exists_walks
  have walks := goes [] seen (.done seen)
  rw [List.append_nil] at walks
  exact after.trans (congrArg Descent.ofSeen (walks.unique (walks_closure placed known)))

/-- Interfaces that were entered before are not entered again. -/
theorem foldl_descend_of_visited {depth : Nat} (old : ∀ i ∈ is, i.path ∈ st.visited) :
    is.foldl (fun st i => t.descend (depth + 1) i st) st = st := by
  induction is with
  | nil => rfl
  | cons i is ih =>
    obtain ⟨first, rest⟩ := List.forall_mem_cons.1 old
    rw [List.foldl_cons, descend, if_pos first]
    exact ih rest

/-- The signatures of an interface are those of its closure in its order. -/
theorem found_ofSeen_closure (placed : t.Placed) (mem : i ∈ t.interfaces) (start : i ∈ is)
    (alone : ∀ j ∈ is, j = i) : (Descent.ofSeen (t.closure is)).found = t.interfaceMethods i := by
  have known : is ⊆ t.interfaces := fun j here => alone j here ▸ mem
  obtain ⟨j, rest, rfl⟩ := List.exists_cons_of_ne_nil (List.ne_nil_of_mem start)
  obtain ⟨rfl, others⟩ := List.forall_mem_cons.1 alone
  have entered : j.path ∈ (t.descend t.descentDepth j ⟨[], []⟩).visited :=
    (descends_of_reaches placed mem .refl).1
  have again : rest.foldl (fun st i => t.descend t.descentDepth i st)
      (t.descend t.descentDepth j ⟨[], []⟩) = t.descend t.descentDepth j ⟨[], []⟩ :=
    foldl_descend_of_visited fun k here => others k here ▸ entered
  rw [← foldl_descend_eq_ofSeen placed known, List.foldl_cons]
  exact congrArg Descent.found again

end SymbolTable

/-! ## Implemented interfaces -/

namespace Model

open SymbolTable

/-- The walk from the interfaces that a class names comes to its end.  It visits each interface that
they reach, once, and no other.  The descent into the same interfaces, which remembers what it
entered, comes to its end too, and finds their signatures in that order; for a class that names one
interface these are the signatures of the interface. -/
theorem implementedInterfaces_depthFirst (m : Model) (c : Entry ClassDecl) :
    let t := SymbolTable.ofModel m
    let descent := (t.implemented c).foldl (fun st i => t.descend t.descentDepth i st) ⟨[], []⟩
    t.Walks (t.implemented c) [] (t.implementedInterfaces c) ∧
      t.Enters (t.implemented c) ⟨[], []⟩ descent ∧
      ((t.implementedInterfaces c).map (·.path)).Nodup ∧
      (∀ j, j ∈ t.implementedInterfaces c ↔ ∃ i ∈ t.implemented c, t.Reaches i j) ∧
      (t.implementedInterfaces c).flatMap (·.decl.methods) = descent.found ∧
      ∀ i ∈ t.implemented c, (∀ j ∈ t.implemented c, j = i) →
        (t.implementedInterfaces c).flatMap (·.decl.methods) = t.interfaceMethods i := by
  intro t descent
  have placed : t.Placed := placed_ofModel m
  have known : t.implemented c ⊆ t.interfaces := fun _ mem =>
    mem_interfaces_of_mem_implemented mem
  have room : t.unentered (Descent.mk [] []).visited < t.descentDepth :=
    Nat.lt_succ_of_le (List.length_filter_le _ _)
  have walks := walks_closure placed known
  refine ⟨walks, enters_foldl_descend placed known room, walks.nodup List.nodup_nil,
    fun j => mem_closure_iff placed fun _ mem => known mem,
    (congrArg Descent.found (foldl_descend_eq_ofSeen placed known)).symm,
    fun i mem alone => found_ofSeen_closure placed (known mem) mem alone⟩

/-- An interface that extends two others which extend the same one, and that one extends the first
again, and a class that implements the first. -/
def loopedDiamondModel : Model :=
  let sig (name : String) : Signature := { (default : Signature) with name := name }
  ⟨[⟨none, [⟨"M", [.interface ⟨"Top", ["Left", "Right"], [sig "top"], none⟩,
    .interface ⟨"Left", ["Base"], [sig "left"], none⟩,
    .interface ⟨"Right", ["Nowhere", "Base"], [sig "right"], none⟩,
    .interface ⟨"Base", ["Top"], [sig "base"], none⟩,
    .class { (default : ClassDecl) with name := "C", implements := ["Top"] }], none⟩]⟩]⟩

theorem implementedInterfaces_depthFirst_loopedDiamondModel :
    let t := SymbolTable.ofModel loopedDiamondModel
    ∃ c ∈ t.classes, ∃ i ∈ t.implemented c, (∀ j ∈ t.implemented c, j = i) ∧
      (t.implementedInterfaces c).flatMap (·.decl.methods) = t.interfaceMethods i ∧
      (t.interfaceMethods i).map (·.name) = ["top", "left", "base", "right"] := by
  intro t
  have one : ∃ c ∈ t.classes, ∃ i ∈ t.implemented c, (∀ j ∈ t.implemented c, j = i) ∧
      (t.interfaceMethods i).map (·.name) = ["top", "left", "base", "right"] := by
    decide +kernel
  obtain ⟨c, declared, i, mem, alone, names⟩ := one
  obtain ⟨-, -, -, -, -, single⟩ := implementedInterfaces_depthFirst loopedDiamondModel c
  exact ⟨c, declared, i, mem, alone, single i mem alone, names⟩

end Model

end DeltaLang
