import DeltaLang.Proofs.Names.Cycles

/-!
# Bounds that are not reached

The walks along interface extension and the search for cycles are bounded, and the bound grows with
the number of interfaces.  It is never reached: a walk that may go further does the same.
-/

namespace DeltaLang

namespace SymbolTable

variable {t : SymbolTable}

/-- A descent that may go deep enough does not get deeper if it may. -/
theorem descend_eq_of_le (placed : t.Placed) {depth more : Nat} (le : depth ≤ more)
    {i : Entry InterfaceDecl} (mem : i ∈ t.interfaces) {st : Descent}
    (room : t.unentered st.visited < depth) : t.descend more i st = t.descend depth i st := by
  induction depth generalizing more i st with
  | zero => omega
  | succ depth ih =>
    obtain ⟨more, rfl⟩ : ∃ k, more = k + 1 := ⟨more - 1, by omega⟩
    rw [descend, descend]
    split
    · rfl
    · rename_i new
      have less := unentered_cons_lt mem new
      -- There is room below every parent, since what is entered stays so.
      have same := List.foldl_rel (r := fun st st' : Descent =>
          st = st' ∧ t.unentered st'.visited < depth) (l := t.parents i)
        (f := fun st p => t.descend more p st) (g := fun st p => t.descend depth p st)
        (a := ⟨i.path :: st.visited, st.found ++ i.decl.methods⟩)
        (b := ⟨i.path :: st.visited, st.found ++ i.decl.methods⟩)
        ⟨rfl, by dsimp only; omega⟩ fun p edge st st' h => by
          obtain ⟨rfl, room⟩ := h
          have mem := mem_interfaces_of_mem_parents edge
          have below := (descends_descend placed mem room).1.visited
          exact ⟨ih (Nat.le_of_succ_le_succ le) mem room,
            lt_of_le_of_lt (unentered_mono below) room⟩
      exact same.1

/-- The signatures of an interface are found by every descent that may go so deep. -/
theorem interfaceMethods_eq (placed : t.Placed) {i : Entry InterfaceDecl} (mem : i ∈ t.interfaces)
    {depth : Nat} (le : t.descentDepth ≤ depth) :
    (t.descend depth i ⟨[], []⟩).found = t.interfaceMethods i := by
  rw [interfaceMethods, descend_eq_of_le placed le mem]
  exact Nat.lt_succ_of_le (List.length_filter_le _ _)

/-- A walk that may take enough steps does not take more if it may. -/
theorem Underway.walk_eq_of_le (placed : t.Placed) {steps more : Nat} (le : steps ≤ more)
    {todo seen : List (Entry InterfaceDecl)} (h : t.Underway steps todo seen) :
    t.walk more todo seen = t.walk steps todo seen := by
  induction steps generalizing more todo seen with
  | zero =>
    have enough := h.enough
    obtain rfl : todo = [] := List.eq_nil_of_length_eq_zero (by omega)
    cases more <;> simp [SymbolTable.walk]
  | succ steps ih =>
    obtain ⟨more, rfl⟩ : ∃ k, more = k + 1 := ⟨more - 1, by omega⟩
    have le' := Nat.le_of_succ_le_succ le
    cases todo with
    | nil => simp [SymbolTable.walk]
    | cons i todo =>
      rw [SymbolTable.walk, SymbolTable.walk]
      split
      · rename_i old
        obtain ⟨i', mem', same⟩ := List.any_eq_true.1 old
        obtain rfl : i' = i := placed i' (h.known i' (by simp [mem'])) i (h.known i (by simp))
          (by simpa using same)
        exact ih le' (h.skip mem')
      · rename_i new
        exact ih le' (h.visit (Bool.eq_false_iff.2 new))

/-- The closure of some interfaces is what every walk visits that may take so many steps. -/
theorem closure_eq (placed : t.Placed) {roots : List (Entry InterfaceDecl)}
    (known : ∀ i ∈ roots, i ∈ t.interfaces) {steps : Nat} (le : t.walkSteps roots ≤ steps) :
    t.walk steps roots [] = t.closure roots :=
  (underway_closure known).walk_eq_of_le placed le

end SymbolTable

namespace Check

open SymbolTable

variable {t : SymbolTable}

/-- A search for cycles that may go deep enough does not get deeper if it may. -/
theorem searchFrom_eq_of_le {depth more : Nat} (le : depth ≤ more)
    {path : List (Entry InterfaceDecl)} (known : path ⊆ t.interfaces) (distinct : path.Nodup)
    (room : t.interfaces.length < depth + path.length) {i : Entry InterfaceDecl}
    (mem : i ∈ t.interfaces) (off : i ∉ path) (st : CycleSearch) :
    searchFrom t more path i st = searchFrom t depth path i st := by
  induction depth generalizing more path i st with
  | zero =>
    have few := (List.subperm_of_subset distinct known).length_le
    omega
  | succ depth ih =>
    obtain ⟨more, rfl⟩ : ∃ k, more = k + 1 := ⟨more - 1, by omega⟩
    rw [searchFrom_succ, searchFrom_succ]
    have known' : path ++ [i] ⊆ t.interfaces := List.append_subset.2 ⟨known, by simpa using mem⟩
    have distinct' : (path ++ [i]).Nodup := List.concat_eq_append ▸ distinct.concat off
    have below := List.foldl_ext (follow t more (path ++ [i]) i.decl.loc)
      (follow t depth (path ++ [i]) i.decl.loc) st (l := t.parents i) fun st p edge => by
        unfold follow
        split
        · rfl
        · rename_i off'
          split
          · rfl
          · refine ih (Nat.le_of_succ_le_succ le) known' distinct' (by simp; omega)
              (mem_interfaces_of_mem_parents edge) (fun on => off' ?_) st
            exact List.any_eq_true.2 ⟨p, on, beq_self_eq_true _⟩
    rw [below]

end Check

end DeltaLang
