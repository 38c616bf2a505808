import DeltaLang.Check.Extension
import DeltaLang.Proofs.Names.Closure
import Mathlib.Data.List.Nodup
import Mathlib.Data.List.Perm.Subperm

/-!
# Cycles of interface extension

The search for cycles reports nothing if and only if no interface leads back to itself.  As long as
it has reported nothing, what an interface that it is finished with extends is finished too, and an
interface is finished with after those that it extends, while it is still on the path itself.  And
an interface on the path leads to all that come after it there, so that a report closes a cycle.
-/

namespace DeltaLang

/-- No interface extends itself, however far. -/
def SymbolTable.ExtensionAcyclic (t : SymbolTable) : Prop :=
  ∀ i ∈ t.interfaces, ¬ Relation.TransGen t.Extends i i

namespace Check

open SymbolTable

variable {t : SymbolTable} {depth : Nat} {path : List (Entry InterfaceDecl)}
  {i p : Entry InterfaceDecl} {loc : Option Location} {st st' st'' : CycleSearch}

/-! ## One step of the search -/

/-- Goes on to `p` from the end of a path: reports a cycle if `p` is on the path, and searches from
`p` unless that is finished. -/
def follow (t : SymbolTable) (depth : Nat) (path : List (Entry InterfaceDecl))
    (loc : Option Location) (st : CycleSearch) (p : Entry InterfaceDecl) : CycleSearch :=
  if path.any (·.path == p.path) then
    { st with
      findings := st.findings ++ [.errorAt .cyclicInheritance
        ("interface extension is cyclic: " ++ " -> ".intercalate (cycleNames path p)) loc] }
  else if p.path ∈ st.finished then st
  else searchFrom t depth path p st

theorem searchFrom_succ (above : List (Entry InterfaceDecl)) (i : Entry InterfaceDecl)
    (st : CycleSearch) :
    searchFrom t (depth + 1) above i st =
      let st := (t.parents i).foldl (follow t depth (above ++ [i]) i.decl.loc) st
      { st with finished := i.path :: st.finished } := rfl

theorem interfaceCycles_eq (t : SymbolTable) : interfaceCycles t =
    (t.interfaces.foldl (follow t (t.interfaces.length + 1) [] none) ⟨[], []⟩).findings := rfl

/-! ## Findings are kept -/

theorem prefix_follow (search : ∀ p st, st.findings <+: (searchFrom t depth path p st).findings)
    (loc : Option Location) (st : CycleSearch) (p : Entry InterfaceDecl) :
    st.findings <+: (follow t depth path loc st p).findings := by
  unfold follow
  split
  · exact List.prefix_append _ _
  · split
    · exact List.prefix_rfl
    · exact search p st

theorem prefix_foldl_follow
    (search : ∀ p st, st.findings <+: (searchFrom t depth path p st).findings)
    (loc : Option Location) (st : CycleSearch) (ps : List (Entry InterfaceDecl)) :
    st.findings <+: (ps.foldl (follow t depth path loc) st).findings :=
  List.foldlRecOn (motive := fun st' : CycleSearch => st.findings <+: st'.findings) ps _
    List.prefix_rfl fun _ kept p _ => kept.trans (prefix_follow search loc _ p)

theorem prefix_searchFrom (depth : Nat) (path : List (Entry InterfaceDecl))
    (i : Entry InterfaceDecl) (st : CycleSearch) :
    st.findings <+: (searchFrom t depth path i st).findings := by
  induction depth generalizing path i st with
  | zero => exact List.prefix_rfl
  | succ depth ih => exact prefix_foldl_follow (ih (path ++ [i])) i.decl.loc st (t.parents i)

/-- What has no errors in the end had none before. -/
theorem clean_of_isPrefix {ds ds' : Diagnostics} (kept : ds <+: ds')
    (clean : ds'.hasErrors = false) : ds.hasErrors = false := by
  obtain ⟨rest, rfl⟩ := kept
  rw [Diagnostics.hasErrors_append, Bool.or_eq_false_iff] at clean
  exact clean.1

/-! ## A search without reports -/

/-- What a finished interface extends is finished, and no finished interface leads back to
itself. -/
structure Finished (t : SymbolTable) (finished : List DeclPath) : Prop where
  parents : ∀ i ∈ t.interfaces, i.path ∈ finished → ∀ p ∈ t.parents i, p.path ∈ finished
  acyclic : ∀ i ∈ t.interfaces, i.path ∈ finished → ¬ Relation.TransGen t.Extends i i

theorem Finished.of_reaches {finished : List DeclPath} (h : Finished t finished)
    (mem : i ∈ t.interfaces) (start : i.path ∈ finished) (reaches : t.Reaches i p) :
    p.path ∈ finished := by
  induction reaches with
  | refl => exact start
  | tail before step ih => exact h.parents _ (Reaches.mem_interfaces before mem) ih _ step

/-- An interface can be finished with after those that it extends. -/
theorem Finished.cons (placed : t.Placed) {finished : List DeclPath} (h : Finished t finished)
    (mem : i ∈ t.interfaces) (new : i.path ∉ finished)
    (parents : ∀ p ∈ t.parents i, p.path ∈ finished) : Finished t (i.path :: finished) where
  parents j mem' late p edge := by
    refine List.mem_cons_of_mem _ ?_
    rcases List.mem_cons.1 late with same | early
    · obtain rfl := placed j mem' i mem same
      exact parents p edge
    · exact h.parents j mem' early p edge
  acyclic j mem' late := by
    rcases List.mem_cons.1 late with same | early
    · obtain rfl := placed j mem' i mem same
      intro cycle
      obtain ⟨p, edge, back⟩ := Relation.TransGen.head'_iff.1 cycle
      exact new (h.of_reaches (mem_interfaces_of_mem_parents edge) (parents p edge) back)
    · exact h.acyclic j mem' early

/-- The search went on and reported nothing: more is finished, but nothing on the path. -/
structure Advances (t : SymbolTable) (path : List (Entry InterfaceDecl)) (st st' : CycleSearch) :
    Prop where
  grown : st.finished ⊆ st'.finished
  finished : Finished t st'.finished
  unfinished : ∀ i ∈ path, i.path ∉ st'.finished

theorem Advances.trans (h : Advances t path st st') (h' : Advances t path st' st'') :
    Advances t path st st'' :=
  ⟨List.Subset.trans h.grown h'.grown, h'.finished, h'.unfinished⟩

/-- A search that starts from an interface off the path, where the path is not finished, and that
reports nothing, goes on until the interface is finished. -/
def Finishes (t : SymbolTable) (depth : Nat) (path : List (Entry InterfaceDecl)) : Prop :=
  ∀ (p : Entry InterfaceDecl) (st : CycleSearch), p ∈ t.interfaces → p ∉ path →
    p.path ∉ st.finished → Finished t st.finished → (∀ i ∈ path, i.path ∉ st.finished) →
    (searchFrom t depth path p st).findings.hasErrors = false →
    Advances t path st (searchFrom t depth path p st) ∧
      p.path ∈ (searchFrom t depth path p st).finished

theorem Finishes.follow (finishes : Finishes t depth path) (mem : p ∈ t.interfaces)
    (finished : Finished t st.finished) (unfinished : ∀ i ∈ path, i.path ∉ st.finished)
    (clean : (follow t depth path loc st p).findings.hasErrors = false) :
    Advances t path st (follow t depth path loc st p) ∧
      p.path ∈ (follow t depth path loc st p).finished := by
  unfold Check.follow at clean ⊢
  split
  · rename_i closes
    rw [if_pos closes, Diagnostics.hasErrors_append, Bool.or_eq_false_iff] at clean
    cases clean.2
  · rename_i off
    rw [if_neg off] at clean
    split
    · rename_i old
      exact ⟨⟨List.Subset.refl _, finished, unfinished⟩, old⟩
    · rename_i new
      rw [if_neg new] at clean
      refine finishes p st mem (fun on => off ?_) new finished unfinished clean
      exact List.any_eq_true.2 ⟨p, on, beq_self_eq_true _⟩

theorem Finishes.foldl_follow (finishes : Finishes t depth path)
    {ps : List (Entry InterfaceDecl)} (known : ps ⊆ t.interfaces)
    (finished : Finished t st.finished) (unfinished : ∀ i ∈ path, i.path ∉ st.finished)
    (clean : (ps.foldl (Check.follow t depth path loc) st).findings.hasErrors = false) :
    Advances t path st (ps.foldl (Check.follow t depth path loc) st) ∧
      ∀ p ∈ ps, p.path ∈ (ps.foldl (Check.follow t depth path loc) st).finished := by
  induction ps generalizing st with
  | nil => exact ⟨⟨List.Subset.refl _, finished, unfinished⟩, by simp⟩
  | cons p ps ih =>
    obtain ⟨mem, known⟩ := List.cons_subset.1 known
    have kept := prefix_foldl_follow (t := t) (prefix_searchFrom depth path) loc
      (Check.follow t depth path loc st p) ps
    obtain ⟨first, here⟩ := finishes.follow mem finished unfinished (clean_of_isPrefix kept clean)
    obtain ⟨rest, others⟩ := ih known first.finished first.unfinished clean
    exact ⟨first.trans rest, List.forall_mem_cons.2 ⟨rest.grown here, others⟩⟩

/-- The search is deep enough: a path of different interfaces is not longer than there are any. -/
theorem finishes_of_room (placed : t.Placed) (known : path ⊆ t.interfaces) (distinct : path.Nodup)
    (room : t.interfaces.length < depth + path.length) : Finishes t depth path := by
  induction depth generalizing path with
  | zero =>
    have few := (List.subperm_of_subset distinct known).length_le
    omega
  | succ depth ih =>
    intro i st mem off new finished unfinished clean
    have pending : ∀ j ∈ path ++ [i], j.path ∉ st.finished := by
      intro j on
      rcases List.mem_append.1 on with on | last
      · exact unfinished j on
      · exact List.mem_singleton.1 last ▸ new
    have deeper : Finishes t depth (path ++ [i]) := by
      refine ih (List.append_subset.2 ⟨known, by simpa using mem⟩) ?_ (by simp; omega)
      exact List.concat_eq_append ▸ distinct.concat off
    rw [searchFrom_succ] at clean ⊢
    obtain ⟨below, parents⟩ := deeper.foldl_follow
      (fun _ edge => mem_interfaces_of_mem_parents edge) finished pending clean
    have left := below.unfinished i (by simp)
    refine ⟨⟨fun q mem => List.mem_cons_of_mem _ (below.grown mem),
      below.finished.cons placed mem left parents, fun j on late => ?_⟩, List.mem_cons_self⟩
    rcases List.mem_cons.1 late with same | early
    · obtain rfl := placed j (known on) i mem same
      exact off on
    · exact below.unfinished j (List.mem_append_left _ on) early

/-! ## Without cycles -/

theorem findings_follow_of_acyclic (placed : t.Placed) (acyclic : t.ExtensionAcyclic)
    (search : (searchFrom t depth path p st).findings = st.findings) (known : path ⊆ t.interfaces)
    (mem : p ∈ t.interfaces) (leads : ∀ j ∈ path, Relation.TransGen t.Extends j p) :
    (follow t depth path loc st p).findings = st.findings := by
  unfold follow
  split
  · rename_i closes
    obtain ⟨j, on, same⟩ := List.any_eq_true.1 closes
    obtain rfl := placed j (known on) p mem (beq_iff_eq.1 same)
    exact absurd (leads j on) (acyclic j mem)
  · split
    · rfl
    · exact search

theorem findings_searchFrom_of_acyclic (placed : t.Placed) (acyclic : t.ExtensionAcyclic)
    (known : path ⊆ t.interfaces) (mem : i ∈ t.interfaces)
    (leads : ∀ j ∈ path, Relation.TransGen t.Extends j i) :
    (searchFrom t depth path i st).findings = st.findings := by
  induction depth generalizing path i st with
  | zero => rfl
  | succ depth ih =>
    have known' : path ++ [i] ⊆ t.interfaces := List.append_subset.2 ⟨known, by simpa using mem⟩
    refine List.foldlRecOn (motive := fun st' : CycleSearch => st'.findings = st.findings)
      (t.parents i) _ rfl fun st' same p edge => ?_
    have mem' := mem_interfaces_of_mem_parents edge
    have leads' : ∀ j ∈ path ++ [i], Relation.TransGen t.Extends j p := by
      intro j on
      rcases List.mem_append.1 on with on | last
      · exact (leads j on).tail edge
      · exact List.mem_singleton.1 last ▸ .single edge
    exact (findings_follow_of_acyclic placed acyclic (ih known' mem' leads') known' mem'
      leads').trans same

/-! ## All interfaces -/

/-- The search for cycles reports something exactly where an interface leads back to itself. -/
theorem interfaceCycles_clean_iff (placed : t.Placed) :
    (interfaceCycles t).hasErrors = false ↔ t.ExtensionAcyclic := by
  rw [interfaceCycles_eq]
  constructor
  · intro clean
    have finishes : Finishes t (t.interfaces.length + 1) [] :=
      finishes_of_room placed (List.nil_subset _) .nil (by simp)
    have none : Finished t [] := ⟨by simp, by simp⟩
    obtain ⟨all, reached⟩ := finishes.foldl_follow (List.Subset.refl _) none (by simp) clean
    exact fun i mem => all.finished.acyclic i mem (reached i mem)
  · intro acyclic
    have silent : (t.interfaces.foldl (follow t (t.interfaces.length + 1) [] none)
        ⟨[], []⟩).findings = [] := by
      refine List.foldlRecOn (motive := fun st : CycleSearch => st.findings = []) t.interfaces _ rfl
        fun st same i mem => ?_
      have known : [] ⊆ t.interfaces := List.nil_subset _
      refine (findings_follow_of_acyclic placed acyclic ?_ known mem (by simp)).trans same
      exact findings_searchFrom_of_acyclic placed acyclic known mem (by simp)
    rw [silent]
    rfl

end Check

end DeltaLang
