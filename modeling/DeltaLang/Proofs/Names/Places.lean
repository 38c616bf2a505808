import DeltaLang.Proofs.Names.Checked
import DeltaLang.Proofs.Trait.Places

/-!
# Interface extension does not depend on places

The search for cycles and the collection of signatures know the interfaces that they met by their
places.  Where interfaces are told apart by their modules and names, only these matter: if the same
interfaces are declared at other places, the same extends the same, so that there are cycles and
repeated signatures in both or in neither.
-/

namespace DeltaLang

namespace Namespace

variable {α : Type} {ns ns' : Namespace α}

/-- Where the same is declared, the same names mean something. -/
theorem exists_resolve_congr (same : ns.map Entry.unplaced = ns'.map Entry.unplaced)
    {frm : Option String} {name : String} (h : ∃ e, ns.resolve frm name = .ok e) :
    ∃ e, ns'.resolve frm name = .ok e := by
  obtain ⟨e, found⟩ := h
  obtain ⟨err, failed, -⟩ | ⟨-, e', -, found', -⟩ := resolve_congr same frm name
  · cases found.symm.trans failed
  · exact ⟨e', found'⟩

end Namespace

theorem exists_of_unplaced_eq {α : Type} {l l' : List (Entry α)}
    (same : l.map Entry.unplaced = l'.map Entry.unplaced) {e : Entry α} (mem : e ∈ l) :
    ∃ e' ∈ l', e.unplaced = e'.unplaced := by
  have mem' : e.unplaced ∈ l'.map Entry.unplaced := same ▸ List.mem_map_of_mem mem
  obtain ⟨e', mem', eq⟩ := List.mem_map.1 mem'
  exact ⟨e', mem', eq.symm⟩

namespace SymbolTable

variable {t t' : SymbolTable} {i j i' j' : Entry InterfaceDecl}

/-- The same interfaces are declared, in the same order but maybe at other places.  They are told
apart by their places, and by their modules and names. -/
structure SameInterfaces (t t' : SymbolTable) : Prop where
  same : t.interfaces.map Entry.unplaced = t'.interfaces.map Entry.unplaced
  placed : t.Placed
  placed' : t'.Placed
  keys : (t.interfaces.map fun e => (e.module, e.name)).Nodup

/-- The second interface is what the first one is in the other table. -/
structure Counterpart (t t' : SymbolTable) (i i' : Entry InterfaceDecl) : Prop where
  mem : i ∈ t.interfaces
  mem' : i' ∈ t'.interfaces
  same : i.unplaced = i'.unplaced

namespace SameInterfaces

theorem symm (h : t.SameInterfaces t') : t'.SameInterfaces t where
  same := h.same.symm
  placed := h.placed'
  placed' := h.placed
  keys := by
    have keys := congrArg (List.map fun e => (e.module, e.name)) h.same
    rw [List.map_map, List.map_map] at keys
    exact keys ▸ h.keys

variable (h : t.SameInterfaces t')

include h

theorem exists_counterpart (mem : i ∈ t.interfaces) : ∃ i', t.Counterpart t' i i' := by
  obtain ⟨i', mem', same⟩ := exists_of_unplaced_eq h.same mem
  exact ⟨i', mem, mem', same⟩

theorem eq_of_unplaced_eq (mem : i ∈ t.interfaces) (mem' : j ∈ t.interfaces)
    (same : i.unplaced = j.unplaced) : i = j :=
  List.inj_on_of_nodup_map h.keys mem mem' <| Prod.ext
    (congrArg Entry.module same :) (congrArg Entry.name same :)

theorem eq_of_counterpart (hi : t.Counterpart t' i i') (hj : t.Counterpart t' j i') : i = j :=
  h.eq_of_unplaced_eq hi.mem hj.mem (hi.same.trans hj.same.symm)

theorem path_eq_iff (hi : t.Counterpart t' i i') (hj : t.Counterpart t' j j') :
    i.path = j.path ↔ i'.path = j'.path := by
  constructor
  · intro path
    obtain rfl := h.placed i hi.mem j hj.mem path
    rw [h.symm.eq_of_unplaced_eq hi.mem' hj.mem' (hi.same.symm.trans hj.same)]
  · intro path
    obtain rfl := h.placed' i' hi.mem' j' hj.mem' path
    rw [h.eq_of_counterpart hi hj]

/-- The same interfaces are extended. -/
theorem parents (hi : t.Counterpart t' i i') :
    List.Forall₂ (t.Counterpart t') (t.parents i) (t'.parents i') := by
  have decl : i.decl = i'.decl := (congrArg Entry.decl hi.same :)
  rw [SymbolTable.parents, SymbolTable.parents, decl]
  induction i'.decl.parents with
  | nil => exact .nil
  | cons name names ih =>
    rw [List.filterMap_cons, List.filterMap_cons]
    obtain ⟨err, failed, failed'⟩ | ⟨p, p', found, found', same⟩ :=
      Namespace.resolve_congr h.same none name
    · rw [failed, failed']
      exact ih
    · rw [found, found']
      exact .cons ⟨Namespace.mem_of_resolve_eq_ok found, Namespace.mem_of_resolve_eq_ok found',
        same⟩ ih

/-! ## Cycles -/

theorem exists_transGen (hi : t.Counterpart t' i i') (leads : Relation.TransGen t.Extends i j) :
    ∃ j', t.Counterpart t' j j' ∧ Relation.TransGen t'.Extends i' j' := by
  have step {a b a' : Entry InterfaceDecl} (ha : t.Counterpart t' a a') (edge : t.Extends a b) :
      ∃ b', t.Counterpart t' b b' ∧ t'.Extends a' b' := by
    obtain ⟨b', mem, hb⟩ := (exists_of_forall₂ (h.parents ha)).1 b edge
    exact ⟨b', hb, mem⟩
  induction leads with
  | single edge =>
    obtain ⟨j', hj, edge'⟩ := step hi edge
    exact ⟨j', hj, .single edge'⟩
  | tail _ edge ih =>
    obtain ⟨k', hk, leads'⟩ := ih
    obtain ⟨j', hj, edge'⟩ := step hk edge
    exact ⟨j', hj, leads'.tail edge'⟩

theorem extensionAcyclic (acyclic : t.ExtensionAcyclic) : t'.ExtensionAcyclic := by
  intro i' mem' cycle
  obtain ⟨i, hi⟩ := h.symm.exists_counterpart mem'
  obtain ⟨j, hj, leads⟩ := h.symm.exists_transGen hi cycle
  rw [h.symm.symm.eq_of_unplaced_eq hj.mem' hi.mem' (hj.same.symm.trans hi.same)] at leads
  exact acyclic i hi.mem' leads

/-! ## Signatures -/

end SameInterfaces

/-- The descents found the same, and entered the same interfaces. -/
structure DescendsAlike (t t' : SymbolTable) (st st' : Descent) : Prop where
  found : st.found = st'.found
  visited : ∀ i i', t.Counterpart t' i i' → (i.path ∈ st.visited ↔ i'.path ∈ st'.visited)

namespace SameInterfaces

variable (h : t.SameInterfaces t')

include h

theorem descend (depth : Nat) (hi : t.Counterpart t' i i') {st st' : Descent}
    (alike : t.DescendsAlike t' st st') :
    t.DescendsAlike t' (t.descend depth i st) (t'.descend depth i' st') := by
  induction depth generalizing i i' st st' with
  | zero => exact alike
  | succ depth ih =>
    rw [SymbolTable.descend, SymbolTable.descend]
    by_cases entered : i.path ∈ st.visited
    · rw [if_pos entered, if_pos ((alike.visited i i' hi).1 entered)]
      exact alike
    · rw [if_neg entered, if_neg (mt (alike.visited i i' hi).2 entered)]
      have decl : i.decl = i'.decl := (congrArg Entry.decl hi.same :)
      refine List.rel_foldl (P := t.DescendsAlike t') (R := t.Counterpart t')
        (fun _ _ alike _ _ hp => ih hp alike) ?_ (h.parents hi)
      refine ⟨by rw [alike.found, decl], fun j j' hj => ?_⟩
      rw [List.mem_cons, List.mem_cons, alike.visited j j' hj, h.path_eq_iff hj hi]

theorem interfaceMethods (hi : t.Counterpart t' i i') :
    t.interfaceMethods i = t'.interfaceMethods i' := by
  have depth : t.descentDepth = t'.descentDepth := by
    have length := congrArg List.length h.same
    rw [List.length_map, List.length_map] at length
    rw [descentDepth, descentDepth, length]
  rw [SymbolTable.interfaceMethods, SymbolTable.interfaceMethods, depth]
  exact (h.descend _ hi ⟨rfl, by simp⟩).found

theorem signaturesDistinct (distinct : t.SignaturesDistinct) : t'.SignaturesDistinct := by
  intro i' mem'
  obtain ⟨i, hi⟩ := h.symm.exists_counterpart mem'
  rw [h.symm.interfaceMethods hi]
  exact distinct i hi.mem'

/-! ## References -/

theorem parentsDeclared (declared : t.ParentsDeclared) : t'.ParentsDeclared := by
  intro i' mem' name named
  obtain ⟨i, hi⟩ := h.symm.exists_counterpart mem'
  have decl : i'.decl = i.decl := (congrArg Entry.decl hi.same :)
  have module : i'.module = i.module := (congrArg Entry.module hi.same :)
  rw [decl] at named
  rw [module]
  exact Namespace.exists_resolve_congr h.same (declared i hi.mem' name named)

end SameInterfaces

end SymbolTable

end DeltaLang
