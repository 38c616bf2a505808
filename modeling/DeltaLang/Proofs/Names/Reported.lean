import DeltaLang.Proofs.Names.Cycles
import DeltaLang.Proofs.Names.Ranks
import Mathlib.Data.List.Chain
import Mathlib.Data.List.Nodup

/-!
# What the search for cycles reports

The search is described here by rules that have no bound, and what the bounded search does is
derived by these rules, so that it always comes to its end.  The interfaces on the path of the
search extend each the next one.  So an interface that is met again on the path closes a cycle, and
its report tells the part of the path that leads from the interface back to it.
-/

namespace DeltaLang

namespace Check

open SymbolTable

variable {t : SymbolTable} {path todo : List (Entry InterfaceDecl)} {i p : Entry InterfaceDecl}
  {loc : Option Location} {st st' st'' : CycleSearch}

/-! ## Rules without bounds -/

/-- The report that `p`, met again at the end of a path, closes a cycle. -/
def cycleReport (path : List (Entry InterfaceDecl)) (p : Entry InterfaceDecl)
    (loc : Option Location) : Diagnostic :=
  .errorAt .cyclicInheritance
    ("interface extension is cyclic: " ++ " -> ".intercalate (cycleNames path p)) loc

/-- Going on from the end of a path to the interfaces to do, one after the other, ends when `st'` is
done. -/
inductive Searches (t : SymbolTable) :
    List (Entry InterfaceDecl) → Option Location → List (Entry InterfaceDecl) →
      CycleSearch → CycleSearch → Prop
  | done (path : List (Entry InterfaceDecl)) (loc : Option Location) (st : CycleSearch) :
      Searches t path loc [] st st
  | close {path todo : List (Entry InterfaceDecl)} {p : Entry InterfaceDecl}
      {loc : Option Location} {st st' : CycleSearch} (on : p.path ∈ path.map (·.path))
      (rest : Searches t path loc todo
        { st with findings := st.findings ++ [cycleReport path p loc] } st') :
      Searches t path loc (p :: todo) st st'
  | skip {path todo : List (Entry InterfaceDecl)} {p : Entry InterfaceDecl}
      {loc : Option Location} {st st' : CycleSearch} (off : p.path ∉ path.map (·.path))
      (old : p.path ∈ st.finished) (rest : Searches t path loc todo st st') :
      Searches t path loc (p :: todo) st st'
  | enter {path todo : List (Entry InterfaceDecl)} {p : Entry InterfaceDecl}
      {loc : Option Location} {st st' st'' : CycleSearch} (off : p.path ∉ path.map (·.path))
      (new : p.path ∉ st.finished)
      (below : Searches t (path ++ [p]) p.decl.loc (t.parents p) st st')
      (rest : Searches t path loc todo { st' with finished := p.path :: st'.finished } st'') :
      Searches t path loc (p :: todo) st st''

/-- A search can only end in one way. -/
theorem Searches.unique (h : Searches t path loc todo st st')
    (h' : Searches t path loc todo st st'') : st' = st'' := by
  induction h generalizing st'' with
  | done => cases h' with
    | done => rfl
  | close on _ ih => cases h' with
    | close _ rest => exact ih rest
    | skip off => exact absurd on off
    | enter off => exact absurd on off
  | skip off old _ ih => cases h' with
    | close on => exact absurd on off
    | skip _ _ rest => exact ih rest
    | enter _ new => exact absurd old new
  | enter off new _ _ ihBelow ih => cases h' with
    | close on => exact absurd on off
    | skip _ old => exact absurd old new
    | enter _ _ below rest =>
      obtain rfl := ihBelow below
      exact ih rest

theorem any_path_eq_true_iff : path.any (·.path == p.path) = true ↔ p.path ∈ path.map (·.path) := by
  simp

/-- A search that may go deep enough goes on until it comes back. -/
theorem searches_foldl_follow {depth : Nat} (known : path ⊆ t.interfaces) (distinct : path.Nodup)
    (room : t.interfaces.length < depth + path.length) (later : todo ⊆ t.interfaces)
    (loc : Option Location) (st : CycleSearch) :
    Searches t path loc todo st (todo.foldl (follow t depth path loc) st) := by
  induction depth generalizing path todo loc st with
  | zero =>
    have few := (List.subperm_of_subset distinct known).length_le
    omega
  | succ depth ih =>
    induction todo generalizing st with
    | nil => exact .done path loc st
    | cons p todo ihTodo =>
      obtain ⟨mem, later⟩ := List.cons_subset.1 later
      rw [List.foldl_cons]
      by_cases on : p.path ∈ path.map (·.path)
      · have reports : follow t (depth + 1) path loc st p =
            { st with findings := st.findings ++ [cycleReport path p loc] } :=
          if_pos (any_path_eq_true_iff.2 on)
        rw [reports]
        exact .close on (ihTodo later _)
      · have passes : follow t (depth + 1) path loc st p =
            if p.path ∈ st.finished then st else searchFrom t (depth + 1) path p st :=
          if_neg (mt any_path_eq_true_iff.1 on)
        rw [passes]
        by_cases old : p.path ∈ st.finished
        · rw [if_pos old]
          exact .skip on old (ihTodo later _)
        · rw [if_neg old, searchFrom_succ]
          have off : p ∉ path := fun mem => on (List.mem_map_of_mem mem)
          refine .enter on old (ih ?_ ?_ ?_ (fun _ edge => mem_interfaces_of_mem_parents edge) _ _)
            (ihTodo later _)
          · exact List.append_subset.2 ⟨known, by simpa using mem⟩
          · exact List.concat_eq_append ▸ distinct.concat off
          · rw [List.length_append, List.length_singleton]
            omega

/-- The search through all interfaces of a table comes to its end. -/
theorem searches_interfaceCycles (t : SymbolTable) :
    ∃ st, Searches t [] none t.interfaces ⟨[], []⟩ st ∧ st.findings = interfaceCycles t :=
  ⟨_, searches_foldl_follow (List.nil_subset _) .nil (Nat.lt_succ_self _) (List.Subset.refl _) none
    ⟨[], []⟩, (interfaceCycles_eq t).symm⟩

/-! ## Reports close a path -/

/-- The finding tells a path of different interfaces, each extending the next one and the last one
the first, at the place of the last one. -/
def ClosesCycle (t : SymbolTable) (d : Diagnostic) : Prop :=
  ∃ (p : Entry InterfaceDecl) (path : List (Entry InterfaceDecl)) (last : Entry InterfaceDecl),
    (∀ i ∈ p :: path, i ∈ t.interfaces) ∧ (p :: path).Nodup ∧
    List.IsChain t.Extends (p :: path ++ [p]) ∧ (p :: path).getLast? = some last ∧
    d = .errorAt .cyclicInheritance
      ("interface extension is cyclic: " ++
        " -> ".intercalate ((p :: path ++ [p]).map Entry.name)) last.decl.loc

/-- Different interfaces are on the path, each extending the next one, and reports are placed at the
last one. -/
structure OnPath (t : SymbolTable) (path : List (Entry InterfaceDecl)) (loc : Option Location) :
    Prop where
  known : path ⊆ t.interfaces
  distinct : path.Nodup
  chain : List.IsChain t.Extends path
  placed : ∀ last ∈ path.getLast?, loc = last.decl.loc

namespace OnPath

variable (h : OnPath t path loc)

include h

theorem enter (mem : p ∈ t.interfaces) (off : p.path ∉ path.map (·.path))
    (step : List.IsChain t.Extends (path ++ [p])) : OnPath t (path ++ [p]) p.decl.loc where
  known := List.append_subset.2 ⟨h.known, by simpa using mem⟩
  distinct := List.concat_eq_append ▸ h.distinct.concat fun on => off (List.mem_map_of_mem on)
  chain := step
  placed last mem := by
    rw [List.getLast?_concat] at mem
    rw [Option.some.inj mem]

/-- An interface that is met again on the path closes it. -/
theorem closesCycle (placed : t.Placed) (mem : p ∈ t.interfaces)
    (on : p.path ∈ path.map (·.path)) (step : List.IsChain t.Extends (path ++ [p])) :
    ClosesCycle t (cycleReport path p loc) := by
  have same (i : Entry InterfaceDecl) (on : i ∈ path) (eq : i.path = p.path) : i = p :=
    placed i (h.known on) p mem eq
  obtain ⟨i, here, eq⟩ := List.mem_map.1 on
  obtain ⟨front, back, split⟩ := List.append_of_mem (same i here eq ▸ here)
  have last : path.getLast? = (p :: back).getLast? := by
    rw [split, List.getLast?_append_cons]
  obtain ⟨bottom, bottomLast⟩ := Option.isSome_iff_exists.1
    (List.getLast?_isSome.2 (List.cons_ne_nil p back))
  have distinct := split ▸ h.distinct
  -- Nothing in front of the interface is at its place, so that the names are taken from there on.
  have names : cycleNames path p = (p :: back ++ [p]).map Entry.name := by
    have before : ∀ i ∈ front, decide (i.path ≠ p.path) = true := fun i mem' =>
      decide_eq_true fun eq => by
        have on : i ∈ path := split ▸ List.mem_append_left _ mem'
        exact (List.nodup_append.1 distinct).2.2 i mem' p List.mem_cons_self (same i on eq)
    rw [cycleNames, split, List.dropWhile_append_of_pos before,
      List.dropWhile_cons_of_neg (by simp), List.map_append, List.map_singleton]
  refine ⟨p, back, bottom, fun i mem' => h.known (split ▸ List.mem_append_right _ mem'),
    (List.nodup_append.1 distinct).2.1, ?_, bottomLast, ?_⟩
  · rw [split, List.append_assoc] at step
    exact step.right_of_append
  · rw [cycleReport, names, h.placed bottom (last.trans bottomLast)]

end OnPath

/-- What is found on the way are paths that close. -/
theorem Searches.closesCycle (placed : t.Placed) (h : Searches t path loc todo st st')
    (onPath : OnPath t path loc) (later : todo ⊆ t.interfaces)
    (steps : ∀ p ∈ todo, List.IsChain t.Extends (path ++ [p]))
    (before : ∀ d ∈ st.findings, ClosesCycle t d) : ∀ d ∈ st'.findings, ClosesCycle t d := by
  induction h with
  | done => exact before
  | close on _ ih =>
    obtain ⟨mem, later⟩ := List.cons_subset.1 later
    obtain ⟨step, steps⟩ := List.forall_mem_cons.1 steps
    refine ih onPath later steps (List.forall_mem_append.2 ⟨before, ?_⟩)
    exact List.forall_mem_singleton.2 (onPath.closesCycle placed mem on step)
  | skip off _ _ ih =>
    exact ih onPath (List.cons_subset.1 later).2 (List.forall_mem_cons.1 steps).2 before
  | @enter path todo p loc st st' st'' off new _ _ ihBelow ih =>
    obtain ⟨mem, later⟩ := List.cons_subset.1 later
    obtain ⟨step, steps⟩ := List.forall_mem_cons.1 steps
    refine ih onPath later steps (ihBelow (onPath.enter mem off step)
      (fun _ edge => mem_interfaces_of_mem_parents edge) (fun q edge => ?_) before)
    rw [List.append_assoc]
    exact List.isChain_append_cons_cons.2 ⟨step, edge, List.isChain_singleton q⟩

theorem closesCycle_interfaceCycles (placed : t.Placed) :
    ∀ d ∈ interfaceCycles t, ClosesCycle t d := by
  obtain ⟨st, searches, findings⟩ := searches_interfaceCycles t
  rw [← findings]
  refine searches.closesCycle placed ⟨List.nil_subset _, .nil, .nil, by simp⟩ (List.Subset.refl _)
    (fun p _ => List.isChain_singleton p) (by simp)

theorem ClosesCycle.kind_eq {d : Diagnostic} (h : ClosesCycle t d) :
    d.kind = .cyclicInheritance := by
  obtain ⟨p, path, last, -, -, -, -, rfl⟩ := h
  rfl

theorem ClosesCycle.isError {d : Diagnostic} (h : ClosesCycle t d) : d.isError = true := by
  obtain ⟨p, path, last, -, -, -, -, rfl⟩ := h
  rfl

/-- The search reports nothing at all exactly where no interface leads back to itself. -/
theorem interfaceCycles_eq_nil_iff (placed : t.Placed) :
    interfaceCycles t = [] ↔ t.ExtensionAcyclic := by
  rw [← interfaceCycles_clean_iff placed, Diagnostics.hasErrors, List.any_eq_false]
  constructor
  · intro none d mem
    cases none ▸ mem
  · intro clean
    refine List.eq_nil_iff_forall_not_mem.2 fun d mem => clean d mem ?_
    exact (closesCycle_interfaceCycles placed d mem).isError

end Check

namespace Model

open SymbolTable

/-- The search for cycles of interface extension comes to its end, in one way only.  It reports a
cycle exactly where an interface leads back to itself, and each report tells a way that does.  Where
there is none it reports nothing, also if interfaces are extended along several ways. -/
theorem interfaceCycles_exact (m : Model) :
    let t := SymbolTable.ofModel m
    (∃ st, Check.Searches t [] none t.interfaces ⟨[], []⟩ st ∧
      (∀ st', Check.Searches t [] none t.interfaces ⟨[], []⟩ st' → st' = st) ∧
      Check.interfaceCycles t = st.findings) ∧
    ((∃ d ∈ Check.interfaceCycles t, d.kind = .cyclicInheritance) ↔
      ∃ i ∈ t.interfaces, Relation.TransGen t.Extends i i) ∧
    (∀ d ∈ Check.interfaceCycles t, Check.ClosesCycle t d) ∧
    (t.ExtensionAcyclic → Check.interfaceCycles t = []) := by
  intro t
  have placed : t.Placed := placed_ofModel m
  have reports := Check.closesCycle_interfaceCycles placed
  have silent := Check.interfaceCycles_eq_nil_iff placed
  obtain ⟨st, searches, findings⟩ := Check.searches_interfaceCycles t
  refine ⟨⟨st, searches, fun st' h => h.unique searches, findings.symm⟩, ?_, reports, silent.2⟩
  have cyclic : (∃ i ∈ t.interfaces, Relation.TransGen t.Extends i i) ↔ ¬ t.ExtensionAcyclic := by
    simp [ExtensionAcyclic]
  rw [cyclic, ← silent]
  constructor
  · rintro ⟨d, mem, -⟩ none
    cases none ▸ mem
  · intro some
    obtain ⟨d, mem⟩ := List.exists_mem_of_ne_nil _ some
    exact ⟨d, mem, (reports d mem).kind_eq⟩

/-- Interfaces of which one extends another twice, two cycles share a part, and one extends
itself. -/
def tangledModel : Model :=
  let i (name : String) (parents : List String) : Decl := .interface ⟨name, parents, [], none⟩
  ⟨[⟨none, [⟨"M", [i "A" ["B", "B"], i "B" ["C", "D"], i "C" ["D"], i "D" ["B"], i "E" ["M.E"]],
    none⟩]⟩]⟩

/-- Two interfaces that extend the same one and are extended by another one. -/
def diamondModel : Model :=
  let i (name : String) (parents : List String) : Decl := .interface ⟨name, parents, [], none⟩
  ⟨[⟨none, [⟨"M", [i "Base" [], i "Left" ["Base"], i "Right" ["Base"], i "Top" ["Left", "Right"]],
    none⟩]⟩]⟩

theorem interfaceCycles_exact_tangledModel :
    ((Check.interfaceCycles (.ofModel tangledModel)).map (·.message) =
        ["interface extension is cyclic: B -> C -> D -> B",
          "interface extension is cyclic: E -> E"] ∧
      (∃ i ∈ (SymbolTable.ofModel tangledModel).interfaces,
        Relation.TransGen (SymbolTable.ofModel tangledModel).Extends i i)) ∧
    (SymbolTable.ofModel diamondModel).ExtensionAcyclic ∧
      Check.interfaceCycles (.ofModel diamondModel) = [] := by
  have ranked : ∀ i ∈ (SymbolTable.ofModel diamondModel).interfaces,
      ∀ j ∈ (SymbolTable.ofModel diamondModel).parents i,
        ["Base", "Left", "Right", "Top"].idxOf j.name <
          ["Base", "Left", "Right", "Top"].idxOf i.name := by
    decide +kernel
  have acyclic : (SymbolTable.ofModel diamondModel).ExtensionAcyclic := fun i mem =>
    not_transGen_of_rank (fun _ _ _ edge => mem_interfaces_of_mem_parents edge) ranked mem
  obtain ⟨-, reported, -, -⟩ := interfaceCycles_exact tangledModel
  obtain ⟨-, -, -, silent⟩ := interfaceCycles_exact diamondModel
  exact ⟨⟨by decide +kernel, reported.1 (by decide +kernel)⟩, acyclic, silent acyclic⟩

end Model

end DeltaLang
