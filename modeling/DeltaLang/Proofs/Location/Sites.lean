import DeltaLang.Location.Flow
import Mathlib.Logic.Function.Iterate

/-!
# Forgetting creation sites

A location type is coarse if it names no creation site.  Forgetting sites commutes with all that
solving does: with joining, with adapting to a receiver, and with widening, after which it makes no
difference at which rank a type is stored and with which precision.  So the solution of a system of
flows, with its sites forgotten, is that of the system that has its sites forgotten from the start.
-/

namespace DeltaLang

namespace LocationType

/-- The type with its site forgotten. -/
def coarse : LocationType → LocationType
  | farOf _ => far
  | t => t

/-- The type names no site. -/
def IsCoarse (t : LocationType) : Prop := t.coarse = t

theorem isCoarse_of_isUserType {t : LocationType} (user : t.isUserType = true) : t.IsCoarse := by
  cases t <;> first | rfl | cases user

/-- What users write names no site. -/
theorem isCoarse_of_parse {s : String} {t : LocationType} (h : parse s = .ok t) :
    t.IsCoarse := by
  rw [parse] at h
  split at h
  · rename_i t' found
    obtain rfl := Except.ok.inj h
    have mem := List.mem_of_find?_eq_some found
    simp only [List.mem_cons, List.not_mem_nil, or_false] at mem
    rcases mem with rfl | rfl | rfl | rfl <;> rfl
  · cases h

/-! ## The operations on types -/

/-- A coarse type admits the same types once their sites are forgotten. -/
theorem isSubtypeOf_coarse (a : LocationType) {b : LocationType} (h : b.IsCoarse) :
    a.coarse.isSubtypeOf b = a.isSubtypeOf b := by
  cases b with
  | farOf site => cases h
  | _ => cases a <;> rfl

theorem coarse_join (a b : LocationType) : (a.join b).coarse = a.coarse.join b.coarse := by
  cases a with
  | farOf site =>
    cases b with
    | farOf site' =>
      by_cases same : site = site'
      · subst same
        simp [join, isSubtypeOf]
      · simp [join, isSubtypeOf, isFar, same, Ne.symm same, coarse]
    | _ => rfl
  | _ => cases b <;> rfl

theorem coarse_adapt (a b : LocationType) : (a.adapt b).coarse = a.coarse.adapt b.coarse := by
  cases a <;> cases b <;> rfl

theorem coarse_widen (rank : Nat) (p : Precision) (t : LocationType) :
    (t.widen rank p).coarse = t.coarse := by
  cases t with
  | farOf site =>
    rw [widen]
    split <;> rfl
  | _ => rfl

theorem widen_coarse (rank : Nat) (p : Precision) (t : LocationType) :
    t.coarse.widen rank p = t.coarse := by
  cases t <;> rfl

end LocationType

/-- Looking up what is changed is changing what is looked up. -/
theorem lookup_map_snd {κ α β : Type} [BEq κ] (f : α → β) (l : List (κ × α)) (k : κ) :
    (l.map (Prod.map id f)).lookup k = (l.lookup k).map f := by
  induction l with
  | nil => rfl
  | cons entry l ih =>
    obtain ⟨k', a⟩ := entry
    rw [List.map_cons, Prod.map, List.lookup_cons, List.lookup_cons, id]
    cases k == k' with
    | true => rfl
    | false => exact ih

/-! ## Terms and flows -/

namespace LocationTerm

/-- The term with all sites forgotten. -/
def coarse : LocationTerm → LocationTerm
  | const t => const t.coarse
  | var node => var node
  | adapt receiver declared => adapt receiver.coarse declared.coarse

end LocationTerm

/-- The flow with all sites forgotten. -/
def Flow.coarse (f : Flow) : Flow := { f with value := f.value.coarse }

namespace Valuation

/-- The valuation with all sites forgotten. -/
def coarse (values : Valuation) : Valuation := values.map fun (node, t) => (node, t.coarse)

theorem lookup_coarse (values : Valuation) (node : NodeRef) :
    List.lookup node values.coarse = (values.lookup node).map LocationType.coarse :=
  lookup_map_snd LocationType.coarse values node

theorem getD_lookup_coarse (values : Valuation) (node : NodeRef) :
    (List.lookup node values.coarse).getD .bottom =
      ((values.lookup node).getD .bottom).coarse := by
  rw [lookup_coarse]
  cases values.lookup node <;> rfl

theorem coarse_assign (values : Valuation) (node : NodeRef) (t : LocationType) :
    coarse (FlowSystem.assign values node t) = FlowSystem.assign values.coarse node t.coarse := by
  rw [coarse, coarse, FlowSystem.assign, FlowSystem.assign, List.map_map, List.map_map]
  refine List.map_congr_left fun ⟨n, old⟩ _ => ?_
  by_cases same : n = node <;> simp [same]

end Valuation

/-! ## Systems of flows -/

namespace FlowSystem

/-- The system with all sites forgotten. -/
def coarse (s : FlowSystem) : FlowSystem where
  options := { s.options with precision := .basic }
  decls := s.decls
  flows := s.flows.map Flow.coarse

/-- The default and all annotations are coarse. -/
structure Plain (s : FlowSystem) : Prop where
  default : s.options.default.IsCoarse
  fixed : ∀ decl ∈ s.decls, ∀ t ∈ decl.2.fixed, t.IsCoarse

variable {s : FlowSystem}

theorem Plain.fixed? (h : s.Plain) {node : NodeRef} {t : LocationType}
    (found : s.fixed? node = some t) : t.IsCoarse := by
  obtain ⟨d, known, fixed⟩ := Option.bind_eq_some_iff.1 found
  obtain ⟨front, back, split, -⟩ := List.lookup_eq_some_iff.1 known
  exact h.fixed (node, d) (by simp [split]) t fixed

theorem eval_coarse (h : s.Plain) (values : Valuation) (value : LocationTerm) :
    s.coarse.eval values.coarse value.coarse = (s.eval values value).coarse := by
  induction value with
  | const t => rfl
  | var node =>
    have fixed : s.coarse.fixed? node = s.fixed? node := rfl
    rw [LocationTerm.coarse, eval, eval, fixed]
    cases known : s.fixed? node with
    | some t => exact (h.fixed? known).symm
    | none => exact values.getD_lookup_coarse node
  | adapt receiver declared ih =>
    rw [LocationTerm.coarse, eval, eval, ih, LocationType.coarse_adapt]

theorem start_coarse (h : s.Plain) : s.coarse.start = Valuation.coarse s.start := by
  have targets (node : NodeRef) :
      (s.flows.map Flow.coarse).any (·.target == node) = s.flows.any (·.target == node) :=
    List.any_map
  rw [start, start, Valuation.coarse, List.map_map]
  refine List.map_congr_left fun ⟨node, d⟩ _ => ?_
  simp only [coarse, targets, Function.comp]
  split
  · rfl
  · rw [h.default]

/-- One flow has the same effect whether sites are forgotten before or after. -/
theorem flowOnce_coarse (h : s.Plain) (values : Valuation) (f : Flow) :
    s.coarse.flowOnce values.coarse f.coarse = Valuation.coarse (s.flowOnce values f) := by
  have declared : s.coarse.decls.lookup f.coarse.target = s.decls.lookup f.target := rfl
  have incoming : s.coarse.eval values.coarse f.coarse.value = (s.eval values f.value).coarse :=
    eval_coarse h values f.value
  have current := values.getD_lookup_coarse f.target
  rw [flowOnce, flowOnce, declared]
  rcases s.decls.lookup f.target with _ | ⟨_ | t, rank⟩
  · rfl
  · dsimp only
    rw [incoming, LocationType.widen_coarse, Valuation.coarse_assign, LocationType.coarse_join,
      LocationType.coarse_widen, ← current]
    rfl
  · rfl

theorem round_coarse (h : s.Plain) :
    Function.Semiconj Valuation.coarse s.round s.coarse.round := by
  intro values
  have flows : s.coarse.flows = s.flows.map Flow.coarse := rfl
  rw [round, round, flows, List.foldl_map]
  exact (List.foldl_hom Valuation.coarse (fun values f => flowOnce_coarse h values f)).symm

/-- Repeating rounds until one changes nothing is repeating them as often as is allowed. -/
theorem iterate_eq (s : FlowSystem) (n : Nat) (values : Valuation) :
    s.iterate n values = s.round^[n] values := by
  induction n generalizing values with
  | zero => rfl
  | succ n ih =>
    rw [iterate, Function.iterate_succ_apply]
    split
    · rename_i same
      rw [same, Function.iterate_fixed same]
    · exact ih _

/-- The solution with its sites forgotten is the solution of the system without sites. -/
theorem solve_coarse (h : s.Plain) : s.coarse.solve = Valuation.coarse s.solve := by
  rw [solve, solve, iterate_eq, iterate_eq, start_coarse h]
  exact ((round_coarse h).iterate_right s.rounds s.start).symm

end FlowSystem

end DeltaLang
