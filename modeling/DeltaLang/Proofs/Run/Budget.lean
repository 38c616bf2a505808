import DeltaLang.Proofs.Run.Dispatched
import DeltaLang.Proofs.Run.Following

/-!
# More budget

With more steps left, a run takes the same steps, as long as it does not stop because there are
none.  So the outcomes of operations, the objects and the number of steps taken are the same for all
budgets that are enough.
-/

namespace DeltaLang

/-! ## The same program with more steps left -/

/-- Whether the run stops because all steps of the budget are taken. -/
def Stop.isOutOfFuel : Stop → Bool
  | fault (.outOfFuel _) => true
  | _ => false

/-- The second run is of the same program, with so many more steps left. -/
def Pairing.more (extra : Nat) : Pairing where
  lost e := e.isOutOfFuel = true
  fuel n k := k = n + extra
  cls := id
  method := Eq
  lost_outOfFuel _ := rfl
  fuel_le h := by omega
  fuel_tick h := by omega
  module_cls _ := rfl
  name_cls _ := rfl
  params_cls _ := rfl
  fields_cls _ := rfl
  init_cls _ := rfl
  method?_cls c name := rel_self (fun _ => rfl) (c.decl.method? name)
  method_refl _ := rfl

namespace Pairing

variable {extra : Nat} {t : SymbolTable}

theorem tables_more (t : SymbolTable) : (more extra).Tables t t := fun frm name => by
  cases t.classNamed frm name <;> rfl

theorem stores_more_iff {s s' : Store} :
    (more extra).Stores s s' ↔ s'.heap = s.heap ∧ s'.fuel = s.fuel + extra := by
  have same : s.heap.map (more extra).renamed = s.heap := Array.map_id' s.heap
  exact ⟨fun h => ⟨h.heap.trans same, h.fuel⟩, fun h => ⟨h.1.trans same.symm, h.2⟩⟩

/-- Activations follow themselves, however deep they are nested. -/
theorem followsAll_more (budget budget' depth : Nat) :
    (more extra).FollowsAll (activate t budget depth) (activate t budget' depth) := by
  -- what is activated within has one level less
  induction depth with
  | zero => exact fun _ _ _ _ => follows_throw .tooDeep
  | succ depth ih =>
    rintro bound a a' (⟨this, module, rfl, args⟩ | ⟨c, args⟩)
    · exact follows_runMethod (tables_more t) ih this module _ args
    · exact follows_createObject (tables_more t) ih c args

end Pairing

/-! ## Sessions -/

namespace Session

/-- Operations change nothing but the store. -/
theorem performAll_eq (s : Session) (ops : List Operation) :
    (s.performAll ops).2 = { s with store := (s.performAll ops).2.store } := by
  induction ops generalizing s with
  | nil => rfl
  | cons op ops ih => exact ih (s.perform op).2

theorem steps_performAll (s : Session) (ops : List Operation) :
    (s.performAll ops).2.steps = s.budget - (s.performAll ops).2.store.fuel := by
  rw [steps, performAll_eq]

/-- Operations none of which stops because the budget is exhausted have the same outcomes with any
larger budget, leave the same objects and take the same number of steps. -/
theorem performAll_start_of_le {m : Model} {budget budget' depth : Nat} {ops : List Operation}
    (more : budget ≤ budget')
    (enough : ∀ n,
      .error (.fault (.outOfFuel n)) ∉ ((start m budget depth).performAll ops).1) :
    ((start m budget' depth).performAll ops).1 = ((start m budget depth).performAll ops).1 ∧
      ((start m budget' depth).performAll ops).2.store.heap =
        ((start m budget depth).performAll ops).2.store.heap ∧
      ((start m budget' depth).performAll ops).2.steps =
        ((start m budget depth).performAll ops).2.steps := by
  obtain ⟨extra, rfl⟩ := Nat.exists_eq_add_of_le more
  have paired : (start m budget depth).Paired (.more extra) (start m (budget + extra) depth) :=
    ⟨Pairing.tables_more _, Pairing.followsAll_more _ _ _, Pairing.stores_more_iff.2 ⟨rfl, rfl⟩⟩
  have kept : ∀ e, .error e ∈ ((start m budget depth).performAll ops).1 →
      e.isOutOfFuel ≠ true := by
    rintro e mem out
    cases e with
    | fault flt => cases flt <;> first | exact enough _ mem | cases out
    | _ => cases out
  obtain ⟨same, -, -, stores⟩ := paired.performAll ops kept
  obtain ⟨heap, left⟩ := Pairing.stores_more_iff.1 stores
  refine ⟨same, heap, ?_⟩
  rw [steps_performAll, steps_performAll, left]
  exact Nat.add_sub_add_right budget extra _

end Session

/-- A method that counts down in a loop, and one that calls a method of `null`. -/
def countdownModel : Model := .ofDecls [("M",
  [.classOf "Main" [] [] [
    .ofVersion ⟨.of "Int" "run" [("Int", "n")],
      [.loop (.binary .gt (.var "n" none) (.int 0 none) none)
        [.assign (.var "n") (.binary .sub (.var "n" none) (.int 1 none) none) none] none,
        .ret (.var "n" none) none]⟩,
    .ofVersion ⟨.of "Int" "fail" [], [.ret (.send (.null none) "run" []) none]⟩]])]

/-- The steps of the budget are taken by the last operation. -/
theorem Session.performAll_start_of_le_countdownModel :
    let ops := [.instantiate "Main" [], .call 0 "fail" [], .call 0 "run" [.int 2]]
    ((start countdownModel 9 2).performAll ops).1 =
        [.ok (.object 0), .error (.fault (.nullReceiver "run")), .ok (.int 0)] ∧
      ((start countdownModel 9 2).performAll ops).2.steps = 9 ∧
      ((start countdownModel 1000 2).performAll ops).1 =
        ((start countdownModel 9 2).performAll ops).1 ∧
      ((start countdownModel 1000 2).performAll ops).2.store.heap =
        ((start countdownModel 9 2).performAll ops).2.store.heap ∧
      ((start countdownModel 1000 2).performAll ops).2.steps =
        ((start countdownModel 9 2).performAll ops).2.steps := by
  intro ops
  have results : ((start countdownModel 9 2).performAll ops).1 =
      [.ok (.object 0), .error (.fault (.nullReceiver "run")), .ok (.int 0)] := by decide +kernel
  refine ⟨results, by decide +kernel, performAll_start_of_le (by decide) fun n mem => ?_⟩
  rw [results] at mem
  simp at mem

end DeltaLang
