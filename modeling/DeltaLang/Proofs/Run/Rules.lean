import DeltaLang.Run.Session

/-!
# Rules for runs

`Run.Ensures P x Q E` says what a run does from every store with `P`: if it yields a value, `Q`
holds of the value and the store left behind, and if it stops, `E` holds of the reason and that
store.  There is one rule for each way that runs are built.
-/

namespace DeltaLang

namespace Run

/-- What a run yields, or why it stops, from every store with `P`. -/
def Ensures {α : Type} (P : Store → Prop) (x : Run α) (Q : α → Store → Prop)
    (E : Stop → Store → Prop) : Prop :=
  ∀ s, P s → (∀ v s', x.run s = (.ok v, s') → Q v s') ∧ ∀ e s', x.run s = (.error e, s') → E e s'

variable {α β : Type} {P P' : Store → Prop} {Q Q' : α → Store → Prop} {R : β → Store → Prop}
  {E E' : Stop → Store → Prop} {x : Run α} {f : α → Run β}

/-! ## Building runs -/

theorem Ensures.mono (h : Ensures P x Q E) (pre : ∀ s, P' s → P s)
    (post : ∀ v s, Q v s → Q' v s) : Ensures P' x Q' E := fun s hs =>
  ⟨fun v s' eq => post v s' ((h s (pre s hs)).1 v s' eq), (h s (pre s hs)).2⟩

/-- A fact that does not depend on the store may be assumed. -/
theorem Ensures.assuming {p : Prop} (h : p → Ensures P x Q E) :
    Ensures (fun s => P s ∧ p) x Q E := fun s hs => h hs.2 s hs.1

theorem ensures_pure {v : α} (h : ∀ s, P s → Q v s) : Ensures P (pure v) Q E := by
  intro s hs
  refine ⟨fun v' s' eq => ?_, fun e s' eq => ?_⟩ <;> cases eq
  exact h s hs

theorem ensures_throw {e : Stop} (h : ∀ s, P s → E e s) : Ensures P (throw e : Run α) Q E := by
  intro s hs
  refine ⟨fun v' s' eq => ?_, fun e s' eq => ?_⟩ <;> cases eq
  exact h s hs

theorem run_bind (s : Store) :
    (x >>= f).run s =
      match x.run s with
      | (.ok v, s') => (f v).run s'
      | (.error e, s') => (.error e, s') := by
  change (match x.run s with | (r, s') => (ExceptT.bindCont f r) s') = _
  rcases x.run s with ⟨_ | _, s'⟩ <;> rfl

theorem run_bind_of_error {s s' : Store} {e : Stop} (h : x.run s = (.error e, s')) :
    (x >>= f).run s = (.error e, s') := by
  rw [run_bind, h]

theorem Ensures.bind (h : Ensures P x Q E) (hf : ∀ v, Ensures (Q v) (f v) R E) :
    Ensures P (x >>= f) R E := by
  intro s hs
  rw [run_bind]
  obtain ⟨value, stop⟩ := h s hs
  rcases hx : x.run s with ⟨e | v, s'⟩
  · refine ⟨fun v' s'' eq => ?_, fun e' s'' eq => ?_⟩ <;> cases eq
    exact stop e s' hx
  · exact hf v s' (value v s' hx)

theorem ensures_fault {flt : Fault} (h : ∀ s, P s → E (.fault flt) s) :
    Ensures P (fault flt : Run α) Q E := ensures_throw h

theorem ensures_ofExcept {r : Except Fault α} (ok : ∀ v s, r = .ok v → P s → Q v s)
    (err : ∀ flt s, r = .error flt → P s → E (.fault flt) s) : Ensures P (ofExcept r) Q E := by
  cases r with
  | ok v => exact ensures_pure fun s => ok v s rfl
  | error flt => exact ensures_throw fun s => err flt s rfl

/-! ## Access to the store -/

theorem ensures_get {Q : Store → Store → Prop} (h : ∀ s, P s → Q s s) :
    Ensures P (get : Run Store) Q E := by
  intro s hs
  refine ⟨fun v' s' eq => ?_, fun e s' eq => ?_⟩ <;> cases eq
  exact h s hs

theorem ensures_modify {g : Store → Store} {Q : PUnit → Store → Prop}
    (h : ∀ s, P s → Q ⟨⟩ (g s)) : Ensures P (modify g : Run PUnit) Q E := by
  intro s hs
  refine ⟨fun v' s' eq => ?_, fun e s' eq => ?_⟩ <;> cases eq
  exact h s hs

theorem ensures_tick {budget : Nat} {Q : Unit → Store → Prop}
    (step : ∀ s n, s.fuel = n + 1 → P s → Q () { s with fuel := n })
    (out : ∀ s, s.fuel = 0 → P s → E (.fault (.outOfFuel budget)) s) :
    Ensures P (tick budget) Q E := by
  refine (ensures_get (Q := fun v s => v = s ∧ P s) fun s hs => ⟨rfl, hs⟩).bind fun v => ?_
  cases fuel : v.fuel with
  | zero => exact ensures_fault fun s ⟨eq, hs⟩ => out s (eq ▸ fuel) hs
  | succ n => exact ensures_modify fun s ⟨eq, hs⟩ => step s n (eq ▸ fuel) hs

theorem ensures_object {id : Nat} {Q : Object → Store → Prop}
    (found : ∀ s o, s.heap[id]? = some o → P s → Q o s)
    (missing : ∀ s, s.heap[id]? = none → P s → E (.dangling id) s) :
    Ensures P (object id) Q E := by
  refine (ensures_get (Q := fun v s => v = s ∧ P s) fun s hs => ⟨rfl, hs⟩).bind fun v => ?_
  cases o : v.heap[id]? with
  | some o => exact ensures_pure fun s ⟨eq, hs⟩ => found s _ (eq ▸ ‹_›) hs
  | none => exact ensures_throw fun s ⟨eq, hs⟩ => missing s (eq ▸ ‹_›) hs

theorem ensures_allocate {o : Object} {Q : Nat → Store → Prop}
    (h : ∀ s, P s → Q s.heap.size { s with heap := s.heap.push o }) :
    Ensures P (allocate o) Q E := by
  intro s hs
  refine ⟨fun v' s' eq => ?_, fun e s' eq => ?_⟩ <;> cases eq
  exact h s hs

/-- Writing a field changes the fields of one object, which has a field of that name. -/
theorem ensures_setField {id : Nat} {name : String} {v : Value} {otherwise : Object → Fault}
    {Q : Unit → Store → Prop}
    (set : ∀ s o old, s.heap[id]? = some o → o.field? name = some old → P s →
      Q () { s with heap := s.heap.modify id fun o =>
        { o with fields := assignName name v o.fields } })
    (missing : ∀ s, s.heap[id]? = none → P s → E (.dangling id) s)
    (unknown : ∀ s o, s.heap[id]? = some o → o.field? name = none → P s →
      E (.fault (otherwise o)) s) :
    Ensures P (setField id name v otherwise) Q E := by
  refine (ensures_object (Q := fun o s => s.heap[id]? = some o ∧ P s)
    (fun s o found hs => ⟨found, hs⟩) missing).bind fun o => ?_
  cases old : o.field? name with
  | some w => exact ensures_modify fun s ⟨found, hs⟩ => set s o w found old hs
  | none => exact ensures_fault fun s ⟨found, hs⟩ => unknown s o found old hs

end Run

end DeltaLang
