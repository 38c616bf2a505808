import DeltaLang.Proofs.Run.Bindings
import DeltaLang.Proofs.Run.Rules

/-!
# Runs side by side

Two runs of a program start from stores that correspond: the second has the same objects, maybe of
changed classes, and its budget is related to that of the first.  The second run follows the first
if it yields the same or stops for the same reason, in a store that corresponds again, unless the
first stops for a reason that is set apart, such as an exhausted budget.  There is one rule for each
way that runs are built.

The steps left to the first run are bounded throughout.  The bound falls with every step, so that
loops of both runs have rounds enough.
-/

namespace DeltaLang

/-! ## Frames -/

/-- Every variable has the same value in both scopes. -/
def Scope.Alike (vs vs' : Scope) : Prop := ∀ name, vs'.lookup name = vs.lookup name

/-- The frames are of one activation, and every variable has the same value in both. -/
structure Frame.Alike (fr fr' : Frame) : Prop where
  this : fr'.this = fr.this
  module : fr'.module = fr.module
  method : fr'.method = fr.method
  scopes : List.Forall₂ Scope.Alike fr.scopes fr'.scopes

namespace Scope.Alike

variable {vs vs' : Scope} {name : String} {v : Value}

theorem refl (vs : Scope) : vs.Alike vs := fun _ => rfl

theorem cons (h : vs.Alike vs') (name : String) (v : Value) :
    Scope.Alike ((name, v) :: vs) ((name, v) :: vs') := fun n => by
  rw [List.lookup_cons, List.lookup_cons, h n]

theorem assignName (h : vs.Alike vs') (name : String) (v : Value) :
    Scope.Alike (DeltaLang.assignName name v vs) (DeltaLang.assignName name v vs') := fun n => by
  rw [Matches.lookup_assignName, Matches.lookup_assignName, h n]

theorem flatten {scopes scopes' : List Scope} (h : List.Forall₂ Scope.Alike scopes scopes') :
    Scope.Alike scopes.flatten scopes'.flatten := fun name => by
  induction h with
  | nil => rfl
  | cons first _ ih =>
    rw [List.flatten_cons, List.flatten_cons, List.lookup_append, List.lookup_append, first name,
      ih]

theorem assignIn {scopes scopes' : List Scope} (h : List.Forall₂ Scope.Alike scopes scopes')
    (name : String) (v : Value) :
    Option.Rel (List.Forall₂ Scope.Alike) (Frame.assignIn name v scopes)
      (Frame.assignIn name v scopes') := by
  induction h with
  | nil => exact .none
  | @cons vs vs' outer outer' first rest ih =>
    rw [Frame.assignIn, Frame.assignIn, first name]
    split
    · exact .some (.cons (first.assignName name v) rest)
    · generalize Frame.assignIn name v outer = a, Frame.assignIn name v outer' = a' at ih
      cases ih with
      | none => exact .none
      | some assigned => exact .some (.cons first assigned)

end Scope.Alike

namespace Frame.Alike

variable {fr fr' : Frame}

theorem refl (fr : Frame) : fr.Alike fr :=
  ⟨rfl, rfl, rfl, List.forall₂_same.2 fun vs _ => .refl vs⟩

theorem lookup (h : fr.Alike fr') (name : String) : fr'.lookup name = fr.lookup name :=
  Scope.Alike.flatten h.scopes name

theorem original (h : fr.Alike fr') (args : List Value) : fr'.original args = fr.original args := by
  rw [Frame.original, Frame.original, h.method, h.this, h.module]

theorem enter (h : fr.Alike fr') : fr.enter.Alike fr'.enter :=
  { h with scopes := .cons (.refl []) h.scopes }

theorem leave (h : fr.Alike fr') : fr.leave.Alike fr'.leave := by
  refine { h with scopes := ?_ }
  have scopes := h.scopes
  rw [Frame.leave, Frame.leave]
  generalize fr.scopes = outer, fr'.scopes = outer' at scopes
  cases scopes with
  | nil => exact .nil
  | cons _ rest => exact rest

theorem bind (h : fr.Alike fr') (name : String) (v : Value) :
    (fr.bind name v).Alike (fr'.bind name v) := by
  refine { h with scopes := ?_ }
  have scopes := h.scopes
  rw [Frame.bind, Frame.bind]
  generalize fr.scopes = outer, fr'.scopes = outer' at scopes
  cases scopes with
  | nil => exact .nil
  | cons first rest => exact .cons (first.cons name v) rest

theorem assign? (h : fr.Alike fr') (name : String) (v : Value) :
    Option.Rel Frame.Alike (fr.assign? name v) (fr'.assign? name v) := by
  have assigned := Scope.Alike.assignIn h.scopes name v
  rw [Frame.assign?, Frame.assign?]
  generalize Frame.assignIn name v fr.scopes = a, Frame.assignIn name v fr'.scopes = a' at assigned
  cases assigned with
  | none => exact .none
  | some scopes => exact .some { h with scopes := scopes }

end Frame.Alike

/-! ## What corresponds -/

/-- How the second of two runs is related to the first. -/
structure Pairing where
  /-- The first run stops for a reason that the second need not stop for. -/
  lost : Stop → Prop
  /-- The steps left to either. -/
  fuel : Nat → Nat → Prop
  /-- The class that takes the place of a class. -/
  cls : Entry ClassDecl → Entry ClassDecl
  /-- The methods that are called for methods. -/
  method : Method → Method → Prop
  lost_outOfFuel : ∀ budget, lost (.fault (.outOfFuel budget))
  fuel_le : ∀ {n k}, fuel n k → n ≤ k
  fuel_tick : ∀ {n k}, fuel (n + 1) (k + 1) → fuel n k
  module_cls : ∀ c, (cls c).module = c.module
  name_cls : ∀ c, (cls c).name = c.name
  params_cls : ∀ c, (cls c).decl.params = c.decl.params
  fields_cls : ∀ c, (cls c).decl.fields = c.decl.fields
  init_cls : ∀ c, (cls c).decl.init = c.decl.init
  method?_cls : ∀ c name,
    Option.Rel method (c.decl.method? name) ((cls c).decl.method? name)
  method_refl : ∀ m, method m m

namespace Pairing

variable (p : Pairing)

/-- The object that takes the place of an object. -/
def renamed (o : Object) : Object := { o with cls := p.cls o.cls }

structure Stores (s s' : Store) : Prop where
  heap : s'.heap = s.heap.map p.renamed
  fuel : p.fuel s.fuel s'.fuel

/-- The activations that take the place of activations. -/
inductive Activations : Activation → Activation → Prop
  | method (this : Nat) (module : String) {m m' : Method} (h : p.method m m') (args : List Value) :
    Activations (.method this module m args) (.method this module m' args)
  | creation (c : Entry ClassDecl) (args : List Value) :
    Activations (.creation c args) (.creation (p.cls c) args)

/-- The same names mean classes in both programs, and the one class takes the place of the other. -/
def Tables (t t' : SymbolTable) : Prop :=
  ∀ frm name, t'.classNamed frm name = (t.classNamed frm name).map p.cls

/-- From stores that correspond, with a bound on the steps left to the first run, the second run
follows the first. -/
def Follows {α β : Type} (bound : Nat) (x : Run α) (y : Run β) (Q : α → β → Prop) : Prop :=
  ∀ s', Run.Ensures (fun s => p.Stores s s' ∧ s.fuel ≤ bound) x
    (fun v s => s.fuel ≤ bound ∧ ∃ v' s'', y.run s' = (.ok v', s'') ∧ p.Stores s s'' ∧ Q v v')
    (fun e s => p.lost e ∨ ∃ s'', y.run s' = (.error e, s'') ∧ p.Stores s s'')

/-- Activations follow those that they take the place of. -/
def FollowsAll (activate activate' : Activation → Run Value) : Prop :=
  ∀ bound a a', p.Activations a a' → p.Follows bound (activate a) (activate' a') fun v v' => v' = v

end Pairing

/-! ## Building runs -/

namespace Run

variable {budget : Nat} {s : Store}

theorem run_tick_zero (h : s.fuel = 0) :
    (tick budget).run s = (.error (.fault (.outOfFuel budget)), s) := by
  obtain ⟨heap, fuel⟩ := s
  cases h
  rfl

theorem run_tick_succ {n : Nat} (h : s.fuel = n + 1) :
    (tick budget).run s = (.ok (), { s with fuel := n }) := by
  obtain ⟨heap, fuel⟩ := s
  cases h
  rfl

end Run

namespace Pairing

open Run

variable {p : Pairing} {α β γ δ : Type} {bound : Nat} {x : Run α} {y : Run β}
  {Q : α → β → Prop} {R : γ → δ → Prop}

theorem Follows.bind {f : α → Run γ} {g : β → Run δ} (h : p.Follows bound x y Q)
    (hf : ∀ v v', Q v v' → p.Follows bound (f v) (g v') R) :
    p.Follows bound (x >>= f) (y >>= g) R := by
  intro s' s hs
  obtain ⟨value, stop⟩ := h s' s hs
  rw [run_bind]
  rcases hx : x.run s with ⟨e | v, s₁⟩
  · refine ⟨fun v' s'' eq => ?_, fun e' s'' eq => ?_⟩ <;> cases eq
    rcases stop e s₁ hx with lost | ⟨s'', run, stores⟩
    · exact .inl lost
    · exact .inr ⟨s'', by rw [run_bind, run], stores⟩
  · obtain ⟨left, v', s'', run, stores, result⟩ := value v s₁ hx
    rw [run_bind, run]
    exact hf v v' result s'' s₁ ⟨stores, left⟩

/-- The case of results that are determined by those of the first run. -/
theorem Follows.bind_eq {k : α → β} {f : α → Run γ} {g : β → Run δ}
    (h : p.Follows bound x y fun v v' => v' = k v)
    (hf : ∀ v, p.Follows bound (f v) (g (k v)) R) :
    p.Follows bound (x >>= f) (y >>= g) R :=
  h.bind fun v _ eq => eq ▸ hf v

theorem follows_pure {v : α} {v' : β} (h : Q v v') : p.Follows bound (pure v) (pure v') Q :=
  fun s' => ensures_pure fun _ ⟨stores, left⟩ => ⟨left, v', s', rfl, stores, h⟩

theorem follows_lost {e : Stop} (lost : p.lost e) : p.Follows bound (throw e : Run α) y Q :=
  fun _ => ensures_throw fun _ _ => .inl lost

theorem follows_throw (e : Stop) : p.Follows bound (throw e : Run α) (throw e : Run β) Q :=
  fun s' => ensures_throw fun _ ⟨stores, _⟩ => .inr ⟨s', rfl, stores⟩

theorem follows_fault (flt : Fault) : p.Follows bound (fault flt : Run α) (fault flt : Run β) Q :=
  follows_throw _

theorem follows_ofExcept {r : Except Fault α} {g : α → β} (h : ∀ v, r = .ok v → Q v (g v)) :
    p.Follows bound (ofExcept r) (ofExcept (r.map g)) Q := by
  cases r with
  | ok v => exact follows_pure (h v rfl)
  | error flt => exact follows_throw _

theorem follows_same (r : Except Fault α) :
    p.Follows bound (ofExcept r) (ofExcept r) fun v v' => v' = v := by
  cases r with
  | ok v => exact follows_pure rfl
  | error flt => exact follows_throw _

/-! ## Access to the store -/

/-- A run that reads the store may take the steps left for the bound. -/
theorem follows_get {f : Store → Run α} {g : Store → Run β}
    (h : ∀ s s', p.Stores s s' → p.Follows s.fuel (f s) (g s') Q) :
    p.Follows bound ((get : Run Store) >>= f) ((get : Run Store) >>= g) Q := by
  intro s' s ⟨stores, left⟩
  obtain ⟨value, stop⟩ := h s s' stores s' s ⟨stores, Nat.le_refl _⟩
  exact ⟨fun v s₁ run => (value v s₁ run).imp_left fun less => less.trans left, stop⟩

theorem follows_modify {g g' : Store → Store} (fuel : ∀ s, (g s).fuel = s.fuel)
    (h : ∀ s s', p.Stores s s' → p.Stores (g s) (g' s')) :
    p.Follows bound (modify g : Run PUnit) (modify g' : Run PUnit) fun _ _ => True :=
  fun s' => ensures_modify fun s ⟨stores, left⟩ =>
    ⟨(fuel s).trans_le left, ⟨⟩, g' s', rfl, h s s' stores, trivial⟩

/-- A step of the first run, for which the second run takes some; the bound is lower then. -/
theorem follows_tick_of_run {budget : Nat} {y' : Run β} (h : ∀ n < bound, p.Follows n x y Q)
    (steps : ∀ s' n, p.fuel (n + 1) s'.fuel →
      ∃ k, p.fuel n k ∧ y'.run s' = y.run { s' with fuel := k }) :
    p.Follows bound (tick budget >>= fun _ => x) y' Q := by
  intro s' s ⟨stores, left⟩
  rw [run_bind]
  cases fuel : s.fuel with
  | zero =>
    rw [run_tick_zero fuel]
    refine ⟨fun v s₁ eq => ?_, fun e s₁ eq => ?_⟩ <;> cases eq
    exact .inl (p.lost_outOfFuel budget)
  | succ n =>
    obtain ⟨k, paid, run⟩ := steps s' n (fuel ▸ stores.fuel)
    rw [run_tick_succ fuel, run]
    obtain ⟨value, stop⟩ := h n (by omega) { s' with fuel := k } { s with fuel := n }
      ⟨⟨stores.heap, paid⟩, Nat.le_refl n⟩
    exact ⟨fun v s₁ run => (value v s₁ run).imp_left fun less => by omega, stop⟩

theorem follows_tick {budget budget' : Nat} (h : ∀ n < bound, p.Follows n x y Q) :
    p.Follows bound (tick budget >>= fun _ => x) (tick budget' >>= fun _ => y) Q := by
  refine follows_tick_of_run h fun s' n fuel => ?_
  have enough := p.fuel_le fuel
  obtain ⟨k, fuel'⟩ : ∃ k, s'.fuel = k + 1 := Nat.exists_eq_succ_of_ne_zero (by omega)
  refine ⟨k, p.fuel_tick (fuel' ▸ fuel), ?_⟩
  rw [run_bind, run_tick_succ fuel']

theorem Stores.getElem? {s s' : Store} (h : p.Stores s s') (id : Nat) :
    s'.heap[id]? = s.heap[id]?.map p.renamed := by
  rw [h.heap, Array.getElem?_map]

theorem follows_object (id : Nat) :
    p.Follows bound (object id) (object id) fun o o' => o' = p.renamed o := by
  refine follows_get fun s s' stores => ?_
  rw [stores.getElem? id]
  cases s.heap[id]? with
  | some o => exact follows_pure rfl
  | none => exact follows_throw _

theorem renamed_create (c : Entry ClassDecl) (args : List Value) :
    p.renamed (.create c args) = .create (p.cls c) args := by
  rw [renamed, Object.create, Object.create, p.fields_cls, p.params_cls]

theorem follows_allocate (c : Entry ClassDecl) (args : List Value) :
    p.Follows bound (allocate (.create c args)) (allocate (.create (p.cls c) args))
      fun id id' => id' = id := by
  refine fun s' => ensures_allocate fun s ⟨stores, left⟩ =>
    ⟨left, s'.heap.size, _, rfl, ⟨?_, stores.fuel⟩, ?_⟩
  · dsimp only
    rw [stores.heap, Array.map_push, renamed_create]
  · rw [stores.heap, Array.size_map]

theorem follows_setField (id : Nat) (name : String) (v : Value) {otherwise : Object → Fault}
    (same : ∀ o, otherwise (p.renamed o) = otherwise o) :
    p.Follows bound (setField id name v otherwise) (setField id name v otherwise)
      fun _ _ => True := by
  refine (follows_object id).bind_eq fun o => ?_
  have fields : (p.renamed o).field? name = o.field? name := rfl
  rw [fields, same]
  cases o.field? name with
  | none => exact follows_fault _
  | some old =>
    refine follows_modify (fun _ => rfl) fun s s' stores => ⟨?_, stores.fuel⟩
    refine Array.ext_getElem? fun i => ?_
    simp only [stores.heap, Array.getElem?_modify, Array.getElem?_map]
    split
    · cases s.heap[i]? <;> rfl
    · rfl

end Pairing

end DeltaLang
