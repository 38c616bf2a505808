import DeltaLang.Proofs.Run.References
import Mathlib.Data.List.Chain

/-!
# Moments of a run

At a moment of a run there are the frames of the activations that have not ended, the value that was
just yielded, if any, and the store.  A moment is well formed if none of them refers to an object
that is not in the heap.  From one moment to the next the heap only grows: objects stay where they
are, of their class and with the fields that they have.
-/

namespace DeltaLang

/-! ## Stores that grow -/

/-- Every object is still at its place, of the same class and with fields of the same names. -/
structure Store.GrowsTo (s s' : Store) : Prop where
  size : s.heap.size ≤ s'.heap.size
  objects : ∀ (id : Nat) (o : Object), s.heap[id]? = some o →
    ∃ o', s'.heap[id]? = some o' ∧ o'.cls = o.cls ∧
      o'.fields.map Prod.fst = o.fields.map Prod.fst

namespace Store.GrowsTo

variable {s s' s'' : Store}

theorem of_heap_eq (h : s'.heap = s.heap) : s.GrowsTo s' where
  size := by rw [h]
  objects := fun _ o here => ⟨o, h ▸ here, rfl, rfl⟩

theorem refl (s : Store) : s.GrowsTo s := of_heap_eq rfl

theorem trans (h : s.GrowsTo s') (h' : s'.GrowsTo s'') : s.GrowsTo s'' where
  size := h.size.trans h'.size
  objects := fun id o here => by
    obtain ⟨o', here', cls, names⟩ := h.objects id o here
    obtain ⟨o'', here'', cls', names'⟩ := h'.objects id o' here'
    exact ⟨o'', here'', cls'.trans cls, names'.trans names⟩

instance : Trans GrowsTo GrowsTo GrowsTo := ⟨trans⟩

theorem push (s : Store) (o : Object) : s.GrowsTo { s with heap := s.heap.push o } where
  size := by simp
  objects := fun id old here => by
    have place : id ≠ s.heap.size := (Array.getElem?_eq_some_iff.1 here).1.ne
    exact ⟨old, by rw [Array.getElem?_push, if_neg place, here], rfl, rfl⟩

/-- Giving fields values leaves an object the class and the fields that it has. -/
theorem assign (s : Store) (id : Nat) (name : String) (v : Value) :
    s.GrowsTo { s with heap := s.heap.modify id fun o =>
      { o with fields := assignName name v o.fields } } where
  size := by simp
  objects := fun id' o here => by
    rw [Array.getElem?_modify, here]
    split
    · exact ⟨_, rfl, rfl, map_fst_assignName name v o.fields⟩
    · exact ⟨o, rfl, rfl, rfl⟩

end Store.GrowsTo

namespace Run

variable {α β : Type} {x : Run α} {f : α → Run β}

/-- Whatever store the run starts from, it leaves one that it grew to. -/
def Grows (x : Run α) : Prop :=
  ∀ s₀ : Store, Ensures s₀.GrowsTo x (fun _ => s₀.GrowsTo) fun _ => s₀.GrowsTo

theorem Grows.run (h : x.Grows) (s : Store) : s.GrowsTo (ExceptT.run x s).2 := by
  obtain ⟨value, stop⟩ := h s s (.refl s)
  rcases result : ExceptT.run x s with ⟨e | v, s'⟩
  · exact stop e s' result
  · exact value v s' result

theorem Grows.bind (h : x.Grows) (hf : ∀ v, (f v).Grows) : (x >>= f).Grows := fun s₀ =>
  Ensures.bind (h s₀) fun v => hf v s₀

theorem grows_pure (v : α) : (pure v : Run α).Grows := fun _ => ensures_pure fun _ grown => grown

theorem grows_fault (flt : Fault) : (fault flt : Run α).Grows := fun _ =>
  ensures_fault fun _ grown => grown

theorem grows_ofExcept (r : Except Fault α) : (ofExcept r).Grows := fun _ =>
  ensures_ofExcept (fun _ _ _ grown => grown) fun _ _ _ grown => grown

theorem grows_get : (get : Run Store).Grows := fun _ => ensures_get fun _ grown => grown

theorem grows_tick (budget : Nat) : (tick budget).Grows := fun _ =>
  ensures_tick (fun _ _ _ grown => grown.trans (.of_heap_eq rfl)) fun _ _ grown => grown

theorem grows_object (id : Nat) : (object id).Grows := fun _ =>
  ensures_object (fun _ _ _ grown => grown) fun _ _ grown => grown

theorem grows_allocate (o : Object) : (allocate o).Grows := fun _ =>
  ensures_allocate fun s grown => grown.trans (.push s o)

theorem grows_setField (id : Nat) (name : String) (v : Value) (otherwise : Object → Fault) :
    (setField id name v otherwise).Grows := fun _ =>
  ensures_setField (fun s _ _ _ _ grown => grown.trans (.assign s id name v))
    (fun _ _ grown => grown) fun _ _ _ _ grown => grown

theorem grows_dispatch (receiver : Nat) (method : String) (args : List Value) :
    (dispatch receiver method args).Grows :=
  (grows_object receiver).bind fun o => by
    cases o.cls.decl.method? method with
    | some m => exact grows_pure _
    | none => exact grows_fault _

theorem grows_evalField (fr : Frame) (name : String) : (evalField fr name).Grows :=
  (grows_object fr.this).bind fun o => by
    cases o.field? name with
    | some v => exact grows_pure v
    | none => exact grows_fault _

theorem grows_evalVar (fr : Frame) (name : String) : (evalVar fr name).Grows := by
  unfold evalVar
  split
  · exact grows_pure _
  · refine (grows_object fr.this).bind fun o => ?_
    cases o.field? name with
    | some v => exact grows_pure v
    | none => exact grows_fault _

theorem grows_assignTarget (fr : Frame) (v : Value) (target : Target) :
    (assignTarget fr v target).Grows := by
  cases target with
  | field name => exact (grows_setField fr.this name v _).bind fun _ => grows_pure fr
  | var name =>
    simp only [assignTarget, assignVar]
    split
    · exact grows_pure _
    · exact (grows_setField fr.this name v _).bind fun _ => grows_pure fr

theorem grows_checkCount (what : String) (expected : Nat) (args : List Value) :
    (checkCount what expected args).Grows := by
  unfold checkCount
  split
  · exact grows_pure ()
  · exact grows_fault _

end Run

/-! ## Moments -/

/-- The frames of the activations that have not ended, the innermost first. -/
abbrev Stack := List Frame

/-- The frames refer to no object but those of a heap of that size. -/
def Stack.Within (size : Nat) (frames : Stack) : Prop := ∀ fr ∈ frames, fr.Within size

namespace Stack.Within

variable {size size' : Nat} {frames : Stack} {fr : Frame}

theorem nil : Stack.Within size [] := List.forall_mem_nil _

theorem mono (h : frames.Within size) (grown : size ≤ size') : frames.Within size' :=
  fun fr mem => (h fr mem).mono grown

theorem cons (h : fr.Within size) (above : frames.Within size) :
    Stack.Within size (fr :: frames) := List.forall_mem_cons.2 ⟨h, above⟩

end Stack.Within

/-- What there is at a moment of a run. -/
structure Moment where
  frames : Stack
  /-- The value that was yielded last, if the run is where it yields one. -/
  yielded : Option Value
  store : Store

/-- No field, no frame and no value refers to an object that is not in the heap. -/
structure Moment.WellFormed (mo : Moment) : Prop where
  closed : mo.store.Closed
  frames : mo.frames.Within mo.store.heap.size
  yielded : ∀ v ∈ mo.yielded, v.Within mo.store.heap.size

/-- The moments are well formed, and the first store grows to that of each in turn and then to the
last one. -/
def Through : Store → List Moment → Store → Prop
  | s, [], s' => s.GrowsTo s'
  | s, mo :: rest, s' => s.GrowsTo mo.store ∧ mo.WellFormed ∧ Through mo.store rest s'

namespace Through

variable {s s' s'' : Store} {noted noted' : List Moment}

theorem append (h : Through s noted s') (h' : Through s' noted' s'') :
    Through s (noted ++ noted') s'' := by
  induction noted generalizing s with
  | nil =>
    cases noted' with
    | nil => exact Store.GrowsTo.trans h h'
    | cons mo rest => exact ⟨Store.GrowsTo.trans h h'.1, h'.2⟩
  | cons mo noted ih => exact ⟨h.1, h.2.1, ih h.2.2⟩

theorem noting (h : Through s noted s') {mo : Moment} (wellFormed : mo.WellFormed)
    (here : mo.store = s') : Through s (noted ++ [mo]) s' :=
  h.append ⟨here ▸ .refl _, wellFormed, here ▸ .refl _⟩

theorem wellFormed (h : Through s noted s') : ∀ mo ∈ noted, mo.WellFormed := by
  induction noted generalizing s with
  | nil => exact List.forall_mem_nil _
  | cons mo noted ih => exact List.forall_mem_cons.2 ⟨h.2.1, ih h.2.2⟩

/-- Each store grows to every later one. -/
theorem pairwise (h : Through s noted s') :
    (s :: (noted.map (·.store) ++ [s'])).Pairwise Store.GrowsTo := by
  rw [← List.isChain_iff_pairwise]
  induction noted generalizing s with
  | nil => exact .cons_cons h (.singleton _)
  | cons mo noted ih => exact .cons_cons h.1 (ih h.2.2)

theorem growsTo (h : Through s noted s') : s.GrowsTo s' :=
  List.rel_of_pairwise_cons h.pairwise (List.mem_append_right _ (List.mem_singleton_self s'))

end Through

end DeltaLang
