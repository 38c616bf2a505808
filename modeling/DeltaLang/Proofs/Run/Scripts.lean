import DeltaLang.Proofs.Run.Creations
import DeltaLang.Proofs.Run.Noted

/-!
# The heap of a session

From outside of a program objects are only known because an operation returned them.  A session in
which operations mention known objects only has a well formed heap at every moment, whether or not
operations stop midway: whatever is referred to is there, and objects stay what they are.
-/

namespace DeltaLang

/-! ## Objects that are mentioned -/

/-- The place of the object that a value refers to, if it refers to one. -/
def Value.mentioned : Value → List Nat
  | object id => [id]
  | future v => v.mentioned
  | _ => []

theorem Value.within_iff {size : Nat} {v : Value} :
    v.Within size ↔ ∀ id ∈ v.mentioned, id < size := by
  induction v with
  | object id => simp [Within, mentioned]
  | future v ih => exact ih
  | _ => exact iff_of_true trivial (List.forall_mem_nil _)

/-- The places of the objects that an operation is given. -/
def Operation.mentioned : Operation → List Nat
  | .instantiate _ args => args.flatMap Value.mentioned
  | .call receiver _ args => receiver :: args.flatMap Value.mentioned

theorem Operation.within_of_mentioned {size : Nat} {op : Operation}
    (there : ∀ id ∈ op.mentioned, id < size) : op.Within size := by
  have arguments {args : List Value} (there : ∀ id ∈ args.flatMap Value.mentioned, id < size) :
      ∀ v ∈ args, v.Within size := fun v mem =>
    Value.within_iff.2 fun id mem' => there id (List.mem_flatMap.2 ⟨v, mem, mem'⟩)
  cases op with
  | instantiate cls args => exact arguments there
  | call receiver method args =>
    obtain ⟨here, there⟩ := List.forall_mem_cons.1 there
    exact ⟨here, arguments there⟩

namespace Session

/-- Each operation mentions only objects that are known, or that an operation before it returned. -/
def Knows : Session → List Nat → List Operation → Prop
  | _, _, [] => True
  | s, known, op :: ops =>
    (∀ id ∈ op.mentioned, id ∈ known) ∧
      (s.perform op).2.Knows
        (known ++ (s.perform op).1.toOption.toList.flatMap Value.mentioned) ops

instance decidableKnows :
    (s : Session) → (known : List Nat) → (ops : List Operation) → Decidable (s.Knows known ops)
  | _, _, [] => inferInstanceAs (Decidable True)
  | s, known, op :: ops =>
    have := decidableKnows (s.perform op).2
      (known ++ (s.perform op).1.toOption.toList.flatMap Value.mentioned) ops
    inferInstanceAs (Decidable ((∀ id ∈ op.mentioned, id ∈ known) ∧ _))

/-! ## Watched sessions -/

/-- Carries out an operation and notes moments of it, the last one when it has ended. -/
def watch (s : Session) (op : Operation) : (Except Stop Value × Session) × List Moment :=
  let watched : Watched Value := do
    watchActivation s.symbols s.budget s.depth [] (← .step (request s.symbols op))
  let (result, store, noted) := watched.run (s.store, [])
  ((result, { s with store := store }), noted ++ [⟨[], result.toOption, store⟩])

/-- Carries out operations one after the other and notes moments of them. -/
def watchAll : Session → List Operation → (List (Except Stop Value) × Session) × List Moment
  | s, [] => (([], s), [])
  | s, op :: ops =>
    let ((result, s'), noted) := s.watch op
    let ((results, s''), noted') := s'.watchAll ops
    ((result :: results, s''), noted ++ noted')

variable {s : Session} {op : Operation} {ops : List Operation}

theorem watches_request {t : SymbolTable} {size : Nat} (within : op.Within size) :
    Watched.Watches size (.step (request t op)) (request t op) fun size' a => a.Within size' := by
  refine Watched.watches_step (fun _ s inside => ?_) ?_
  · obtain ⟨value, stop⟩ := finishes_request within s inside
    exact ⟨fun a s' eq => (value a s' eq).imp_right And.left, stop⟩
  · cases op with
    | instantiate cls args =>
      exact (Run.grows_ofExcept _).bind fun c => Run.grows_pure _
    | call receiver method args => exact Run.grows_dispatch receiver method args

/-- A watched operation does what the operation does, and what it notes is well formed. -/
theorem watch_of_within (closed : s.store.Closed) (within : op.Within s.store.heap.size) :
    (s.watch op).1 = s.perform op ∧
      Watched.Notes (fun size v => v.Within size) s.store (s.watch op).2 (s.perform op).1
        (s.perform op).2.store := by
  obtain ⟨noted, same, notes⟩ := (watches_request (t := s.symbols) within).bind
    (fun a _ _ ha => watches_watchActivation s.symbols s.budget s.depth _ [] a .nil ha)
    s.store closed (Nat.le_refl _)
  have watched : s.watch op = (s.perform op,
      noted ++ [⟨[], (s.perform op).1.toOption, (s.perform op).2.store⟩]) := by
    rw [watch, same []]
    rfl
  have wellFormed :
      Moment.WellFormed ⟨[], (s.perform op).1.toOption, (s.perform op).2.store⟩ :=
    ⟨notes.closed, .nil, fun v eq => notes.value v (eq_ok_of_toOption eq)⟩
  rw [watched]
  exact ⟨rfl, { notes with moments := notes.moments.noting wellFormed rfl }⟩

theorem watchAll_cons (s : Session) (op : Operation) (ops : List Operation) :
    s.watchAll (op :: ops) =
      (((s.watch op).1.1 :: ((s.watch op).1.2.watchAll ops).1.1,
          ((s.watch op).1.2.watchAll ops).1.2),
        (s.watch op).2 ++ ((s.watch op).1.2.watchAll ops).2) := rfl

/-- So do watched operations that refer to objects that are there when it is their turn. -/
theorem watchAll_of_refers (closed : s.store.Closed) (refers : s.Refers ops) :
    (s.watchAll ops).1 = s.performAll ops ∧
      Through s.store (s.watchAll ops).2 (s.performAll ops).2.store ∧
      (s.performAll ops).2.store.Closed ∧
      ∀ id, .error (.dangling id) ∉ (s.performAll ops).1 := by
  induction ops generalizing s with
  | nil => exact ⟨rfl, .refl s.store, closed, fun _ => List.not_mem_nil⟩
  | cons op ops ih =>
    obtain ⟨first, notes⟩ := watch_of_within closed refers.1
    obtain ⟨rest, through, closed', found⟩ := ih notes.closed refers.2
    rw [watchAll_cons, first, rest]
    refine ⟨rfl, notes.moments.append through, closed', fun id mem => ?_⟩
    rcases List.mem_cons.1 mem with mem | mem
    · exact notes.found id mem.symm
    · exact found id mem

/-- Objects that an operation returned are there from then on. -/
theorem Knows.refers {known : List Nat} (knows : s.Knows known ops) (closed : s.store.Closed)
    (there : ∀ id ∈ known, id < s.store.heap.size) : s.Refers ops := by
  induction ops generalizing s known with
  | nil => trivial
  | cons op ops ih =>
    have within : op.Within s.store.heap.size :=
      Operation.within_of_mentioned fun id mem => there id (knows.1 id mem)
    obtain ⟨-, notes⟩ := watch_of_within closed within
    refine ⟨within, ih knows.2 notes.closed (List.forall_mem_append.2 ⟨fun id mem => ?_, ?_⟩)⟩
    · exact Nat.lt_of_lt_of_le (there id mem) notes.moments.growsTo.size
    · intro id mem
      obtain ⟨v, returned, mem'⟩ := List.mem_flatMap.1 mem
      have value := notes.value v (eq_ok_of_toOption (Option.mem_toList.1 returned))
      exact Value.within_iff.1 value id mem'

/-- Where operations mention only objects that the session returned before, everything that is
referred to is in the heap at every moment, also after an operation that stopped: in fields, in the
frames of the activations that have not ended, and in values that are yielded.  From each moment to
every later one the heap grows, and objects keep their class and the names of their fields.  No
operation looks for an object that is not there. -/
theorem watchAll_start_wellFormed (m : Model) (budget depth : Nat) {ops : List Operation}
    (knows : (start m budget depth).Knows [] ops) :
    let s := start m budget depth
    (s.watchAll ops).1 = s.performAll ops ∧
      (∀ mo ∈ (s.watchAll ops).2, mo.WellFormed) ∧
      (s.store :: ((s.watchAll ops).2.map (·.store) ++ [(s.performAll ops).2.store])).Pairwise
        Store.GrowsTo ∧
      (s.performAll ops).2.store.Closed ∧
      ∀ id, .error (.dangling id) ∉ (s.performAll ops).1 := by
  intro s
  have closed : s.store.Closed := fun o mem => by simp [s, start] at mem
  obtain ⟨same, through, closed', found⟩ :=
    watchAll_of_refers closed (knows.refers closed (List.forall_mem_nil _))
  exact ⟨same, through.wellFormed, through.pairwise, closed', found⟩

/-- A class that keeps an object, and a class whose initial block has the new object kept and then
fails. -/
def keepingModel : Model := .ofDecls [("M",
  [.interfaceOf "I" [] [],
    .class ⟨"Keeper", [], [⟨"last", .named "I", none, none⟩], none, none, ["I"], [],
      [.ofVersion ⟨.of "Unit" "keep" [("I", "o")],
          [.assign (.field "last") (.var "o" none) none]⟩,
        .ofVersion ⟨.of "I" "latest" [], [.ret (.field "last" none) none]⟩], none⟩,
    .class ⟨"Failing", [⟨"keeper", .named "I", none⟩], [],
      some [.eval (.send (.var "keeper" none) "keep" [.this none]) none,
        .eval (.binary .div (.int 1 none) (.int 0 none) none) none], none, ["I"], [],
      [.ofVersion ⟨.of "Fut<I>" "other" [],
        [.ret (.call (.var "keeper" none) "latest" [] true none) none]⟩], none⟩])]

theorem watchAll_start_wellFormed_keepingModel :
    let ops := [.instantiate "Keeper" [], .instantiate "Failing" [.object 0],
      .call 0 "latest" [], .call 1 "other" []]
    (start keepingModel 20 9).Knows [] ops ∧
      ((start keepingModel 20 9).performAll ops).1 = [.ok (.object 0),
        .error (.fault .divisionByZero), .ok (.object 1), .ok (.future (.object 1))] ∧
      let s := start keepingModel 20 9
      (s.watchAll ops).1 = s.performAll ops ∧
        (∀ mo ∈ (s.watchAll ops).2, mo.WellFormed) ∧
        (s.store :: ((s.watchAll ops).2.map (·.store) ++
          [(s.performAll ops).2.store])).Pairwise Store.GrowsTo ∧
        (s.performAll ops).2.store.Closed ∧
        ∀ id, .error (.dangling id) ∉ (s.performAll ops).1 := by
  intro ops
  have knows : (start keepingModel 20 9).Knows [] ops := by decide +kernel
  exact ⟨knows, by decide +kernel, watchAll_start_wellFormed keepingModel 20 9 knows⟩

end Session

end DeltaLang
