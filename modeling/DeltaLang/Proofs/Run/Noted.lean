import DeltaLang.Proofs.Run.Watched

/-!
# What watched runs note

A watched run yields what the run yields and leaves the store that it leaves, and the moments that
it notes are well formed.  From a closed store the run keeps to the objects that are there: the
heap only grows, and so whatever refers to objects keeps referring to objects.  This holds of each
expression and statement where it holds of the activations within, and so of all activations by
induction on how deep they are nested.
-/

namespace DeltaLang

namespace Watched

variable {α β : Type} {size : Nat} {y : Watched α} {x : Run α} {g : α → Watched β} {f : α → Run β}
  {Q : Nat → α → Prop} {R : Nat → β → Prop}

theorem run_bind (p : Store × List Moment) :
    (y >>= g).run p =
      match y.run p with
      | (.ok v, p') => (g v).run p'
      | (.error e, p') => (.error e, p') := by
  change (match y.run p with | (r, p') => (ExceptT.bindCont g r) p') = _
  rcases y.run p with ⟨_ | _, p'⟩ <;> rfl

/-- What is noted on a run that ends with the result and that store. -/
structure Notes (Q : Nat → α → Prop) (s : Store) (noted : List Moment) (r : Except Stop α)
    (s' : Store) : Prop where
  moments : Through s noted s'
  closed : s'.Closed
  value : ∀ v, r = .ok v → Q s'.heap.size v
  found : ∀ id, r ≠ .error (.dangling id)

/-- From every closed store of at least that size, the watched run does what the run does and notes
moments of it. -/
def Watches (size : Nat) (y : Watched α) (x : Run α) (Q : Nat → α → Prop) : Prop :=
  ∀ s : Store, s.Closed → size ≤ s.heap.size → ∃ noted,
    (∀ before, y.run (s, before) =
      ((ExceptT.run x s).1, (ExceptT.run x s).2, before ++ noted)) ∧
    Notes Q s noted (ExceptT.run x s).1 (ExceptT.run x s).2

/-! ## Building watched runs -/

theorem watches_pure {v : α} (h : ∀ size', size ≤ size' → Q size' v) :
    Watches size (pure v) (pure v) Q := fun s closed large =>
  ⟨[], fun before => by rw [List.append_nil]; rfl,
    ⟨.refl s, closed, fun _ eq => Except.ok.inj eq ▸ h _ large, fun _ => nofun⟩⟩

theorem watches_tooDeep : Watches size (throw .tooDeep) (throw .tooDeep : Run α) Q :=
  fun s closed _ => ⟨[], fun before => by rw [List.append_nil]; rfl,
    ⟨.refl s, closed, nofun, fun _ => nofun⟩⟩

/-- A run that finishes is a step of a watched run. -/
theorem watches_step (finishes : ∀ bound, Run.Finishes size bound x Q) (grows : x.Grows) :
    Watches size (step x) x Q := by
  intro s closed large
  refine ⟨[], fun before => by rw [List.append_nil]; rfl, ?_⟩
  obtain ⟨value, stop⟩ := finishes s.fuel s ⟨closed, large, Nat.le_refl _⟩
  have grown : s.GrowsTo (ExceptT.run x s).2 := grows.run s
  rcases result : ExceptT.run x s with ⟨e | v, s'⟩
  · obtain ⟨within, isFault⟩ := stop e s' result
    refine ⟨by rwa [result] at grown, within.closed, nofun, fun id eq => ?_⟩
    cases eq
    cases isFault
  · obtain ⟨within, holds⟩ := value v s' result
    exact ⟨by rwa [result] at grown, within.closed, fun _ eq => Except.ok.inj eq ▸ holds,
      fun _ => nofun⟩

theorem Watches.bind (h : Watches size y x Q)
    (hf : ∀ v size', size ≤ size' → Q size' v → Watches size' (g v) (f v) R) :
    Watches size (y >>= g) (x >>= f) R := by
  intro s closed large
  obtain ⟨noted, same, notes⟩ := h s closed large
  rw [Run.run_bind]
  simp only [run_bind, same]
  rcases result : ExceptT.run x s with ⟨e | v, s'⟩
  · rw [result] at notes
    refine ⟨noted, fun before => rfl, ⟨notes.moments, notes.closed, nofun, fun id eq => ?_⟩⟩
    cases eq
    exact notes.found id rfl
  · rw [result] at notes
    obtain ⟨noted', same', notes'⟩ := hf v s'.heap.size (large.trans notes.moments.growsTo.size)
      (notes.value v rfl) s' notes.closed (Nat.le_refl _)
    exact ⟨noted ++ noted',
      fun before => by rw [← List.append_assoc]; exact same' (before ++ noted),
      { notes' with moments := notes.moments.append notes'.moments }⟩

/-- A moment may be noted if its frames and its value are within the heap. -/
theorem Watches.noting (h : Watches size y x Q) {frames : α → Stack} {yielded : α → Option Value}
    (within : ∀ v size', size ≤ size' → Q size' v →
      (frames v).Within size' ∧ ∀ w ∈ yielded v, w.Within size') :
    Watches size (y.noting frames yielded) x Q := by
  intro s closed large
  obtain ⟨noted, same, notes⟩ := h s closed large
  unfold Watched.noting
  simp only [run_bind, same]
  rcases result : ExceptT.run x s with ⟨e | v, s'⟩
  · rw [result] at notes
    exact ⟨noted, fun before => rfl, notes⟩
  · rw [result] at notes
    have fits := within v s'.heap.size (large.trans notes.moments.growsTo.size)
      (notes.value v rfl)
    have wellFormed : Moment.WellFormed ⟨frames v, yielded v, s'⟩ :=
      ⟨notes.closed, fits.1, fits.2⟩
    exact ⟨noted ++ [⟨frames v, yielded v, s'⟩],
      fun before => by rw [← List.append_assoc]; rfl,
      { notes with moments := notes.moments.noting wellFormed rfl }⟩

theorem Watches.noting_frames (h : Watches size y x Q) {frames : α → Stack}
    (within : ∀ v size', size ≤ size' → Q size' v → (frames v).Within size') :
    Watches size (y.noting frames fun _ => none) x Q :=
  h.noting fun v size' grown holds => ⟨within v size' grown holds, fun _ mem => by cases mem⟩

theorem watches_ofExcept {r : Except Fault α}
    (h : ∀ v size', r = .ok v → size ≤ size' → Q size' v) :
    Watches size (step (.ofExcept r)) (.ofExcept r) Q :=
  watches_step (fun _ => Run.finishes_ofExcept h) (Run.grows_ofExcept r)

theorem watches_get : Watches size (step get) (get : Run Store) fun _ _ => True :=
  watches_step (fun _ => Run.ensures_get fun _ within => ⟨within, trivial⟩) Run.grows_get

theorem watches_tick (budget : Nat) :
    Watches size (step (.tick budget)) (.tick budget) fun _ _ => True := by
  refine watches_step (fun bound => ?_) (Run.grows_tick budget)
  have ticks : Run.Finishes size bound (Run.tick budget >>= fun _ => pure ()) fun _ _ => True :=
    Run.finishes_tick fun _ _ => Run.finishes_pure fun _ _ => trivial
  rwa [bind_pure] at ticks

end Watched

/-! ## Expressions -/

section

open Watched

variable {t : SymbolTable} {budget : Nat} {watch : Stack → Activation → Watched Value}
  {activate : Activation → Run Value} {above : Stack} {fr : Frame}

/-- Activations are watched, whatever frames are above them. -/
def WatchesAll (watch : Stack → Activation → Watched Value) (activate : Activation → Run Value) :
    Prop :=
  ∀ size above a, Stack.Within size above → a.Within size →
    Watches size (watch above a) (activate a) fun size' v => v.Within size'

/-- A value in a frame is noted. -/
theorem Watched.Watches.yields {size : Nat} {y : Watched Value} {x : Run Value}
    (h : Watches size y x fun size' v => v.Within size')
    (frames : Stack.Within size (fr :: above)) :
    Watches size (y.noting (fun _ => fr :: above) some) x fun size' v => v.Within size' :=
  h.noting fun _ _ grown within => ⟨frames.mono grown, fun _ eq => Option.some.inj eq ▸ within⟩

mutual

theorem watches_watchExpr (within : WatchesAll watch activate) {size : Nat}
    (h : fr.Within size) (frames : above.Within size) : (e : Expr) →
      Watches size (watchExpr t watch above fr e) (evalExpr t activate fr e)
        fun size' v => v.Within size'
  | .bool .. | .int .. | .str .. | .null _ => by
    rw [watchExpr, evalExpr]
    exact (watches_pure fun _ _ => trivial).yields (frames.cons h)
  | .this _ => by
    rw [watchExpr, evalExpr]
    refine Watches.yields (watches_pure fun _ grown => ?_) (frames.cons h)
    exact Nat.lt_of_lt_of_le h.this grown
  | .var name _ => by
    rw [watchExpr, evalExpr]
    exact (watches_step (fun _ => finishes_evalVar h name) (Run.grows_evalVar fr name)).yields
      (frames.cons h)
  | .field name _ => by
    rw [watchExpr, evalExpr]
    exact (watches_step (fun _ => finishes_evalField h name) (Run.grows_evalField fr name)).yields
      (frames.cons h)
  | .unary op operand _ => by
    rw [watchExpr, evalExpr]
    refine Watches.yields ?_ (frames.cons h)
    refine (watches_watchExpr within h frames operand).bind fun v _ _ _ => ?_
    exact watches_ofExcept fun _ _ result _ => UnaryOp.within_apply result
  | .binary op lhs rhs _ => by
    rw [watchExpr, evalExpr]
    refine Watches.yields ?_ (frames.cons h)
    refine (watches_watchExpr within h frames lhs).bind fun a _ grown _ => ?_
    refine (watches_ofExcept (Q := fun _ r => op.first a = .ok r) fun _ _ eq _ => eq).bind
      fun first _ grown' isFirst => ?_
    cases first with
    | some v => exact watches_pure fun _ _ => BinaryOp.within_first isFirst
    | none =>
      refine (watches_watchExpr within ((h.mono grown).mono grown')
        ((frames.mono grown).mono grown') rhs).bind fun b _ _ _ => ?_
      exact watches_ofExcept fun _ _ result _ => BinaryOp.within_both result
  | .call target method args async _ => by
    rw [watchExpr, evalExpr]
    refine Watches.yields ?_ (frames.cons h)
    refine (watches_watchExpr within h frames target).bind fun v _ grown hv => ?_
    refine (watches_ofExcept (Q := fun size' id => id < size') fun id _ result grown' => ?_).bind
      fun receiver _ grown' here => ?_
    · cases v <;> cases result
      exact Nat.lt_of_lt_of_le hv grown'
    · have h' := (h.mono grown).mono grown'
      have frames' := (frames.mono grown).mono grown'
      refine (watches_watchExprs within h' frames' args).bind fun values _ grown'' hvalues => ?_
      refine (watches_step (fun _ => finishes_dispatch (Nat.lt_of_lt_of_le here grown'') method
        hvalues fun _ => True) (Run.grows_dispatch receiver method values)).bind
        fun a _ large ha => ?_
      refine (within _ _ a (((frames'.cons h').mono grown'').mono large) ha.1).bind
        fun result _ _ hresult => watches_pure fun _ last => ?_
      split
      · exact hresult.mono last
      · exact hresult.mono last
  | .get future _ => by
    rw [watchExpr, evalExpr]
    refine Watches.yields ?_ (frames.cons h)
    refine (watches_watchExpr within h frames future).bind fun v _ _ hv => ?_
    exact watches_ofExcept fun _ _ result grown => (Value.within_awaited result hv).mono grown
  | .new cls args _ _ => by
    rw [watchExpr, evalExpr]
    refine Watches.yields ?_ (frames.cons h)
    refine (watches_watchExprs within h frames args).bind fun values _ grown hvalues => ?_
    refine (watches_ofExcept (Q := fun _ _ => True) fun _ _ _ _ => trivial).bind
      fun c _ grown' _ => ?_
    exact within _ _ (.creation c values) (((frames.cons h).mono grown).mono grown')
      fun v mem => (hvalues v mem).mono grown'
  | .original args _ => by
    rw [watchExpr, evalExpr]
    refine Watches.yields ?_ (frames.cons h)
    refine (watches_watchExprs within h frames args).bind fun values _ grown hvalues => ?_
    refine (watches_ofExcept (Q := fun size' a => a.Within size') fun a _ found grown' => ?_).bind
      fun a _ grown' ha => within _ _ a (((frames.cons h).mono grown).mono grown') ha
    exact (((h.mono grown).mono grown').original (fun v mem => (hvalues v mem).mono grown')
      (fun _ => True) found).1

theorem watches_watchExprs (within : WatchesAll watch activate) {size : Nat}
    (h : fr.Within size) (frames : above.Within size) : (es : List Expr) →
      Watches size (watchExprs t watch above fr es) (evalExprs t activate fr es)
        fun size' vs => ∀ v ∈ vs, v.Within size'
  | [] => by
    rw [watchExprs, evalExprs]
    exact watches_pure fun _ _ => List.forall_mem_nil _
  | e :: es => by
    rw [watchExprs, evalExprs]
    refine (watches_watchExpr within h frames e).bind fun v _ grown hv => ?_
    refine (watches_watchExprs within (h.mono grown) (frames.mono grown) es).bind
      fun vs _ grown' hvs => ?_
    exact watches_pure fun _ last => List.forall_mem_cons.2
      ⟨(hv.mono grown').mono last, fun w mem => (hvs w mem).mono last⟩

end

/-! ## Statements -/

theorem watches_watchCond (within : WatchesAll watch activate) {size : Nat} (h : fr.Within size)
    (frames : above.Within size) (cond : Expr) :
    Watches size (watchCond t watch above fr cond) (evalCond t activate fr cond)
      fun _ _ => True :=
  (watches_watchExpr within h frames cond).bind fun _ _ _ _ =>
    watches_ofExcept fun _ _ _ _ => trivial

theorem watches_watchScope {size : Nat} {watched : Frame → Watched (Frame × Option Value)}
    {block : Frame → Run (Frame × Option Value)}
    (h : Watches size (watched fr.enter) (block fr.enter) EndsWithin) :
    Watches size (watchScope fr watched) (withScope fr block) EndsWithin :=
  h.bind fun r _ _ ends => watches_pure fun _ grown =>
    EndsWithin.mono (r := (r.1.leave, r.2)) ⟨ends.1.leave, ends.2⟩ grown

theorem watches_watchWhile {size : Nat} {watchedCond : Frame → Watched Bool}
    {cond : Frame → Run Bool} {watchedBody : Frame → Watched (Frame × Option Value)}
    {body : Frame → Run (Frame × Option Value)}
    (hcond : ∀ size' fr, size ≤ size' → fr.Within size' →
      Watches size' (watchedCond fr) (cond fr) fun _ _ => True)
    (hbody : ∀ size' fr, size ≤ size' → fr.Within size' →
      Watches size' (watchedBody fr) (body fr) EndsWithin)
    (rounds : Nat) {size' : Nat} (large : size ≤ size') {fr : Frame} (h : fr.Within size') :
    Watches size' (watchWhile budget watchedCond watchedBody rounds fr)
      (repeatWhile budget cond body rounds fr) EndsWithin := by
  induction rounds generalizing size' fr with
  | zero => exact watches_tooDeep
  | succ rounds ih =>
    refine (hcond size' fr large h).bind fun holds size₁ grown _ => ?_
    have large₁ := large.trans grown
    have h₁ := h.mono grown
    cases holds with
    | false => exact watches_pure fun _ grown' => .none (h₁.mono grown')
    | true =>
      refine (hbody size₁ fr large₁ h₁).bind fun r size₂ grown' ends => ?_
      obtain ⟨fr', result⟩ := r
      cases result with
      | some v => exact watches_pure fun _ last => ends.mono last
      | none =>
        refine (watches_tick budget).bind fun _ size₃ last _ => ?_
        exact ih (large₁.trans (grown'.trans last)) (ends.1.mono last)

/-- After a statement, which takes a step first, the frame and the value that is returned, if any,
are noted. -/
theorem Watched.Watches.ticks {size : Nat} {fr : Frame} (h : fr.Within size)
    (frames : above.Within size) {y : Watched (Frame × Option Value)}
    {x : Run (Frame × Option Value)}
    (rest : ∀ size', fr.Within size' → above.Within size' → Watches size' y x EndsWithin) :
    Watches size (.noting (fun r => r.1 :: above) (fun r => r.2) do step (.tick budget); y)
      (do Run.tick budget; x) EndsWithin := by
  refine Watches.noting ((watches_tick budget).bind fun _ size' grown _ => ?_)
    fun _ _ grown ends => ⟨(frames.mono grown).cons ends.1, ends.2⟩
  exact rest size' (h.mono grown) (frames.mono grown)

mutual

theorem watches_watchStmt (within : WatchesAll watch activate) {size : Nat} {fr : Frame}
    (h : fr.Within size) (frames : above.Within size) : (s : Stmt) →
      Watches size (watchStmt t budget watch above fr s) (execStmt t budget activate fr s)
        EndsWithin
  | .skip _ => by
    rw [watchStmt, execStmt]
    refine Watches.ticks h frames fun _ h _ => ?_
    exact watches_pure fun _ last => .none (h.mono last)
  | .ret value _ => by
    rw [watchStmt, execStmt]
    refine Watches.ticks h frames fun _ h frames => ?_
    refine (watches_watchExpr within h frames value).bind fun v _ grown hv =>
      watches_pure fun _ last => ?_
    exact .some ((h.mono grown).mono last) (hv.mono last)
  | .decl _ name none _ => by
    rw [watchStmt, execStmt]
    refine Watches.ticks h frames fun _ h _ => ?_
    exact watches_pure fun _ last =>
      .none (Frame.Within.bind (v := .null) (h.mono last) trivial name)
  | .decl _ name (some value) _ => by
    rw [watchStmt, execStmt]
    refine Watches.ticks h frames fun _ h frames => ?_
    refine (watches_watchExpr within h frames value).bind fun v _ grown hv =>
      watches_pure fun _ last => ?_
    exact .none (((h.mono grown).mono last).bind (hv.mono last) name)
  | .assign target value _ => by
    rw [watchStmt, execStmt]
    refine Watches.ticks h frames fun _ h frames => ?_
    refine (watches_watchExpr within h frames value).bind fun v _ grown hv => ?_
    refine (watches_step (fun _ => finishes_assignTarget (h.mono grown) hv target)
      (Run.grows_assignTarget fr v target)).bind fun _ _ _ ends => ?_
    exact watches_pure fun _ last => .none (ends.mono last)
  | .ite cond yes none _ => by
    rw [watchStmt, execStmt]
    refine Watches.ticks h frames fun _ h frames => ?_
    refine (watches_watchCond within h frames cond).bind fun holds _ grown _ => ?_
    have h' := h.mono grown
    split
    · exact watches_watchScope (watches_watchStmts within h'.enter (frames.mono grown) yes)
    · exact watches_pure fun _ last => .none (h'.mono last)
  | .ite cond yes (some no) _ => by
    rw [watchStmt, execStmt]
    refine Watches.ticks h frames fun _ h frames => ?_
    refine (watches_watchCond within h frames cond).bind fun holds _ grown _ => ?_
    have h' := h.mono grown
    have frames' := frames.mono grown
    split
    · exact watches_watchScope (watches_watchStmts within h'.enter frames' yes)
    · exact watches_watchScope (watches_watchStmts within h'.enter frames' no)
  | .loop cond body _ => by
    rw [watchStmt, execStmt]
    refine Watches.ticks h frames fun _ h frames => ?_
    refine watches_get.bind fun s size' grown _ => ?_
    have frames' := frames.mono grown
    refine watches_watchWhile (fun _ _ large h' => ?_) (fun _ _ large h' => ?_) (s.fuel + 1)
      (Nat.le_refl size') (h.mono grown)
    · exact watches_watchCond within h' (frames'.mono large) cond
    · exact watches_watchScope (watches_watchStmts within h'.enter (frames'.mono large) body)
  | .eval value _ => by
    rw [watchStmt, execStmt]
    refine Watches.ticks h frames fun _ h frames => ?_
    refine (watches_watchExpr within h frames value).bind fun v _ grown _ =>
      watches_pure fun _ last => ?_
    exact .none ((h.mono grown).mono last)

theorem watches_watchStmts (within : WatchesAll watch activate) {size : Nat} {fr : Frame}
    (h : fr.Within size) (frames : above.Within size) : (ss : List Stmt) →
      Watches size (watchStmts t budget watch above fr ss) (execStmts t budget activate fr ss)
        EndsWithin
  | [] => by
    rw [watchStmts, execStmts]
    exact watches_pure fun _ grown => .none (h.mono grown)
  | s :: ss => by
    rw [watchStmts, execStmts]
    refine (watches_watchStmt within h frames s).bind fun r _ grown ends => ?_
    obtain ⟨fr', result⟩ := r
    cases result with
    | none => exact watches_watchStmts within ends.1 (frames.mono grown) ss
    | some v => exact watches_pure fun _ last => ends.mono last

end

/-! ## Activations -/

theorem watches_checkCount (what : String) (expected : Nat) (args : List Value) {size : Nat} :
    Watches size (step (checkCount what expected args)) (checkCount what expected args)
      fun _ _ => True :=
  watches_step (fun _ => finishes_checkCount what expected args)
    (Run.grows_checkCount what expected args)

theorem watches_watchFields (within : WatchesAll watch activate) {size : Nat}
    (h : fr.Within size) (frames : above.Within size) (fs : List FieldDecl) :
    Watches size (watchFields t watch above fr fs) (initFields t activate fr fs)
      fun size' _ => fr.Within size' := by
  induction fs generalizing size with
  | nil => exact watches_pure fun _ grown => h.mono grown
  | cons f fs ih =>
    rw [watchFields, initFields]
    cases value : f.value with
    | none => exact ih h frames
    | some e =>
      refine (watches_watchExpr within h frames e).bind fun v _ grown hv => ?_
      have h' := h.mono grown
      have frames' := frames.mono grown
      have set := watches_step
        (fun _ => Run.finishes_setField h'.this f.name hv fun o => .unknownField o.cls.name f.name)
        (Run.grows_setField fr.this f.name v _)
      refine Watches.bind (set.noting_frames fun _ _ grown' _ => (frames'.cons h').mono grown')
        fun _ _ grown' _ => ?_
      exact ih (h'.mono grown') (frames'.mono grown')

theorem watches_watchMethod (within : WatchesAll watch activate) {size this : Nat}
    {module : String} {m : Method} {args : List Value}
    (h : (Activation.method this module m args).Within size) (frames : above.Within size) :
    Watches size (watchMethod t budget watch above this module m args)
      (runMethod t budget activate this module m args) fun size' v => v.Within size' := by
  refine (watches_tick budget).bind fun _ size₁ grown _ => ?_
  have fits : Frame.Within size₁
      ⟨this, module, some m, [((m.sig.params.map (·.name)).zip args).reverse]⟩ :=
    ⟨Nat.lt_of_lt_of_le h.1 grown, List.forall_mem_singleton.2
      (Scope.Within.arguments fun v mem => (h.2 v mem).mono grown)⟩
  have frames₁ := frames.mono grown
  refine Watches.bind ((watches_checkCount _ _ args).noting_frames fun _ _ grown' _ =>
    (frames₁.cons fits).mono grown') fun _ _ grown' _ => ?_
  refine (watches_watchScope (watches_watchStmts within (fits.mono grown').enter
    (frames₁.mono grown') m.body)).bind fun r _ _ ends => watches_pure fun _ last => ?_
  obtain ⟨fr', result⟩ := r
  cases result with
  | none => exact trivial
  | some v => exact (ends.2 v rfl).mono last

/-- An object that is created is noted as soon as it is on the heap, whether or not its fields get
their initial values and its initial block ends. -/
theorem watches_watchCreation (within : WatchesAll watch activate) {size : Nat}
    {c : Entry ClassDecl} {args : List Value} (values : ∀ v ∈ args, v.Within size)
    (frames : above.Within size) :
    Watches size (watchCreation t budget watch above c args) (createObject t budget activate c args)
      fun size' v => v.Within size' := by
  refine (watches_checkCount _ _ args).bind fun _ size₁ grown _ => ?_
  have fields : Scope.Within size₁ (Object.create c args).fields := by
    refine Scope.Within.append (fun nv mem => ?_)
      (Scope.Within.arguments fun v mem => (values v mem).mono grown)
    obtain ⟨f, -, rfl⟩ := List.mem_map.1 mem
    trivial
  have fits {size' id : Nat} (here : id < size') : Frame.Within size' ⟨id, c.module, none, [[]]⟩ :=
    ⟨here, List.forall_mem_singleton.2 .nil⟩
  have frames₁ := frames.mono grown
  have allocated := watches_step (fun _ => Run.finishes_allocate fields) (Run.grows_allocate _)
  refine Watches.bind (allocated.noting_frames fun _ _ grown' here =>
    (frames₁.mono grown').cons (fits here)) fun id size₂ grown' here => ?_
  -- From here on the object is on the heap, also if what follows stops.
  have frames₂ := frames₁.mono grown'
  refine (watches_watchFields within (fits here) frames₂ c.decl.fields).bind
    fun _ size₃ grown'' fits' => ?_
  refine (watches_watchScope (watches_watchStmts within fits'.enter (frames₂.mono grown'') _)).bind
    fun r size₄ large _ => watches_pure fun _ last => ?_
  exact Nat.lt_of_lt_of_le fits'.this (large.trans last)

end

/-- Activations are watched however deep they are nested. -/
theorem watches_watchActivation (t : SymbolTable) (budget depth : Nat) :
    WatchesAll (watchActivation t budget depth) (activate t budget depth) := by
  induction depth with
  | zero => exact fun _ _ _ _ _ => Watched.watches_tooDeep
  | succ depth ih =>
    intro size above a frames h
    cases a with
    | method this module m args => exact watches_watchMethod ih h frames
    | creation c args => exact watches_watchCreation ih h frames

end DeltaLang
