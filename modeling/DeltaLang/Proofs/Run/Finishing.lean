import DeltaLang.Proofs.Names.Resolve
import DeltaLang.Proofs.Run.References

/-!
# Runs that finish

A run finishes if it yields a value or stops for a fault, and neither nests activations too deep nor
follows a reference to an object that is not there.  Where the activations within finish, evaluating
expressions and executing statements finish: the steps left fall with every statement and every
round of a loop, so that loops have rounds enough.  Statements are executed after a step, and so
only need activations to finish that have fewer steps left; an expression needs creations of the
classes that it names to finish with as many.
-/

namespace DeltaLang

/-- Whether the run stops for a fault. -/
def Stop.isFault : Stop → Bool
  | fault _ => true
  | _ => false

/-- The store is closed, of at least that size, and has no more steps left than the bound. -/
structure Store.Within (size bound : Nat) (s : Store) : Prop where
  closed : s.Closed
  size : size ≤ s.heap.size
  fuel : s.fuel ≤ bound

theorem Store.Within.mono {size size' bound bound' : Nat} {s : Store} (h : s.Within size' bound')
    (grown : size ≤ size') (less : bound' ≤ bound) : s.Within size bound :=
  ⟨h.closed, Nat.le_trans grown h.size, Nat.le_trans h.fuel less⟩

namespace Run

variable {α β : Type} {size bound : Nat} {x : Run α} {f : α → Run β} {Q : Nat → α → Prop}
  {R : Nat → β → Prop}

/-- From a store of at least that size, with a bound on the steps left, the run yields a value or
stops for a fault. -/
def Finishes (size bound : Nat) (x : Run α) (Q : Nat → α → Prop) : Prop :=
  Ensures (Store.Within size bound) x
    (fun v s => s.Within size bound ∧ Q s.heap.size v)
    (fun e s => s.Within size bound ∧ e.isFault = true)

theorem Finishes.run (h : Finishes size bound x Q) {s : Store} (within : s.Within size bound) :
    (ExceptT.run x s).2.Within size bound ∧
      ∀ e, (ExceptT.run x s).1 = .error e → e.isFault = true := by
  obtain ⟨value, stop⟩ := h s within
  rcases result : ExceptT.run x s with ⟨e | v, s'⟩
  · refine ⟨(stop e s' result).1, fun e' he => ?_⟩
    cases he
    exact (stop e s' result).2
  · exact ⟨(value v s' result).1, fun e he => by cases he⟩

/-! ## Building runs -/

theorem Finishes.bind (h : Finishes size bound x Q)
    (hf : ∀ v size', size ≤ size' → Q size' v → Finishes size' bound (f v) R) :
    Finishes size bound (x >>= f) R := by
  refine Ensures.bind h fun v s ⟨within, result⟩ => ?_
  obtain ⟨value, stop⟩ := hf v s.heap.size within.size result s
    ⟨within.closed, Nat.le_refl _, within.fuel⟩
  exact ⟨fun v' s' eq => (value v' s' eq).imp_left fun h => h.mono within.size (Nat.le_refl _),
    fun e s' eq => (stop e s' eq).imp_left fun h => h.mono within.size (Nat.le_refl _)⟩

theorem finishes_pure {v : α} (h : ∀ size', size ≤ size' → Q size' v) :
    Finishes size bound (pure v) Q :=
  ensures_pure fun s within => ⟨within, h s.heap.size within.size⟩

theorem finishes_fault (flt : Fault) : Finishes size bound (fault flt : Run α) Q :=
  ensures_fault fun _ within => ⟨within, rfl⟩

theorem finishes_ofExcept {r : Except Fault α}
    (h : ∀ v size', r = .ok v → size ≤ size' → Q size' v) : Finishes size bound (ofExcept r) Q :=
  ensures_ofExcept (fun v s eq within => ⟨within, h v s.heap.size eq within.size⟩)
    fun _ _ _ within => ⟨within, rfl⟩

/-- A run that reads the store may take the steps left for the bound. -/
theorem finishes_get {f : Store → Run α} (h : ∀ s, s.fuel ≤ bound → Finishes size s.fuel (f s) Q) :
    Finishes size bound ((get : Run Store) >>= f) Q := by
  intro s within
  obtain ⟨value, stop⟩ := h s within.fuel s { within with fuel := Nat.le_refl _ }
  exact ⟨fun v s' eq => (value v s' eq).imp_left fun h => h.mono (Nat.le_refl _) within.fuel,
    fun e s' eq => (stop e s' eq).imp_left fun h => h.mono (Nat.le_refl _) within.fuel⟩

/-- After a step the bound is lower. -/
theorem finishes_tick {budget : Nat} (h : ∀ n < bound, Finishes size n x Q) :
    Finishes size bound (tick budget >>= fun _ => x) Q := by
  have step : Ensures (Store.Within size bound) (tick budget)
      (fun _ s => ∃ n < bound, s.Within size n) fun e s => s.Within size bound ∧ e.isFault = true :=
    ensures_tick (fun s n fuel within => ⟨n, Nat.lt_of_lt_of_le (by omega) within.fuel,
      ⟨within.closed, within.size, Nat.le_refl n⟩⟩) fun _ _ within => ⟨within, rfl⟩
  refine Ensures.bind step fun _ s ⟨n, less, within⟩ => ?_
  obtain ⟨value, stop⟩ := h n less s within
  have weaken {s' : Store} (h : s'.Within size n) : s'.Within size bound :=
    h.mono (Nat.le_refl _) (Nat.le_of_lt less)
  exact ⟨fun v s' eq => (value v s' eq).imp_left weaken, fun e s' eq =>
    (stop e s' eq).imp_left weaken⟩

/-! ## Objects in the heap -/

theorem not_missing {s : Store} {id : Nat} (within : s.Within size bound) (here : id < size) :
    s.heap[id]? ≠ none := fun missing =>
  Nat.not_lt.2 (Array.getElem?_eq_none_iff.1 missing) (Nat.lt_of_lt_of_le here within.size)

theorem finishes_object {id : Nat} (here : id < size) :
    Finishes size bound (object id) fun size' o => Scope.Within size' o.fields :=
  ensures_object (fun _ o found within => ⟨within, within.closed o (Array.mem_of_getElem? found)⟩)
    fun _ missing within => absurd missing (not_missing within here)

theorem finishes_allocate {o : Object} (fields : Scope.Within size o.fields) :
    Finishes size bound (allocate o) fun size' id => id < size' := by
  refine ensures_allocate fun s within => ?_
  have grown : s.heap.size < (s.heap.push o).size := by
    rw [Array.size_push]
    exact Nat.lt_succ_self _
  exact ⟨⟨within.closed.push (fields.mono within.size),
    Nat.le_trans within.size (Nat.le_of_lt grown), within.fuel⟩, grown⟩

theorem finishes_setField {id : Nat} (here : id < size) (name : String) {v : Value}
    (value : v.Within size) (otherwise : Object → Fault) :
    Finishes size bound (setField id name v otherwise) fun _ _ => True := by
  refine ensures_setField (fun s o old _ _ within => ?_)
    (fun _ missing within => absurd missing (not_missing within here))
    fun _ _ _ _ within => ⟨within, rfl⟩
  refine ⟨⟨within.closed.modify fun o mem => ?_, ?_, within.fuel⟩, trivial⟩
  · exact (within.closed o mem).assignName (value.mono within.size) name
  · rw [Array.size_modify]
    exact within.size

end Run

/-! ## Names -/

section

open Run

variable {size bound : Nat} {fr : Frame}

/-- If the activation creates an object, then one of an allowed class. -/
def Activation.Creates (allowed : Entry ClassDecl → Prop) : Activation → Prop
  | .method .. => True
  | .creation c _ => allowed c

theorem finishes_dispatch {receiver : Nat} (here : receiver < size) (method : String)
    {args : List Value} (values : ∀ v ∈ args, v.Within size) (allowed : Entry ClassDecl → Prop) :
    Finishes size bound (dispatch receiver method args) fun size' a =>
      a.Within size' ∧ a.Creates allowed := by
  refine (finishes_object here).bind fun o size' grown _ => ?_
  split
  · exact finishes_pure fun size'' grown' => ⟨⟨Nat.lt_of_lt_of_le here (Nat.le_trans grown grown'),
      fun v mem => (values v mem).mono (Nat.le_trans grown grown')⟩, trivial⟩
  · exact finishes_fault _

theorem Frame.Within.original (h : fr.Within size) {args : List Value}
    (values : ∀ v ∈ args, v.Within size) (allowed : Entry ClassDecl → Prop) {a : Activation}
    (original : fr.original args = .ok a) : a.Within size ∧ a.Creates allowed := by
  unfold Frame.original at original
  split at original
  · cases original
  · split at original <;> cases original
    exact ⟨⟨h.this, values⟩, trivial⟩

theorem finishes_field {o : Object} (fields : Scope.Within size o.fields) (name : String)
    (otherwise : Fault) :
    Finishes size bound
      (match o.field? name with
        | some v => pure v
        | none => fault otherwise : Run Value) fun size' v => v.Within size' := by
  cases found : o.field? name with
  | some v => exact finishes_pure fun size' grown => (fields.lookup found).mono grown
  | none => exact finishes_fault _

theorem finishes_evalVar (h : fr.Within size) (name : String) :
    Finishes size bound (evalVar fr name) fun size' v => v.Within size' := by
  unfold evalVar
  split
  · exact finishes_pure fun size' grown => (h.lookup ‹_›).mono grown
  · exact (finishes_object h.this).bind fun o size' _ fields => finishes_field fields name _

theorem finishes_evalField (h : fr.Within size) (name : String) :
    Finishes size bound (evalField fr name) fun size' v => v.Within size' :=
  (finishes_object h.this).bind fun _ _ _ fields => finishes_field fields name _

end

/-! ## Expressions -/

namespace Expr

mutual

/-- The names of the classes that evaluating the expression may create objects of. -/
def created : Expr → List String
  | bool .. | int .. | str .. | null .. | this .. | var .. | field .. => []
  | unary _ e _ => created e
  | binary _ l r _ => created l ++ created r
  | call t _ as _ _ => created t ++ createdByAny as
  | get e _ => created e
  | new cls as _ _ => cls :: createdByAny as
  | original as _ => createdByAny as

/-- The names of the classes that evaluating the expressions may create objects of. -/
def createdByAny : List Expr → List String
  | [] => []
  | e :: es => created e ++ createdByAny es

end

end Expr

section

open Run

variable {t : SymbolTable} {budget : Nat} {activate : Activation → Run Value}
  {allowed : Entry ClassDecl → Prop} {fr : Frame} {bound : Nat}

/-- With a bound on the steps left, activations finish that create objects of allowed classes
only. -/
def Run.FinishAll (bound : Nat) (allowed : Entry ClassDecl → Prop)
    (activate : Activation → Run Value) : Prop :=
  ∀ size a, a.Within size → a.Creates allowed →
    Finishes size bound (activate a) fun size' v => v.Within size'

/-- In the module, the names mean classes that are allowed. -/
def SymbolTable.Allows (t : SymbolTable) (module : String) (allowed : Entry ClassDecl → Prop)
    (names : List String) : Prop :=
  ∀ name ∈ names, ∀ c, t.classNamed (some module) name = .ok c → allowed c

mutual

theorem finishes_evalExpr (within : FinishAll bound allowed activate) {size : Nat}
    (h : fr.Within size) :
    (e : Expr) → t.Allows fr.module allowed e.created →
      Finishes size bound (evalExpr t activate fr e) fun size' v => v.Within size'
  | .bool .., _ | .int .., _ | .str .., _ | .null _, _ => by
    rw [evalExpr]
    exact finishes_pure fun _ _ => trivial
  | .this _, _ => by
    rw [evalExpr]
    exact finishes_pure fun _ grown => Nat.lt_of_lt_of_le h.this grown
  | .var name _, _ => by
    rw [evalExpr]
    exact finishes_evalVar h name
  | .field name _, _ => by
    rw [evalExpr]
    exact finishes_evalField h name
  | .unary op operand _, names => by
    rw [evalExpr]
    refine (finishes_evalExpr within h operand names).bind fun v _ _ _ => ?_
    exact finishes_ofExcept fun _ _ result _ => UnaryOp.within_apply result
  | .binary op lhs rhs _, names => by
    obtain ⟨left, right⟩ := List.forall_mem_append.1 names
    rw [evalExpr]
    refine (finishes_evalExpr within h lhs left).bind fun a _ grown _ => ?_
    refine (finishes_ofExcept (Q := fun _ r => op.first a = .ok r) fun _ _ eq _ => eq).bind
      fun first _ grown' isFirst => ?_
    split
    · exact finishes_pure fun _ _ => BinaryOp.within_first isFirst
    · refine (finishes_evalExpr within ((h.mono grown).mono grown') rhs right).bind
        fun b _ _ _ => ?_
      exact finishes_ofExcept fun _ _ result _ => BinaryOp.within_both result
  | .call target method args async _, names => by
    obtain ⟨ofTarget, ofArgs⟩ := List.forall_mem_append.1 names
    rw [evalExpr]
    refine (finishes_evalExpr within h target ofTarget).bind fun v _ grown hv => ?_
    refine (finishes_ofExcept (Q := fun size' id => id < size') fun id _ result grown' => ?_).bind
      fun receiver _ grown' here => ?_
    · cases v <;> cases result
      exact Nat.lt_of_lt_of_le hv grown'
    · refine (finishes_evalExprs within ((h.mono grown).mono grown') args ofArgs).bind
        fun values _ grown'' hvalues => ?_
      refine (finishes_dispatch (Nat.lt_of_lt_of_le here grown'') method hvalues allowed).bind
        fun a _ _ ha => ?_
      refine (within _ a ha.1 ha.2).bind fun result _ _ hresult => ?_
      refine finishes_pure fun _ last => ?_
      split
      · exact hresult.mono last
      · exact hresult.mono last
  | .get future _, names => by
    rw [evalExpr]
    refine (finishes_evalExpr within h future names).bind fun v _ _ hv => ?_
    exact finishes_ofExcept fun _ _ result grown => (Value.within_awaited result hv).mono grown
  | .new cls args _ _, names => by
    obtain ⟨ofClass, ofArgs⟩ := List.forall_mem_cons.1 names
    rw [evalExpr]
    refine (finishes_evalExprs within h args ofArgs).bind fun values _ _ hvalues => ?_
    refine (finishes_ofExcept (Q := fun _ c => allowed c) fun c _ found _ => ofClass c found).bind
      fun c _ grown isAllowed => ?_
    exact within _ (.creation c values) (fun v mem => (hvalues v mem).mono grown) isAllowed
  | .original args _, names => by
    rw [evalExpr]
    refine (finishes_evalExprs within h args names).bind fun values _ grown hvalues => ?_
    refine (finishes_ofExcept (Q := fun size' a => a.Within size' ∧ a.Creates allowed)
      fun a _ found grown' => ?_).bind fun a _ _ ha => within _ a ha.1 ha.2
    exact ((h.mono grown).mono grown').original (fun v mem => (hvalues v mem).mono grown') allowed
      found

theorem finishes_evalExprs (within : FinishAll bound allowed activate) {size : Nat}
    (h : fr.Within size) :
    (es : List Expr) → t.Allows fr.module allowed (Expr.createdByAny es) →
      Finishes size bound (evalExprs t activate fr es) fun size' vs => ∀ v ∈ vs, v.Within size'
  | [], _ => by
    rw [evalExprs]
    exact finishes_pure fun _ _ => List.forall_mem_nil _
  | e :: es, names => by
    obtain ⟨first, rest⟩ := List.forall_mem_append.1 names
    rw [evalExprs]
    refine (finishes_evalExpr within h e first).bind fun v _ grown hv => ?_
    refine (finishes_evalExprs within (h.mono grown) es rest).bind fun vs _ grown' hvs => ?_
    exact finishes_pure fun _ last => List.forall_mem_cons.2
      ⟨(hv.mono grown').mono last, fun w mem => (hvs w mem).mono last⟩

end

/-! ## Statements -/

/-- Everywhere names of classes mean classes. -/
theorem SymbolTable.allows_classes (t : SymbolTable) (module : String) (names : List String) :
    t.Allows module (· ∈ t.classes) names := by
  intro name _ c found
  unfold classNamed at found
  split at found <;> cases found
  exact Namespace.mem_of_resolve_eq_ok ‹_›

/-- After statements the frame, and the value that is returned if any, are within the heap. -/
def EndsWithin (size : Nat) (r : Frame × Option Value) : Prop :=
  r.1.Within size ∧ ∀ v ∈ r.2, v.Within size

theorem EndsWithin.none {size : Nat} {fr : Frame} (h : fr.Within size) :
    EndsWithin size (fr, none) := ⟨h, fun _ mem => by cases mem⟩

theorem EndsWithin.some {size : Nat} {fr : Frame} {v : Value} (h : fr.Within size)
    (value : v.Within size) : EndsWithin size (fr, some v) :=
  ⟨h, fun _ mem => by cases mem; exact value⟩

theorem EndsWithin.mono {size size' : Nat} {r : Frame × Option Value} (h : EndsWithin size r)
    (grown : size ≤ size') : EndsWithin size' r :=
  ⟨h.1.mono grown, fun v mem => (h.2 v mem).mono grown⟩

theorem finishes_evalCond (within : FinishAll bound allowed activate) {size : Nat}
    (h : fr.Within size) {cond : Expr} (names : t.Allows fr.module allowed cond.created) :
    Finishes size bound (evalCond t activate fr cond) fun _ _ => True :=
  (finishes_evalExpr within h cond names).bind fun _ _ _ _ =>
    finishes_ofExcept fun _ _ _ _ => trivial

theorem finishes_assignTarget {size : Nat} (h : fr.Within size) {v : Value} (value : v.Within size)
    (target : Target) :
    Finishes size bound (assignTarget fr v target) fun size' fr' => fr'.Within size' := by
  cases target with
  | var name =>
    simp only [assignTarget, assignVar]
    split
    · exact finishes_pure fun _ grown => (h.assign? value ‹_›).mono grown
    · exact (finishes_setField h.this name value _).bind fun _ _ grown _ =>
        finishes_pure fun _ grown' => (h.mono grown).mono grown'
  | field name =>
    exact (finishes_setField h.this name value _).bind fun _ _ grown _ =>
      finishes_pure fun _ grown' => (h.mono grown).mono grown'

theorem finishes_withScope {size : Nat} {block : Frame → Run (Frame × Option Value)}
    (h : Finishes size bound (block fr.enter) EndsWithin) :
    Finishes size bound (withScope fr block) EndsWithin :=
  h.bind fun (_, _) _ _ ends => finishes_pure fun _ grown =>
    EndsWithin.mono ⟨ends.1.leave, ends.2⟩ grown

/-- A loop with rounds enough, as it takes a step each round. -/
theorem finishes_repeatWhile {cond : Frame → Run Bool} {body : Frame → Run (Frame × Option Value)}
    (start : Nat) (hcond : ∀ size fr n, n ≤ start → fr.Within size →
      Finishes size n (cond fr) fun _ _ => True)
    (hbody : ∀ size fr n, n ≤ start → fr.Within size → Finishes size n (body fr) EndsWithin)
    (rounds : Nat) {bound : Nat} (enough : bound < rounds) (less : bound ≤ start) {size : Nat}
    {fr : Frame} (h : fr.Within size) :
    Finishes size bound (repeatWhile budget cond body rounds fr) EndsWithin := by
  induction rounds generalizing bound size fr with
  | zero => exact absurd enough (Nat.not_lt_zero bound)
  | succ rounds ih =>
    refine (hcond size fr bound less h).bind fun holds size₁ grown _ => ?_
    have h₁ := h.mono grown
    split
    · refine (hbody size₁ fr bound less h₁).bind fun (fr', result) size₂ _ ends => ?_
      cases result with
      | some v => exact finishes_pure fun _ grown' => ends.mono grown'
      | none => exact finishes_tick fun n fewer => ih (by omega) (by omega) ends.1
    · exact finishes_pure fun _ grown' => .none (h₁.mono grown')

mutual

theorem finishes_execStmt {bound : Nat}
    (within : ∀ n < bound, FinishAll n (· ∈ t.classes) activate) {size : Nat} {fr : Frame}
    (h : fr.Within size) :
    (s : Stmt) → Finishes size bound (execStmt t budget activate fr s) EndsWithin
  | .skip _ => by
    rw [execStmt]
    exact finishes_tick fun n _ => finishes_pure fun _ grown => .none (h.mono grown)
  | .ret value _ => by
    rw [execStmt]
    refine finishes_tick fun n less => ?_
    refine (finishes_evalExpr (within n less) h value (t.allows_classes _ _)).bind
      fun v _ grown hv => finishes_pure fun _ grown' => ?_
    exact .some ((h.mono grown).mono grown') (hv.mono grown')
  | .decl _ name none _ => by
    rw [execStmt]
    exact finishes_tick fun n _ => finishes_pure fun _ grown =>
      .none (Frame.Within.bind (v := .null) (h.mono grown) trivial name)
  | .decl _ name (some value) _ => by
    rw [execStmt]
    refine finishes_tick fun n less => ?_
    refine (finishes_evalExpr (within n less) h value (t.allows_classes _ _)).bind
      fun v _ grown hv => finishes_pure fun _ grown' => ?_
    exact .none (((h.mono grown).mono grown').bind (hv.mono grown') name)
  | .assign target value _ => by
    rw [execStmt]
    refine finishes_tick fun n less => ?_
    refine (finishes_evalExpr (within n less) h value (t.allows_classes _ _)).bind
      fun v _ grown hv => ?_
    exact (finishes_assignTarget (h.mono grown) hv target).bind fun _ _ _ ends =>
      finishes_pure fun _ grown' => .none (ends.mono grown')
  | .ite cond yes none _ => by
    rw [execStmt]
    refine finishes_tick fun n less => ?_
    have within' := fun k (fewer : k < n) => within k (Nat.lt_trans fewer less)
    refine (finishes_evalCond (within n less) h (t.allows_classes _ _)).bind
      fun holds _ grown _ => ?_
    split
    · exact finishes_withScope (finishes_execStmts within' (h.mono grown).enter yes)
    · exact finishes_pure fun _ grown' => .none ((h.mono grown).mono grown')
  | .ite cond yes (some no) _ => by
    rw [execStmt]
    refine finishes_tick fun n less => ?_
    have within' := fun k (fewer : k < n) => within k (Nat.lt_trans fewer less)
    refine (finishes_evalCond (within n less) h (t.allows_classes _ _)).bind
      fun holds _ grown _ => ?_
    split
    · exact finishes_withScope (finishes_execStmts within' (h.mono grown).enter yes)
    · exact finishes_withScope (finishes_execStmts within' (h.mono grown).enter no)
  | .loop cond body _ => by
    rw [execStmt]
    refine finishes_tick fun n less => finishes_get fun s left => ?_
    refine finishes_repeatWhile s.fuel (fun _ _ k fewer h' => ?_) (fun _ _ k fewer h' => ?_) _
      (Nat.lt_succ_self _) (Nat.le_refl _) h
    · exact finishes_evalCond (within k (by omega)) h' (t.allows_classes _ _)
    · have within' := fun i (fewer' : i < k) => within i (by omega)
      exact finishes_withScope (finishes_execStmts within' h'.enter body)
  | .eval value _ => by
    rw [execStmt]
    refine finishes_tick fun n less => ?_
    exact (finishes_evalExpr (within n less) h value (t.allows_classes _ _)).bind fun _ _ grown _ =>
      finishes_pure fun _ grown' => .none ((h.mono grown).mono grown')

theorem finishes_execStmts {bound : Nat}
    (within : ∀ n < bound, FinishAll n (· ∈ t.classes) activate) {size : Nat} {fr : Frame}
    (h : fr.Within size) :
    (ss : List Stmt) → Finishes size bound (execStmts t budget activate fr ss) EndsWithin
  | [] => by
    rw [execStmts]
    exact finishes_pure fun _ grown => .none (h.mono grown)
  | s :: ss => by
    rw [execStmts]
    refine (finishes_execStmt within h s).bind fun (fr', result) _ _ ends => ?_
    cases result with
    | none => exact finishes_execStmts within ends.1 ss
    | some v => exact finishes_pure fun _ grown => ends.mono grown

end

/-! ## Activations -/

theorem finishes_checkCount (what : String) (expected : Nat) (args : List Value) {size : Nat} :
    Finishes size bound (checkCount what expected args) fun _ _ => True := by
  unfold checkCount
  split
  · exact finishes_pure fun _ _ => trivial
  · exact finishes_fault _

/-- Initial values are evaluated without a step, and only create objects of allowed classes. -/
theorem finishes_initFields (within : FinishAll bound allowed activate) {size : Nat}
    (h : fr.Within size) (fs : List FieldDecl)
    (names : ∀ f ∈ fs, ∀ e, f.value = some e → t.Allows fr.module allowed e.created) :
    Finishes size bound (initFields t activate fr fs) fun size' _ => fr.Within size' := by
  induction fs generalizing size with
  | nil => exact finishes_pure fun _ grown => h.mono grown
  | cons f fs ih =>
    rw [List.forall_mem_cons] at names
    rw [initFields]
    cases value : f.value with
    | none => exact ih h names.2
    | some e =>
      refine (finishes_evalExpr within h e (names.1 e value)).bind fun v _ grown hv => ?_
      have h' := h.mono grown
      exact (finishes_setField h'.this f.name hv _).bind fun _ _ grown' _ =>
        ih (h'.mono grown') names.2

theorem finishes_runMethod (within : ∀ n < bound, FinishAll n (· ∈ t.classes) activate) {size : Nat}
    {this : Nat} {module : String} {m : Method} {args : List Value}
    (h : (Activation.method this module m args).Within size) :
    Finishes size bound (runMethod t budget activate this module m args)
      fun size' v => v.Within size' := by
  refine finishes_tick fun n less => (finishes_checkCount _ _ args).bind fun _ size' grown _ => ?_
  have fits : Frame.Within size'
      ⟨this, module, some m, [((m.sig.params.map (·.name)).zip args).reverse]⟩ :=
    ⟨Nat.lt_of_lt_of_le h.1 grown, List.forall_mem_singleton.2
      (Scope.Within.arguments fun v mem => (h.2 v mem).mono grown)⟩
  have within' := fun k (fewer : k < n) => within k (Nat.lt_trans fewer less)
  refine (finishes_withScope (finishes_execStmts within' fits.enter m.body)).bind
    fun (_, result) _ _ ends => finishes_pure fun _ grown' => ?_
  cases result with
  | none => exact trivial
  | some v => exact (ends.2 v rfl).mono grown'

/-- Creating an object finishes if initial values only create objects of classes for which creation
finishes with as many steps left. -/
theorem finishes_createObject (initial : FinishAll bound allowed activate)
    (within : ∀ n < bound, FinishAll n (· ∈ t.classes) activate) {size : Nat}
    {c : Entry ClassDecl} {args : List Value} (values : ∀ v ∈ args, v.Within size)
    (names : ∀ f ∈ c.decl.fields, ∀ e, f.value = some e → t.Allows c.module allowed e.created) :
    Finishes size bound (createObject t budget activate c args) fun size' v => v.Within size' := by
  refine (finishes_checkCount _ _ args).bind fun _ size₁ grown _ => ?_
  have fields : Scope.Within size₁ (Object.create c args).fields := by
    refine Scope.Within.append (fun nv mem => ?_)
      (Scope.Within.arguments fun v mem => (values v mem).mono grown)
    obtain ⟨f, -, rfl⟩ := List.mem_map.1 mem
    trivial
  refine (finishes_allocate fields).bind fun id size₂ _ here => ?_
  have fits : Frame.Within size₂ ⟨id, c.module, none, [[]]⟩ :=
    ⟨here, List.forall_mem_singleton.2 .nil⟩
  refine (finishes_initFields initial fits c.decl.fields names).bind fun _ _ grown' fits' => ?_
  refine (finishes_withScope (finishes_execStmts within fits'.enter _)).bind
    fun (_, _) _ grown'' _ => ?_
  exact finishes_pure fun _ last => Nat.lt_of_lt_of_le fits'.this (Nat.le_trans grown'' last)

end

end DeltaLang
