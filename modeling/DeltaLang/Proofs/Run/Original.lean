import DeltaLang.Proofs.Delta.Composition
import DeltaLang.Proofs.Run.Faults
import DeltaLang.Proofs.Run.Rules
import DeltaLang.Proofs.Typing.Reported

/-!
# Calls of the original never fail

In a compiled program the oldest version of every method calls no version before it, and nothing
outside of methods does.  Running keeps every activation like that: a version that calls
`original(..)` has an older one, and the chain seen from there ends in the same oldest version.
So no run stops because there is no original.
-/

namespace DeltaLang

/-! ## Grounded methods and classes -/

/-- The oldest version calls no version before it. -/
def Method.Grounded (m : Method) : Prop :=
  ∀ v, m.versions.getLast? = some v → v.callsOriginal = false

namespace Method

variable {m old : Method}

theorem grounded_of_unboundOriginals (cls : String)
    (h : (SymbolTable.unboundOriginals cls m).any Diagnostic.isError = false) : m.Grounded := by
  intro v hv
  cases calls : v.callsOriginal with
  | false => rfl
  | true =>
    simp [SymbolTable.unboundOriginals, hv, calls, Diagnostic.errorAt, Diagnostic.isError] at h

theorem Grounded.original (h : m.Grounded) (ho : m.original? = some old) : old.Grounded := by
  intro v hv
  refine h v ?_
  obtain ⟨current, _ | ⟨w, older⟩⟩ := m <;> cases ho
  rw [← hv]
  simp [versions, List.getLast?_cons_cons]

theorem Grounded.callsOriginal (h : m.Grounded) (ho : m.original? = none) :
    m.body.callsOriginal = false := by
  obtain ⟨current, _ | ⟨w, older⟩⟩ := m
  · exact h current (by simp [versions])
  · cases ho

end Method

/-- All methods are grounded, and nothing else calls `original(..)`. -/
structure ClassDecl.Grounded (c : ClassDecl) : Prop where
  methods : ∀ m ∈ c.methods, m.Grounded
  fields : ∀ f ∈ c.fields, ∀ e, f.value = some e → e.callsOriginal = false
  init : (c.init.getD []).callsOriginal = false

/-- All classes are grounded. -/
def SymbolTable.Grounded (t : SymbolTable) : Prop := ∀ c ∈ t.classes, c.decl.Grounded

def Activation.Grounded : Activation → Prop
  | .method _ _ m _ => m.Grounded
  | .creation c _ => c.decl.Grounded

/-- All objects are of grounded classes. -/
def Store.Grounded (s : Store) : Prop := ∀ o ∈ s.heap, o.cls.decl.Grounded

/-- If the code calls `original(..)`, then the method that runs has a version before. -/
def Frame.Covers (fr : Frame) (calls : Bool) : Prop :=
  calls = true → ∃ m old, fr.method = some m ∧ m.original? = some old ∧ old.Grounded

namespace Frame.Covers

variable {fr fr' : Frame} {a b : Bool}

theorem of_false (fr : Frame) : fr.Covers false := fun h => by cases h

theorem left (h : fr.Covers (a || b)) : fr.Covers a := fun ha => h (by simp [ha])

theorem right (h : fr.Covers (a || b)) : fr.Covers b := fun hb => h (by simp [hb])

theorem all (h : fr.Covers true) (b : Bool) : fr.Covers b := fun _ => h rfl

theorem congr (h : fr.Covers a) (same : fr'.method = fr.method) : fr'.Covers a := fun ha => by
  rw [same]
  exact h ha

end Frame.Covers

/-! ## Runs that do not stop for lack of an original -/

/-- Whether the fault is that there is no original. -/
def Fault.isNoOriginal : Fault → Bool
  | noOriginal _ => true
  | _ => false

theorem Fault.isNoOriginal_of_ofValues {flt : Fault} (h : flt.ofValues = true) :
    flt.isNoOriginal = false := by
  cases flt <;> first | rfl | cases h

def Stop.isNoOriginal : Stop → Bool
  | fault f => f.isNoOriginal
  | _ => false

namespace Run

variable {α β : Type} {Q : α → Prop} {R : β → Prop} {x : Run α} {f : α → Run β}

/-- The run keeps all objects grounded, and does not stop for lack of an original. -/
def Safe (x : Run α) (Q : α → Prop) : Prop :=
  Ensures Store.Grounded x (fun v s => s.Grounded ∧ Q v)
    (fun e s => s.Grounded ∧ e.isNoOriginal = false)

/-- The activations of grounded methods and classes run safely. -/
def SafeActivations (activate : Activation → Run Value) : Prop :=
  ∀ a, a.Grounded → Safe (activate a) fun _ => True

theorem Safe.run (h : Safe x Q) {s : Store} (hs : s.Grounded) :
    (ExceptT.run x s).2.Grounded ∧
      ∀ e, (ExceptT.run x s).1 = .error e → e.isNoOriginal = false := by
  obtain ⟨value, stop⟩ := h s hs
  rcases result : ExceptT.run x s with ⟨e | v, s'⟩
  · refine ⟨(stop e s' result).1, fun e' he => ?_⟩
    cases he
    exact (stop e s' result).2
  · exact ⟨(value v s' result).1, fun e he => by cases he⟩

theorem Safe.bind (h : Safe x Q) (hf : ∀ v, Q v → Safe (f v) R) : Safe (x >>= f) R :=
  Ensures.bind h fun v => Ensures.assuming (hf v)

theorem safe_pure {v : α} (h : Q v) : Safe (pure v) Q := ensures_pure fun _ hs => ⟨hs, h⟩

theorem safe_throw {e : Stop} (h : e.isNoOriginal = false) : Safe (throw e : Run α) Q :=
  ensures_throw fun _ hs => ⟨hs, h⟩

theorem safe_fault {flt : Fault} (h : flt.isNoOriginal = false) : Safe (fault flt : Run α) Q :=
  safe_throw h

theorem safe_ofExcept {r : Except Fault α} (ok : ∀ v, r = .ok v → Q v)
    (err : ∀ flt, r = .error flt → flt.isNoOriginal = false) : Safe (ofExcept r) Q :=
  ensures_ofExcept (fun v _ eq hs => ⟨hs, ok v eq⟩) fun flt _ eq hs => ⟨hs, err flt eq⟩

theorem safe_ofValues {r : Except Fault α}
    (err : ∀ flt, r = .error flt → flt.ofValues = true) : Safe (ofExcept r) fun _ => True :=
  safe_ofExcept (fun _ _ => trivial) fun flt eq => flt.isNoOriginal_of_ofValues (err flt eq)

theorem safe_get : Safe (get : Run Store) fun _ => True := ensures_get fun _ hs => ⟨hs, trivial⟩

theorem safe_tick (budget : Nat) : Safe (tick budget) fun _ => True :=
  ensures_tick (fun _ _ _ hs => ⟨hs, trivial⟩) fun _ _ hs => ⟨hs, rfl⟩

theorem safe_object (id : Nat) : Safe (object id) fun o => o.cls.decl.Grounded :=
  ensures_object (fun _ o found hs => ⟨hs, hs o (Array.mem_of_getElem? found)⟩)
    fun _ _ hs => ⟨hs, rfl⟩

theorem safe_allocate {o : Object} (h : o.cls.decl.Grounded) :
    Safe (allocate o) fun _ => True := by
  refine ensures_allocate fun s hs => ⟨fun o' ho' => ?_, trivial⟩
  rcases Array.mem_push.1 ho' with ho' | rfl
  · exact hs o' ho'
  · exact h

theorem safe_setField (id : Nat) (name : String) (v : Value) {otherwise : Object → Fault}
    (h : ∀ o, (otherwise o).isNoOriginal = false) :
    Safe (setField id name v otherwise) fun _ => True := by
  refine ensures_setField (fun s o old found _ hs => ⟨fun o' ho' => ?_, trivial⟩)
    (fun _ _ hs => ⟨hs, rfl⟩) fun _ o _ _ hs => ⟨hs, h o⟩
  obtain ⟨i, hi, rfl⟩ := Array.mem_iff_getElem.1 ho'
  have hi : i < s.heap.size := by simpa using hi
  rw [Array.getElem_modify]
  split
  · exact hs s.heap[i] (Array.getElem_mem hi)
  · exact hs s.heap[i] (Array.getElem_mem hi)

end Run

/-! ## Names -/

theorem Run.safe_dispatch (receiver : Nat) (method : String) (args : List Value) :
    Safe (dispatch receiver method args) Activation.Grounded := by
  refine (safe_object receiver).bind fun o ho => ?_
  split
  · exact safe_pure (ho.methods _ (List.mem_of_find?_eq_some ‹_›))
  · exact safe_fault rfl

theorem Frame.safe_original {fr : Frame} (h : fr.Covers true) (args : List Value) :
    Run.Safe (Run.ofExcept (fr.original args)) Activation.Grounded := by
  obtain ⟨m, old, hm, ho, grounded⟩ := h rfl
  simp only [Frame.original, hm, ho]
  exact Run.safe_pure grounded

namespace SymbolTable

variable {t : SymbolTable}

theorem Grounded.safe_classNamed (classes : t.Grounded) (frm : Option String) (name : String) :
    Run.Safe (Run.ofExcept (t.classNamed frm name)) fun c => c.decl.Grounded := by
  refine Run.safe_ofExcept (fun c hc => ?_) fun flt hflt => ?_
  · unfold classNamed at hc
    split at hc <;> cases hc
    exact classes _ (Namespace.mem_of_resolve_eq_ok ‹_›)
  · unfold classNamed at hflt
    split at hflt <;> cases hflt <;> rfl

end SymbolTable

/-! ## Expressions and statements -/

section

open Run

variable {t : SymbolTable} {budget : Nat} {activate : Activation → Run Value} {fr : Frame}

theorem safe_evalVar (name : String) : Safe (evalVar fr name) fun _ => True := by
  unfold evalVar
  split
  · exact safe_pure trivial
  · refine (safe_object fr.this).bind fun o _ => ?_
    split
    · exact safe_pure trivial
    · exact safe_fault rfl

theorem safe_evalField (name : String) : Safe (evalField fr name) fun _ => True := by
  refine (safe_object fr.this).bind fun o _ => ?_
  split
  · exact safe_pure trivial
  · exact safe_fault rfl

mutual

theorem safe_evalExpr (safe : SafeActivations activate) (classes : t.Grounded) :
    (e : Expr) → fr.Covers e.callsOriginal → Safe (evalExpr t activate fr e) fun _ => True
  | .bool .., _ | .int .., _ | .str .., _ | .null _, _ | .this _, _ => by
    rw [evalExpr]
    exact safe_pure trivial
  | .var name _, _ => by
    rw [evalExpr]
    exact safe_evalVar name
  | .field name _, _ => by
    rw [evalExpr]
    exact safe_evalField name
  | .unary op operand _, h => by
    rw [evalExpr]
    refine (safe_evalExpr safe classes operand h).bind fun v _ => ?_
    exact safe_ofValues fun _ => op.apply_fault
  | .binary op lhs rhs _, h => by
    rw [evalExpr]
    refine (safe_evalExpr safe classes lhs h.left).bind fun a _ => ?_
    refine (safe_ofValues fun _ => BinaryOp.first_fault).bind fun result _ => ?_
    split
    · exact safe_pure trivial
    · refine (safe_evalExpr safe classes rhs h.right).bind fun b _ => ?_
      exact safe_ofValues fun _ => BinaryOp.both_fault
  | .call target method args async _, h => by
    rw [evalExpr]
    refine (safe_evalExpr safe classes target h.left).bind fun v _ => ?_
    refine (safe_ofValues fun _ => v.asReceiver_fault).bind fun receiver _ => ?_
    refine (safe_evalExprs safe classes args h.right).bind fun values _ => ?_
    refine (safe_dispatch receiver method values).bind fun a ha => ?_
    exact (safe a ha).bind fun result _ => safe_pure trivial
  | .get future _, h => by
    rw [evalExpr]
    refine (safe_evalExpr safe classes future h).bind fun v _ => ?_
    exact safe_ofValues fun _ => v.awaited_fault
  | .new cls args _ _, h => by
    rw [evalExpr]
    refine (safe_evalExprs safe classes args h).bind fun values _ => ?_
    refine (classes.safe_classNamed (some fr.module) cls).bind fun c hc => ?_
    exact safe (.creation c values) hc
  | .original args _, h => by
    rw [evalExpr]
    refine (safe_evalExprs safe classes args (h.all _)).bind fun values _ => ?_
    exact (fr.safe_original h values).bind safe

theorem safe_evalExprs (safe : SafeActivations activate) (classes : t.Grounded) :
    (es : List Expr) → fr.Covers (Expr.anyCallsOriginal es) →
      Safe (evalExprs t activate fr es) fun _ => True
  | [], _ => by
    rw [evalExprs]
    exact safe_pure trivial
  | e :: es, h => by
    rw [evalExprs]
    refine (safe_evalExpr safe classes e h.left).bind fun v _ => ?_
    exact (safe_evalExprs safe classes es h.right).bind fun vs _ => safe_pure trivial

end

/-! ## Statements -/

theorem safe_assignTarget (v : Value) (target : Target) :
    Safe (assignTarget fr v target) fun fr' => fr'.method = fr.method := by
  cases target with
  | var name =>
    simp only [assignTarget, assignVar]
    split
    · obtain ⟨scopes, -, rfl⟩ := Option.map_eq_some_iff.1 ‹_›
      exact safe_pure rfl
    · exact (safe_setField fr.this name v fun _ => rfl).bind fun _ _ => safe_pure rfl
  | field name => exact (safe_setField fr.this name v fun _ => rfl).bind fun _ _ => safe_pure rfl

theorem safe_withScope {block : Frame → Run (Frame × Option Value)}
    (h : Safe (block fr.enter) fun r => r.1.method = fr.method) :
    Safe (withScope fr block) fun r => r.1.method = fr.method :=
  h.bind fun (_, _) same => safe_pure same

theorem safe_repeatWhile {cond : Frame → Run Bool} {body : Frame → Run (Frame × Option Value)}
    {method : Option Method} (hcond : ∀ fr, fr.method = method → Safe (cond fr) fun _ => True)
    (hbody : ∀ fr, fr.method = method → Safe (body fr) fun r => r.1.method = method)
    (rounds : Nat) (fr : Frame) (hfr : fr.method = method) :
    Safe (repeatWhile budget cond body rounds fr) fun r => r.1.method = method := by
  induction rounds generalizing fr with
  | zero => exact safe_throw rfl
  | succ rounds ih =>
    refine (hcond fr hfr).bind fun holds _ => ?_
    split
    · refine (hbody fr hfr).bind fun (fr', result) hfr' => ?_
      cases result with
      | some v => exact safe_pure hfr'
      | none => exact (safe_tick budget).bind fun _ _ => ih fr' hfr'
    · exact safe_pure hfr

theorem safe_evalCond (safe : SafeActivations activate) (classes : t.Grounded) {cond : Expr}
    (h : fr.Covers cond.callsOriginal) : Safe (evalCond t activate fr cond) fun _ => True :=
  (safe_evalExpr safe classes cond h).bind fun _ _ =>
    safe_ofValues fun _ => Value.asBool_fault

mutual

theorem safe_execStmt (safe : SafeActivations activate) (classes : t.Grounded) (fr : Frame) :
    (s : Stmt) → fr.Covers s.callsOriginal →
      Safe (execStmt t budget activate fr s) fun r => r.1.method = fr.method
  | .skip _, _ | .decl _ _ none _, _ => by
    rw [execStmt]
    exact (safe_tick budget).bind fun _ _ => safe_pure rfl
  | .ret value _, h | .decl _ _ (some value) _, h | .eval value _, h => by
    rw [execStmt]
    refine (safe_tick budget).bind fun _ _ => ?_
    exact (safe_evalExpr safe classes value h).bind fun _ _ => safe_pure rfl
  | .assign target value _, h => by
    rw [execStmt]
    refine (safe_tick budget).bind fun _ _ => ?_
    refine (safe_evalExpr safe classes value h).bind fun v _ => ?_
    exact (safe_assignTarget v target).bind fun _ same => safe_pure same
  | .ite cond yes none _, h => by
    rw [execStmt]
    refine (safe_tick budget).bind fun _ _ => ?_
    refine (safe_evalCond safe classes h.left).bind fun holds _ => ?_
    split
    · exact safe_withScope (safe_execStmts safe classes fr.enter yes h.right)
    · exact safe_pure rfl
  | .ite cond yes (some no) _, h => by
    rw [execStmt]
    refine (safe_tick budget).bind fun _ _ => ?_
    refine (safe_evalCond safe classes h.left.left).bind fun holds _ => ?_
    split
    · exact safe_withScope (safe_execStmts safe classes fr.enter yes h.left.right)
    · exact safe_withScope (safe_execStmts safe classes fr.enter no h.right)
  | .loop cond body _, h => by
    rw [execStmt]
    refine (safe_tick budget).bind fun _ _ => ?_
    refine safe_get.bind fun s _ => ?_
    refine safe_repeatWhile (fun fr' same => ?_) (fun fr' same => ?_) _ fr rfl
    · exact safe_evalCond safe classes (h.left.congr same)
    · rw [← same]
      exact safe_withScope (safe_execStmts safe classes fr'.enter body (h.right.congr same))

theorem safe_execStmts (safe : SafeActivations activate) (classes : t.Grounded) (fr : Frame) :
    (ss : List Stmt) → fr.Covers (Stmt.anyCallsOriginal ss) →
      Safe (execStmts t budget activate fr ss) fun r => r.1.method = fr.method
  | [], _ => by
    rw [execStmts]
    exact safe_pure rfl
  | s :: ss, h => by
    rw [execStmts]
    refine (safe_execStmt safe classes fr s h.left).bind fun (fr', result) same => ?_
    cases result with
    | some v => exact safe_pure same
    | none =>
      rw [← same]
      exact safe_execStmts safe classes fr' ss (h.right.congr same)

end

/-! ## Activations -/

theorem safe_checkCount (what : String) (expected : Nat) (args : List Value) :
    Safe (checkCount what expected args) fun _ => True := by
  unfold checkCount
  split
  · exact safe_pure trivial
  · exact safe_fault rfl

theorem safe_initFields (safe : SafeActivations activate) (classes : t.Grounded) (fr : Frame)
    (fs : List FieldDecl)
    (h : ∀ f ∈ fs, ∀ e, f.value = some e → e.callsOriginal = false) :
    Safe (initFields t activate fr fs) fun _ => True := by
  induction fs with
  | nil => exact safe_pure trivial
  | cons f fs ih =>
    have rest := ih fun g hg => h g (List.mem_cons_of_mem f hg)
    rw [initFields]
    cases value : f.value with
    | none => exact rest
    | some e =>
      have none := h f List.mem_cons_self e value
      refine (safe_evalExpr safe classes e (none ▸ .of_false fr)).bind fun v _ => ?_
      exact (safe_setField fr.this f.name v fun _ => rfl).bind fun _ _ => rest

theorem safe_runMethod (safe : SafeActivations activate) (classes : t.Grounded) (this : Nat)
    (module : String) {m : Method} (h : m.Grounded) (args : List Value) :
    Safe (runMethod t budget activate this module m args) fun _ => True := by
  refine (safe_tick budget).bind fun _ _ => ?_
  refine (safe_checkCount _ _ args).bind fun _ _ => ?_
  refine Safe.bind (Q := fun r => r.1.method = some m) (safe_withScope ?_) fun (_, _) _ =>
    safe_pure trivial
  refine safe_execStmts safe classes _ m.body fun calls => ?_
  cases ho : m.original? with
  | none => exact absurd calls (Bool.eq_false_iff.1 (h.callsOriginal ho))
  | some old => exact ⟨m, old, rfl, ho, h.original ho⟩

theorem safe_createObject (safe : SafeActivations activate) (classes : t.Grounded)
    {c : Entry ClassDecl} (h : c.decl.Grounded) (args : List Value) :
    Safe (createObject t budget activate c args) fun _ => True := by
  refine (safe_checkCount _ _ args).bind fun _ _ => ?_
  refine (safe_allocate (o := .create c args) h).bind fun id _ => ?_
  refine (safe_initFields safe classes _ _ h.fields).bind fun _ _ => ?_
  refine Safe.bind (Q := fun r => r.1.method = none) (safe_withScope ?_) fun (_, _) _ =>
    safe_pure trivial
  exact safe_execStmts safe classes _ _ fun calls => absurd calls (Bool.eq_false_iff.1 h.init)

theorem safe_activate (classes : t.Grounded) (budget depth : Nat) :
    SafeActivations (DeltaLang.activate t budget depth) := by
  induction depth with
  | zero => exact fun _ _ => safe_throw rfl
  | succ depth ih =>
    rintro (⟨this, module, m, args⟩ | ⟨c, args⟩) h
    · exact safe_runMethod ih classes this module h args
    · exact safe_createObject ih classes h args

end

end DeltaLang
