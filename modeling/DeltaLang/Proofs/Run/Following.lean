import DeltaLang.Proofs.Run.Compiled
import DeltaLang.Proofs.Run.Paired

/-!
# Runs that follow each other

Where activations follow those that they take the place of, so do expressions, statements and what
activations carry out.  Two sessions whose activations do have the same outcomes, as long as none is
lost in the first.
-/

namespace DeltaLang

/-! ## Names -/

namespace Pairing

open Run

variable {p : Pairing} {bound : Nat} {fr fr' : Frame}

theorem follows_dispatch (receiver : Nat) (method : String) (args : List Value) :
    p.Follows bound (dispatch receiver method args) (dispatch receiver method args)
      p.Activations := by
  refine (follows_object receiver).bind_eq fun o => ?_
  have methods := p.method?_cls o.cls method
  dsimp only [renamed]
  rw [p.module_cls, p.name_cls]
  generalize o.cls.decl.method? method = m, (p.cls o.cls).decl.method? method = m' at methods
  cases methods with
  | none => exact follows_fault _
  | some related => exact follows_pure (.method receiver o.cls.module related args)

theorem follows_original (h : fr.Alike fr') (args : List Value) :
    p.Follows bound (ofExcept (fr.original args)) (ofExcept (fr'.original args))
      p.Activations := by
  rw [h.original args]
  cases original : fr.original args with
  | error flt => exact follows_throw _
  | ok a =>
    refine follows_pure ?_
    unfold Frame.original at original
    split at original
    · cases original
    · split at original <;> cases original
      exact .method fr.this fr.module (p.method_refl _) args

/-- Names mean classes in both programs if classes take the place of classes one by one. -/
theorem tables_of_classes {t t' : SymbolTable} (h : t'.classes = t.classes.map p.cls) :
    p.Tables t t' := fun frm name => by
  rw [SymbolTable.classNamed, SymbolTable.classNamed, h,
    Namespace.resolve_map p.name_cls p.module_cls]
  rcases t.classes.resolve frm name with (_ | _) | _ <;> rfl

theorem follows_classNamed {t t' : SymbolTable} (tables : p.Tables t t') (frm : Option String)
    (name : String) :
    p.Follows bound (ofExcept (t.classNamed frm name)) (ofExcept (t'.classNamed frm name))
      fun c c' => c' = p.cls c := by
  rw [tables frm name]
  exact follows_ofExcept fun _ _ => rfl

theorem follows_evalVar (h : fr.Alike fr') (name : String) :
    p.Follows bound (evalVar fr name) (evalVar fr' name) fun v v' => v' = v := by
  unfold evalVar
  rw [h.lookup name, h.this]
  split
  · exact follows_pure rfl
  · refine (follows_object fr.this).bind_eq fun o => ?_
    have fields : (p.renamed o).field? name = o.field? name := rfl
    rw [fields]
    split
    · exact follows_pure rfl
    · exact follows_fault _

theorem follows_evalField (h : fr.Alike fr') (name : String) :
    p.Follows bound (evalField fr name) (evalField fr' name) fun v v' => v' = v := by
  unfold evalField
  rw [h.this]
  refine (follows_object fr.this).bind_eq fun o => ?_
  have fields : (p.renamed o).field? name = o.field? name := rfl
  have named : (p.renamed o).cls.name = o.cls.name := p.name_cls o.cls
  rw [fields, named]
  split
  · exact follows_pure rfl
  · exact follows_fault _

end Pairing

/-! ## Expressions and statements -/

/-- What is left of running a method after its first step. -/
def runBody (t : SymbolTable) (budget : Nat) (activate : Activation → Run Value) (this : Nat)
    (module : String) (m : Method) (args : List Value) : Run Value := do
  checkCount ("method " ++ m.name) m.sig.params.length args
  let params := ((m.sig.params.map (·.name)).zip args).reverse
  let (_, result) ← withScope ⟨this, module, some m, [params]⟩ fun fr =>
    execStmts t budget activate fr m.body
  return result.getD .unit

theorem runMethod_eq (t : SymbolTable) (budget : Nat) (activate : Activation → Run Value)
    (this : Nat) (module : String) (m : Method) (args : List Value) :
    runMethod t budget activate this module m args =
      Run.tick budget >>= fun _ => runBody t budget activate this module m args := rfl

namespace Pairing

open Run

variable {p : Pairing} {t t' : SymbolTable} {budget budget' : Nat}
  {activate activate' : Activation → Run Value} {fr fr' : Frame}

mutual

theorem follows_evalExpr (tables : p.Tables t t') (within : p.FollowsAll activate activate')
    (h : fr.Alike fr') {bound : Nat} :
    (e : Expr) → p.Follows bound (evalExpr t activate fr e) (evalExpr t' activate' fr' e)
      fun v v' => v' = v
  | .bool .. | .int .. | .str .. | .null _ => by
    rw [evalExpr, evalExpr]
    exact follows_pure rfl
  | .this _ => by
    rw [evalExpr, evalExpr, h.this]
    exact follows_pure rfl
  | .var name _ => by
    rw [evalExpr, evalExpr]
    exact follows_evalVar h name
  | .field name _ => by
    rw [evalExpr, evalExpr]
    exact follows_evalField h name
  | .unary op operand _ => by
    rw [evalExpr, evalExpr]
    refine (follows_evalExpr tables within h operand).bind_eq fun v => ?_
    exact follows_same _
  | .binary op lhs rhs _ => by
    rw [evalExpr, evalExpr]
    refine (follows_evalExpr tables within h lhs).bind_eq fun a => ?_
    refine (follows_same _).bind_eq fun first => ?_
    split
    · exact follows_pure rfl
    · refine (follows_evalExpr tables within h rhs).bind_eq fun b => ?_
      exact follows_same _
  | .call target method args async _ => by
    rw [evalExpr, evalExpr]
    refine (follows_evalExpr tables within h target).bind_eq fun v => ?_
    refine (follows_same _).bind_eq fun receiver => ?_
    refine (follows_evalExprs tables within h args).bind_eq fun values => ?_
    refine (follows_dispatch receiver method values).bind fun a a' related => ?_
    refine (within _ a a' related).bind_eq fun result => ?_
    exact follows_pure rfl
  | .get future _ => by
    rw [evalExpr, evalExpr]
    refine (follows_evalExpr tables within h future).bind_eq fun v => ?_
    exact follows_same _
  | .new cls args _ _ => by
    rw [evalExpr, evalExpr, h.module]
    refine (follows_evalExprs tables within h args).bind_eq fun values => ?_
    refine (follows_classNamed tables (some fr.module) cls).bind_eq fun c => ?_
    exact within _ _ _ (.creation c values)
  | .original args _ => by
    rw [evalExpr, evalExpr]
    refine (follows_evalExprs tables within h args).bind_eq fun values => ?_
    exact (follows_original h values).bind fun a a' related => within _ a a' related

theorem follows_evalExprs (tables : p.Tables t t') (within : p.FollowsAll activate activate')
    (h : fr.Alike fr') {bound : Nat} :
    (es : List Expr) → p.Follows bound (evalExprs t activate fr es) (evalExprs t' activate' fr' es)
      fun vs vs' => vs' = vs
  | [] => by
    rw [evalExprs, evalExprs]
    exact follows_pure rfl
  | e :: es => by
    rw [evalExprs, evalExprs]
    refine (follows_evalExpr tables within h e).bind_eq fun v => ?_
    refine (follows_evalExprs tables within h es).bind_eq fun vs => ?_
    exact follows_pure rfl

end

/-- The same value is returned, if any, and else the frames are alike. -/
def EndsAlike (r r' : Frame × Option Value) : Prop := r.1.Alike r'.1 ∧ r'.2 = r.2

theorem follows_evalCond (tables : p.Tables t t') (within : p.FollowsAll activate activate')
    (h : fr.Alike fr') {bound : Nat} (cond : Expr) :
    p.Follows bound (evalCond t activate fr cond) (evalCond t' activate' fr' cond)
      fun b b' => b' = b := by
  refine (follows_evalExpr tables within h cond).bind_eq fun v => ?_
  exact follows_same _

theorem follows_assignTarget (h : fr.Alike fr') {bound : Nat} (v : Value) (target : Target) :
    p.Follows bound (assignTarget fr v target) (assignTarget fr' v target) Frame.Alike := by
  cases target with
  | var name =>
    have assigned := h.assign? name v
    simp only [assignTarget, assignVar, h.this]
    generalize fr.assign? name v = a, fr'.assign? name v = a' at assigned
    cases assigned with
    | some alike => exact follows_pure alike
    | none => exact (follows_setField fr.this name v fun _ => rfl).bind fun _ _ _ => follows_pure h
  | field name =>
    have named (o : Object) : Fault.unknownField (p.renamed o).cls.name name =
        .unknownField o.cls.name name := congrArg (Fault.unknownField · name) (p.name_cls o.cls)
    simp only [assignTarget, h.this]
    exact (follows_setField fr.this name v named).bind fun _ _ _ => follows_pure h

theorem follows_withScope {block block' : Frame → Run (Frame × Option Value)} {bound : Nat}
    (h : p.Follows bound (block fr.enter) (block' fr'.enter) EndsAlike) :
    p.Follows bound (withScope fr block) (withScope fr' block') EndsAlike :=
  h.bind fun (_, _) (_, _) ⟨alike, same⟩ => follows_pure ⟨alike.leave, same⟩

/-- Loops with rounds enough, as they take a step each round. -/
theorem follows_repeatWhile {cond cond' : Frame → Run Bool}
    {body body' : Frame → Run (Frame × Option Value)}
    (hcond : ∀ n fr fr', fr.Alike fr' → p.Follows n (cond fr) (cond' fr') fun b b' => b' = b)
    (hbody : ∀ n fr fr', fr.Alike fr' → p.Follows n (body fr) (body' fr') EndsAlike)
    (rounds : Nat) {bound rounds' : Nat} (enough : bound < rounds) (enough' : bound < rounds')
    (h : fr.Alike fr') :
    p.Follows bound (repeatWhile budget cond body rounds fr)
      (repeatWhile budget' cond' body' rounds' fr') EndsAlike := by
  induction rounds generalizing bound rounds' fr fr' with
  | zero => exact absurd enough (Nat.not_lt_zero bound)
  | succ rounds ih =>
    obtain ⟨rounds', rfl⟩ : ∃ n, rounds' = n + 1 := Nat.exists_eq_succ_of_ne_zero (by omega)
    refine (hcond bound fr fr' h).bind_eq fun holds => ?_
    split
    · refine (hbody bound fr fr' h).bind fun (fr₁, _) (fr₁', result) ⟨alike, same⟩ => ?_
      subst same
      cases result with
      | some v => exact follows_pure ⟨alike, rfl⟩
      | none => exact follows_tick fun n less => ih (by omega) (by omega) alike
    · exact follows_pure ⟨h, rfl⟩

mutual

theorem follows_execStmt (tables : p.Tables t t') (within : p.FollowsAll activate activate')
    {fr fr' : Frame} (h : fr.Alike fr') {bound : Nat} :
    (s : Stmt) → p.Follows bound (execStmt t budget activate fr s)
      (execStmt t' budget' activate' fr' s) EndsAlike
  | .skip _ => by
    rw [execStmt, execStmt]
    exact follows_tick fun n _ => follows_pure ⟨h, rfl⟩
  | .ret value _ => by
    rw [execStmt, execStmt]
    refine follows_tick fun n _ => (follows_evalExpr tables within h value).bind_eq fun v => ?_
    exact follows_pure ⟨h, rfl⟩
  | .decl _ name none _ => by
    rw [execStmt, execStmt]
    exact follows_tick fun n _ => follows_pure ⟨h.bind name .null, rfl⟩
  | .decl _ name (some value) _ => by
    rw [execStmt, execStmt]
    refine follows_tick fun n _ => (follows_evalExpr tables within h value).bind_eq fun v => ?_
    exact follows_pure ⟨h.bind name v, rfl⟩
  | .assign target value _ => by
    rw [execStmt, execStmt]
    refine follows_tick fun n _ => (follows_evalExpr tables within h value).bind_eq fun v => ?_
    exact (follows_assignTarget h v target).bind fun _ _ alike => follows_pure ⟨alike, rfl⟩
  | .ite cond yes none _ => by
    rw [execStmt, execStmt]
    refine follows_tick fun n _ => (follows_evalCond tables within h cond).bind_eq fun b => ?_
    split
    · exact follows_withScope (follows_execStmts tables within h.enter yes)
    · exact follows_pure ⟨h, rfl⟩
  | .ite cond yes (some no) _ => by
    rw [execStmt, execStmt]
    refine follows_tick fun n _ => (follows_evalCond tables within h cond).bind_eq fun b => ?_
    split
    · exact follows_withScope (follows_execStmts tables within h.enter yes)
    · exact follows_withScope (follows_execStmts tables within h.enter no)
  | .loop cond body _ => by
    rw [execStmt, execStmt]
    refine follows_tick fun n _ => follows_get fun s s' stores => ?_
    have paid := p.fuel_le stores.fuel
    refine follows_repeatWhile (fun _ _ _ alike => follows_evalCond tables within alike cond)
      (fun _ _ _ alike => follows_withScope (follows_execStmts tables within alike.enter body)) _
      (by omega) (by omega) h
  | .eval value _ => by
    rw [execStmt, execStmt]
    refine follows_tick fun n _ => (follows_evalExpr tables within h value).bind fun _ _ _ => ?_
    exact follows_pure ⟨h, rfl⟩

theorem follows_execStmts (tables : p.Tables t t') (within : p.FollowsAll activate activate')
    {fr fr' : Frame} (h : fr.Alike fr') {bound : Nat} :
    (ss : List Stmt) → p.Follows bound (execStmts t budget activate fr ss)
      (execStmts t' budget' activate' fr' ss) EndsAlike
  | [] => by
    rw [execStmts, execStmts]
    exact follows_pure ⟨h, rfl⟩
  | s :: ss => by
    rw [execStmts, execStmts]
    refine (follows_execStmt tables within h s).bind
      fun (fr₁, _) (fr₁', result) ⟨alike, same⟩ => ?_
    subst same
    cases result with
    | none => exact follows_execStmts tables within alike ss
    | some v => exact follows_pure ⟨alike, rfl⟩

end

/-! ## Activations -/

theorem follows_checkCount (what : String) (expected : Nat) {args args' : List Value}
    (length : args'.length = args.length) {bound : Nat} :
    p.Follows bound (checkCount what expected args) (checkCount what expected args')
      fun _ _ => True := by
  rw [checkCount, checkCount, length]
  split
  · exact follows_pure trivial
  · exact follows_fault _

theorem follows_initFields (tables : p.Tables t t') (within : p.FollowsAll activate activate')
    (h : fr.Alike fr') {bound : Nat} (fs : List FieldDecl) :
    p.Follows bound (initFields t activate fr fs) (initFields t' activate' fr' fs)
      fun _ _ => True := by
  induction fs with
  | nil => exact follows_pure trivial
  | cons f fs ih =>
    rw [initFields, initFields]
    cases f.value with
    | none => exact ih
    | some e =>
      have named (o : Object) : Fault.unknownField (p.renamed o).cls.name f.name =
          .unknownField o.cls.name f.name :=
        congrArg (Fault.unknownField · f.name) (p.name_cls o.cls)
      refine (follows_evalExpr tables within h e).bind_eq fun v => ?_
      rw [h.this]
      exact (follows_setField fr.this f.name v named).bind fun _ _ _ => ih

/-- The body of a method follows itself, if the arguments give the parameters the same values. -/
theorem follows_runBody (tables : p.Tables t t') (within : p.FollowsAll activate activate')
    (this : Nat) (module : String) (m : Method) {args args' : List Value}
    (length : args'.length = args.length)
    (alike : Scope.Alike ((m.sig.params.map (·.name)).zip args).reverse
      ((m.sig.params.map (·.name)).zip args').reverse) {bound : Nat} :
    p.Follows bound (runBody t budget activate this module m args)
      (runBody t' budget' activate' this module m args') fun v v' => v' = v := by
  have frames : Frame.Alike
      ⟨this, module, some m, [((m.sig.params.map (·.name)).zip args).reverse]⟩
      ⟨this, module, some m, [((m.sig.params.map (·.name)).zip args').reverse]⟩ :=
    ⟨rfl, rfl, rfl, .cons alike .nil⟩
  refine (follows_checkCount _ _ length).bind fun _ _ _ => ?_
  refine (follows_withScope (follows_execStmts tables within frames.enter m.body)).bind
    fun (_, _) (_, result) ⟨_, same⟩ => ?_
  subst same
  exact follows_pure rfl

theorem follows_runMethod (tables : p.Tables t t') (within : p.FollowsAll activate activate')
    (this : Nat) (module : String) (m : Method) (args : List Value) {bound : Nat} :
    p.Follows bound (runMethod t budget activate this module m args)
      (runMethod t' budget' activate' this module m args) fun v v' => v' = v := by
  rw [runMethod_eq, runMethod_eq]
  exact follows_tick fun _ _ => follows_runBody tables within this module m rfl (.refl _)

theorem follows_createObject (tables : p.Tables t t') (within : p.FollowsAll activate activate')
    (c : Entry ClassDecl) (args : List Value) {bound : Nat} :
    p.Follows bound (createObject t budget activate c args)
      (createObject t' budget' activate' (p.cls c) args) fun v v' => v' = v := by
  unfold createObject
  rw [p.name_cls, p.params_cls, p.fields_cls, p.init_cls, p.module_cls]
  refine (follows_checkCount _ _ rfl).bind fun _ _ _ => ?_
  refine (follows_allocate c args).bind_eq fun id => ?_
  refine (follows_initFields tables within (.refl _) _).bind fun _ _ _ => ?_
  refine (follows_withScope (follows_execStmts tables within (.refl _) _)).bind
    fun (_, _) (_, _) _ => ?_
  exact follows_pure rfl

end Pairing

/-! ## Sessions -/

namespace Session

/-- The sessions are on programs in which the same names mean classes, activations of the second
follow those of the first, and the stores correspond. -/
structure Paired (p : Pairing) (s s' : Session) : Prop where
  tables : p.Tables s.symbols s'.symbols
  within : p.FollowsAll (activate s.symbols s.budget s.depth)
    (activate s'.symbols s'.budget s'.depth)
  stores : p.Stores s.store s'.store

variable {p : Pairing} {s s' : Session}

theorem follows_request {t t' : SymbolTable} (tables : p.Tables t t') (op : Operation)
    {bound : Nat} : p.Follows bound (request t op) (request t' op) p.Activations := by
  cases op with
  | instantiate cls args =>
    exact (Pairing.follows_classNamed tables none cls).bind_eq fun c =>
      Pairing.follows_pure (.creation c args)
  | call receiver method args => exact Pairing.follows_dispatch receiver method args

/-- An operation has the same outcome in both sessions, unless it is lost in the first. -/
theorem Paired.perform (h : s.Paired p s') (op : Operation)
    (kept : ∀ e, (s.perform op).1 = .error e → ¬p.lost e) :
    (s'.perform op).1 = (s.perform op).1 ∧ (s.perform op).2.Paired p (s'.perform op).2 := by
  let x : Run Value := request s.symbols op >>= activate s.symbols s.budget s.depth
  let y : Run Value := request s'.symbols op >>= activate s'.symbols s'.budget s'.depth
  have follows : p.Follows s.store.fuel x y fun v v' => v' = v :=
    (follows_request h.tables op).bind fun a a' related => h.within _ a a' related
  suffices same : (y.run s'.store).1 = (x.run s.store).1 ∧
      p.Stores (x.run s.store).2 (y.run s'.store).2 from
    ⟨same.1, h.tables, h.within, same.2⟩
  have kept : ∀ e, (x.run s.store).1 = .error e → ¬p.lost e := kept
  obtain ⟨value, stop⟩ := follows s'.store s.store ⟨h.stores, Nat.le_refl _⟩
  rcases run : x.run s.store with ⟨e | v, s₁⟩
  · rw [run] at kept
    obtain lost | ⟨s₁', run', stores⟩ := stop e s₁ run
    · exact absurd lost (kept e rfl)
    · rw [run']
      exact ⟨rfl, stores⟩
  · obtain ⟨-, v', s₁', run', stores, rfl⟩ := value v s₁ run
    rw [run']
    exact ⟨rfl, stores⟩

/-- Operations have the same outcomes in both sessions, if none is lost in the first. -/
theorem Paired.performAll (h : s.Paired p s') (ops : List Operation)
    (kept : ∀ e, .error e ∈ (s.performAll ops).1 → ¬p.lost e) :
    (s'.performAll ops).1 = (s.performAll ops).1 ∧
      (s.performAll ops).2.Paired p (s'.performAll ops).2 := by
  induction ops generalizing s s' with
  | nil => exact ⟨rfl, h⟩
  | cons op ops ih =>
    obtain ⟨first, paired⟩ := h.perform op fun e eq =>
      kept e (eq ▸ List.mem_cons_self)
    obtain ⟨rest, paired'⟩ := ih paired fun e mem => kept e (List.mem_cons_of_mem _ mem)
    exact ⟨congrArg₂ List.cons first rest, paired'⟩

end Session

end DeltaLang
