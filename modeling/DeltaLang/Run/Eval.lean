import DeltaLang.Run.Operators
import DeltaLang.Run.Store

/-!
# Running programs

Execution is sequential: an asynchronous call runs to its end when it is made, and yields a future
that is resolved.  Evaluating an expression and executing a statement follow the syntax, and what
they call or create is an activation, which is carried out by a function they are given.  Carrying
out activations recurses on a bound on how deep activations are nested.

A step of the budget is taken for every activation of a method, every statement and every round of
a loop.
-/

namespace DeltaLang

/-- What a call or a creation is to carry out. -/
inductive Activation where
  /-- The current version of a method, run on an object; its names are written in the module. -/
  | method (this : Nat) (module : String) (m : Method) (args : List Value)
  | creation (cls : Entry ClassDecl) (args : List Value)

/-- The method as it was before its current version. -/
def Method.original? (m : Method) : Option Method :=
  match m.earlier with
  | v :: older => some ⟨v, older⟩
  | [] => none

/-- The activation of the method of that name on an object. -/
def Run.dispatch (receiver : Nat) (method : String) (args : List Value) : Run Activation := do
  let o ← Run.object receiver
  match o.cls.decl.method? method with
  | some m => return .method receiver o.cls.module m args
  | none => Run.fault (.unknownMethod o.cls.name method)

/-- The activation of the version before the one that runs. -/
def Frame.original (fr : Frame) (args : List Value) : Except Fault Activation :=
  match fr.method with
  | none => .error (.noOriginal none)
  | some m =>
    match m.original? with
    | some old => .ok (.method fr.this fr.module old args)
    | none => .error (.noOriginal (some m.name))

/-- The class of that name, as seen from a module or from outside of all modules. -/
def SymbolTable.classNamed (t : SymbolTable) (frm : Option String) (name : String) :
    Except Fault (Entry ClassDecl) :=
  match t.classes.resolve frm name with
  | .ok c => .ok c
  | .error .unresolved => .error (.unknownClass name)
  | .error reason => .error (.ambiguousClass name reason)

/-- The place of the object to call a method on. -/
def Value.asReceiver (method : String) : Value → Except Fault Nat
  | object id => .ok id
  | null => .error (.nullReceiver method)
  | other => .error (.unfit "object" other)

/-- The value a future was resolved to. -/
def Value.awaited : Value → Except Fault Value
  | future v => .ok v
  | other => .error (.unfit "future" other)

section

variable (t : SymbolTable) (budget : Nat) (activate : Activation → Run Value)

/-! ## Expressions -/

/-- The value of a variable, or of the field of that name if there is no such variable. -/
def evalVar (fr : Frame) (name : String) : Run Value := do
  match fr.lookup name with
  | some v => return v
  | none =>
    match (← Run.object fr.this).field? name with
    | some v => return v
    | none => Run.fault (.unboundVariable name)

def evalField (fr : Frame) (name : String) : Run Value := do
  let o ← Run.object fr.this
  match o.field? name with
  | some v => return v
  | none => Run.fault (.unknownField o.cls.name name)

mutual

def evalExpr (fr : Frame) : Expr → Run Value
  | .bool b _ => return .bool b
  | .int n _ => return .int n
  | .str s _ => return .str s
  | .null _ => return .null
  | .this _ => return .object fr.this
  | .var name _ => evalVar fr name
  | .field name _ => evalField fr name
  | .unary op operand _ => do
    let v ← evalExpr fr operand
    .ofExcept (op.apply v)
  | .binary op lhs rhs _ => do
    let a ← evalExpr fr lhs
    match ← Run.ofExcept (op.first a) with
    | some v => return v
    | none => do
      let b ← evalExpr fr rhs
      .ofExcept (op.both a b)
  | .call target method args async _ => do
    let receiver ← Run.ofExcept ((← evalExpr fr target).asReceiver method)
    let values ← evalExprs fr args
    let result ← activate (← Run.dispatch receiver method values)
    return if async then .future result else result
  | .get future _ => do
    let v ← evalExpr fr future
    .ofExcept v.awaited
  | .new cls args _ _ => do
    let values ← evalExprs fr args
    activate (.creation (← Run.ofExcept (t.classNamed (some fr.module) cls)) values)
  | .original args _ => do
    let values ← evalExprs fr args
    activate (← Run.ofExcept (fr.original values))

/-- Evaluates expressions from left to right. -/
def evalExprs (fr : Frame) : List Expr → Run (List Value)
  | [] => return []
  | e :: es => do
    let v ← evalExpr fr e
    let vs ← evalExprs fr es
    return v :: vs

end

/-! ## Statements -/

/-- Assigns a variable, or the field of that name if there is no such variable. -/
def assignVar (fr : Frame) (name : String) (v : Value) : Run Frame := do
  match fr.assign? name v with
  | some fr => return fr
  | none => do
    Run.setField fr.this name v fun _ => .unboundVariable name
    return fr

def assignTarget (fr : Frame) (v : Value) : Target → Run Frame
  | .var name => assignVar fr name v
  | .field name => do
    Run.setField fr.this name v fun o => .unknownField o.cls.name name
    return fr

/-- Runs a block in a scope of its own. -/
def withScope (fr : Frame) (block : Frame → Run (Frame × Option Value)) :
    Run (Frame × Option Value) := do
  let (fr, result) ← block fr.enter
  return (fr.leave, result)

/-- Repeats a body while a condition holds and the body does not return.  The first argument
bounds the number of rounds. -/
def repeatWhile (cond : Frame → Run Bool) (body : Frame → Run (Frame × Option Value)) :
    Nat → Frame → Run (Frame × Option Value)
  | 0, _ => throw .tooDeep
  | rounds + 1, fr => do
    if ← cond fr then
      let (fr, result) ← body fr
      match result with
      | some v => return (fr, some v)
      | none => do
        Run.tick budget
        repeatWhile cond body rounds fr
    else return (fr, none)

/-- Whether a condition holds. -/
def evalCond (fr : Frame) (cond : Expr) : Run Bool := do
  let v ← evalExpr t activate fr cond
  .ofExcept v.asBool

mutual

/-- Executes a statement; the value is the one that it returns, if it returns. -/
def execStmt (fr : Frame) : Stmt → Run (Frame × Option Value)
  | .skip _ => do
    Run.tick budget
    return (fr, none)
  | .ret value _ => do
    Run.tick budget
    return (fr, some (← evalExpr t activate fr value))
  | .decl _ name none _ => do
    Run.tick budget
    return (fr.bind name .null, none)
  | .decl _ name (some value) _ => do
    Run.tick budget
    return (fr.bind name (← evalExpr t activate fr value), none)
  | .assign target value _ => do
    Run.tick budget
    let v ← evalExpr t activate fr value
    return (← assignTarget fr v target, none)
  | .ite cond yes none _ => do
    Run.tick budget
    if ← evalCond t activate fr cond then withScope fr fun fr => execStmts fr yes
    else return (fr, none)
  | .ite cond yes (some no) _ => do
    Run.tick budget
    if ← evalCond t activate fr cond then withScope fr fun fr => execStmts fr yes
    else withScope fr fun fr => execStmts fr no
  | .loop cond body _ => do
    Run.tick budget
    repeatWhile budget (fun fr => evalCond t activate fr cond)
      (fun fr => withScope fr fun fr => execStmts fr body) ((← get).fuel + 1) fr
  | .eval value _ => do
    Run.tick budget
    let _ ← evalExpr t activate fr value
    return (fr, none)

/-- Executes statements in order, up to the first that returns. -/
def execStmts (fr : Frame) : List Stmt → Run (Frame × Option Value)
  | [] => return (fr, none)
  | s :: ss => do
    match ← execStmt fr s with
    | (fr, none) => execStmts fr ss
    | done => return done

end

/-! ## Activations -/

/-- Stops for a fault if a number of arguments is not the one expected. -/
def checkCount (what : String) (expected : Nat) (args : List Value) : Run Unit :=
  if args.length = expected then return ()
  else Run.fault (.argumentCount what expected args.length)

/-- Gives fields their initial values, in order. -/
def initFields (fr : Frame) : List FieldDecl → Run Unit
  | [] => return ()
  | f :: fs => do
    match f.value with
    | some e => do
      let v ← evalExpr t activate fr e
      Run.setField fr.this f.name v fun o => .unknownField o.cls.name f.name
    | none => pure ()
    initFields fr fs

/-- Runs a version of a method. -/
def runMethod (this : Nat) (module : String) (m : Method) (args : List Value) : Run Value := do
  Run.tick budget
  checkCount ("method " ++ m.name) m.sig.params.length args
  let params := ((m.sig.params.map (·.name)).zip args).reverse
  let (_, result) ← withScope ⟨this, module, some m, [params]⟩ fun fr =>
    execStmts t budget activate fr m.body
  return result.getD .unit

/-- Creates an object: first its fields get their values, then its initial block runs. -/
def createObject (c : Entry ClassDecl) (args : List Value) : Run Value := do
  checkCount ("class " ++ c.name) c.decl.params.length args
  let id ← Run.allocate (.create c args)
  let fr : Frame := ⟨id, c.module, none, [[]]⟩
  initFields t activate fr c.decl.fields
  let _ ← withScope fr fun fr => execStmts t budget activate fr (c.decl.init.getD [])
  return .object id

/-- Carries out an activation, given how to carry out those within it. -/
def perform : Activation → Run Value
  | .method this module m args => runMethod t budget activate this module m args
  | .creation c args => createObject t budget activate c args

end

/-- Carries out an activation within which others are nested at most to a depth. -/
def activate (t : SymbolTable) (budget : Nat) : Nat → Activation → Run Value
  | 0, _ => throw .tooDeep
  | depth + 1, a => perform t budget (activate t budget depth) a

end DeltaLang
