import DeltaLang.Proofs.Run.Finishing
import DeltaLang.Proofs.Run.Moments

/-!
# Watched runs

A watched run does what the run does and notes moments of it.  A moment is noted when an expression
has a value, when a statement is done, when a method starts, when an object is put on the heap, and
when a field of a new object has its initial value, each time with the frames of all activations
that have not ended.  Watched runs follow the syntax as runs do, and what is read or written at once
is a step of the run itself.
-/

namespace DeltaLang

/-- A run that notes moments. -/
abbrev Watched (α : Type) := ExceptT Stop (StateM (Store × List Moment)) α

namespace Watched

variable {α β : Type}

/-- The run, at no moment of which anything is noted. -/
def step (x : Run α) : Watched α := fun (s, noted) =>
  let (r, s') := ExceptT.run x s
  (r, s', noted)

/-- Notes the moment when the result is there. -/
def noting (frames : α → Stack) (yielded : α → Option Value) (y : Watched α) : Watched α := do
  let r ← y
  modify fun (s, noted) => (s, noted ++ [⟨frames r, yielded r, s⟩])
  return r

end Watched

section

variable (t : SymbolTable) (budget : Nat) (watch : Stack → Activation → Watched Value)
  (above : Stack)

/-! ## Expressions -/

mutual

/-- Evaluates an expression in a frame, while activations with the frames above it run. -/
def watchExpr (fr : Frame) (e : Expr) : Watched Value :=
  .noting (fun _ => fr :: above) some <| match e with
  | .bool b _ => return .bool b
  | .int n _ => return .int n
  | .str s _ => return .str s
  | .null _ => return .null
  | .this _ => return .object fr.this
  | .var name _ => .step (evalVar fr name)
  | .field name _ => .step (evalField fr name)
  | .unary op operand _ => do
    let v ← watchExpr fr operand
    .step (.ofExcept (op.apply v))
  | .binary op lhs rhs _ => do
    let a ← watchExpr fr lhs
    match ← .step (.ofExcept (op.first a)) with
    | some v => return v
    | none => do
      let b ← watchExpr fr rhs
      .step (.ofExcept (op.both a b))
  | .call target method args async _ => do
    let receiver ← .step (.ofExcept ((← watchExpr fr target).asReceiver method))
    let values ← watchExprs fr args
    let result ← watch (fr :: above) (← .step (.dispatch receiver method values))
    return if async then .future result else result
  | .get future _ => do
    let v ← watchExpr fr future
    .step (.ofExcept v.awaited)
  | .new cls args _ _ => do
    let values ← watchExprs fr args
    watch (fr :: above) (.creation (← .step (.ofExcept (t.classNamed (some fr.module) cls))) values)
  | .original args _ => do
    let values ← watchExprs fr args
    watch (fr :: above) (← .step (.ofExcept (fr.original values)))

/-- Evaluates expressions from left to right. -/
def watchExprs (fr : Frame) : List Expr → Watched (List Value)
  | [] => return []
  | e :: es => do
    let v ← watchExpr fr e
    let vs ← watchExprs fr es
    return v :: vs

end

/-! ## Statements -/

/-- Whether a condition holds. -/
def watchCond (fr : Frame) (cond : Expr) : Watched Bool := do
  let v ← watchExpr t watch above fr cond
  .step (.ofExcept v.asBool)

/-- Runs a block in a scope of its own. -/
def watchScope (fr : Frame) (block : Frame → Watched (Frame × Option Value)) :
    Watched (Frame × Option Value) := do
  let (fr, result) ← block fr.enter
  return (fr.leave, result)

/-- Repeats a body while a condition holds and the body does not return. -/
def watchWhile (cond : Frame → Watched Bool) (body : Frame → Watched (Frame × Option Value)) :
    Nat → Frame → Watched (Frame × Option Value)
  | 0, _ => throw .tooDeep
  | rounds + 1, fr => do
    if ← cond fr then
      let (fr, result) ← body fr
      match result with
      | some v => return (fr, some v)
      | none => do
        .step (Run.tick budget)
        watchWhile cond body rounds fr
    else return (fr, none)

mutual

/-- Executes a statement. -/
def watchStmt (fr : Frame) (s : Stmt) : Watched (Frame × Option Value) :=
  .noting (fun r => r.1 :: above) (fun r => r.2) do
    .step (Run.tick budget)
    match s with
    | .skip _ => return (fr, none)
    | .ret value _ => return (fr, some (← watchExpr t watch above fr value))
    | .decl _ name none _ => return (fr.bind name .null, none)
    | .decl _ name (some value) _ =>
      return (fr.bind name (← watchExpr t watch above fr value), none)
    | .assign target value _ => do
      let v ← watchExpr t watch above fr value
      return (← .step (assignTarget fr v target), none)
    | .ite cond yes none _ => do
      if ← watchCond t watch above fr cond then watchScope fr fun fr => watchStmts fr yes
      else return (fr, none)
    | .ite cond yes (some no) _ => do
      if ← watchCond t watch above fr cond then watchScope fr fun fr => watchStmts fr yes
      else watchScope fr fun fr => watchStmts fr no
    | .loop cond body _ => do
      watchWhile budget (fun fr => watchCond t watch above fr cond)
        (fun fr => watchScope fr fun fr => watchStmts fr body) ((← .step get).fuel + 1) fr
    | .eval value _ => do
      let _ ← watchExpr t watch above fr value
      return (fr, none)

/-- Executes statements in order, up to the first that returns. -/
def watchStmts (fr : Frame) : List Stmt → Watched (Frame × Option Value)
  | [] => return (fr, none)
  | s :: ss => do
    match ← watchStmt fr s with
    | (fr, none) => watchStmts fr ss
    | done => return done

end

/-! ## Activations -/

/-- Gives fields their initial values, in order. -/
def watchFields (fr : Frame) : List FieldDecl → Watched Unit
  | [] => return ()
  | f :: fs => do
    match f.value with
    | some e => do
      let v ← watchExpr t watch above fr e
      .noting (fun _ => fr :: above) (fun _ => none) <|
        .step (Run.setField fr.this f.name v fun o => .unknownField o.cls.name f.name)
    | none => pure ()
    watchFields fr fs

/-- Runs a version of a method. -/
def watchMethod (this : Nat) (module : String) (m : Method) (args : List Value) :
    Watched Value := do
  .step (Run.tick budget)
  let fr : Frame :=
    ⟨this, module, some m, [((m.sig.params.map (·.name)).zip args).reverse]⟩
  .noting (fun _ => fr :: above) (fun _ => none) <|
    .step (checkCount ("method " ++ m.name) m.sig.params.length args)
  let (_, result) ← watchScope fr fun fr => watchStmts t budget watch above fr m.body
  return result.getD .unit

/-- Creates an object: first its fields get their values, then its initial block runs. -/
def watchCreation (c : Entry ClassDecl) (args : List Value) : Watched Value := do
  .step (checkCount ("class " ++ c.name) c.decl.params.length args)
  let id ← .noting (fun id => ⟨id, c.module, none, [[]]⟩ :: above) (fun _ => none) <|
    .step (Run.allocate (.create c args))
  let fr : Frame := ⟨id, c.module, none, [[]]⟩
  watchFields t watch above fr c.decl.fields
  let _ ← watchScope fr fun fr => watchStmts t budget watch above fr (c.decl.init.getD [])
  return .object id

end

/-- Carries out an activation within which others are nested at most to a depth, while activations
with the frames above run. -/
def watchActivation (t : SymbolTable) (budget : Nat) : Nat → Stack → Activation → Watched Value
  | 0, _, _ => throw .tooDeep
  | depth + 1, above, .method this module m args =>
    watchMethod t budget (watchActivation t budget depth) above this module m args
  | depth + 1, above, .creation c args =>
    watchCreation t budget (watchActivation t budget depth) above c args

end DeltaLang
