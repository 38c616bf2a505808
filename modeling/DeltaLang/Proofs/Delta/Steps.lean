import DeltaLang.Proofs.Delta.Composition

/-!
# The steps of a delta

A delta is applied in elementary steps: one for each declaration that it adds, removes or replaces,
for each name that it makes a class implement, and for each operation of its modifiers.  Here it is
said of each step when it can be taken and what it then does to the model, whatever was done before:
there is no mention of the names that are kept while a class is edited.  Each step is either taken
in full, or is one error and does nothing.
-/

namespace DeltaLang

/-! ## Operations of modifiers -/

namespace InterfaceOp

/-- Whether the operation can be done on the interface. -/
def Possible (i : InterfaceDecl) : InterfaceOp → Prop
  | addMethod sig => sig.name ∉ i.methods.map (·.name)
  | removeMethod sig => sig.name ∈ i.methods.map (·.name)

/-- The interface once the operation is done. -/
def effect (i : InterfaceDecl) : InterfaceOp → InterfaceDecl
  | addMethod sig => { i with methods := i.methods ++ [sig] }
  | removeMethod sig => { i with methods := i.methods.eraseP (·.name == sig.name) }

/-- The place of what is added or removed. -/
def loc : InterfaceOp → Option Location
  | addMethod sig | removeMethod sig => sig.loc

end InterfaceOp

/-- The names of the methods of a class of the module, once the class is composed. -/
def SymbolTable.methodNames (t : SymbolTable) (module : String) (c : ClassDecl) : List String :=
  (t.composeClass module c .fresh).set.names

/-- The class with its methods edited: in place if it has no clauses, and else by a further one. -/
def ClassDecl.editMethods (c : ClassDecl) (u : TraitUse) (ms : List Method) : ClassDecl :=
  if c.uses = [] then { c with methods := ms } else { c with uses := c.uses ++ [u] }

namespace ClassOp

/-- Whether the operation can be done on the class, whose methods have these names. -/
def Possible (names : List String) (c : ClassDecl) : ClassOp → Prop
  | addMethod m => m.name ∉ names
  | removeMethod sig => sig.name ∈ names
  | addField f => c.fieldType? f.name = none
  | removeField name _ => (c.field? name).isSome = true
  | modifyMethod _ | addUse _ => True

/-- The class once the operation is done. -/
def effect (c : ClassDecl) : ClassOp → ClassDecl
  | addMethod m => c.editMethods (.adds (.set [m])) (c.methods ++ [m])
  | modifyMethod m => c.editMethods (.modifies (.set [m])) (ClassEdit.modifyFirst m c.methods)
  | removeMethod sig => c.editMethods (.removes [sig]) (c.methods.eraseP (·.name == sig.name))
  | addField f => { c with fields := c.fields ++ [f] }
  | removeField name _ => { c with fields := c.fields.eraseP (·.name == name) }
  | addUse u => { c with uses := c.uses ++ [u] }

/-- The place of what is added, modified or removed, where there is one. -/
def loc : ClassOp → Option Location
  | addMethod m | modifyMethod m => m.sig.loc
  | removeMethod sig => sig.loc
  | addField f => f.loc
  | removeField _ loc => loc
  | addUse _ => none

end ClassOp

/-! ## Steps -/

/-- An elementary step of a delta. -/
inductive DeltaStep where
  | add (d : Decl)
  | remove (kind : DeclKind) (name : String) (loc : Option Location)
  | replaceTrait (name : String) (expr : TraitExpr) (loc : Option Location)
  /-- Looks for the declaration that a modifier is for. -/
  | seek (kind : DeclKind) (name : String) (loc : Option Location)
  /-- Makes the class at the path implement one more name. -/
  | implement (path : DeclPath) (name : String) (loc : Option Location)
  | editInterface (path : DeclPath) (op : InterfaceOp)
  | editClass (path : DeclPath) (op : ClassOp)

/-- The declaration changed by `f`, if it is an interface. -/
def Decl.mapInterface (f : InterfaceDecl → InterfaceDecl) : Decl → Decl
  | .interface i => .interface (f i)
  | other => other

/-- The declaration with that expression, if it is a trait. -/
def Decl.withExpr (expr : TraitExpr) : Decl → Decl
  | .trait t => .trait { t with expr := expr }
  | other => other

namespace DeltaStep

/-- Whether the step can be taken in the model by a delta that adds to the module `target`. -/
def Possible (target : String) (m : Model) : DeltaStep → Prop
  | add d => ∃ mod, m.module? target = some mod ∧ mod.position? d.kind d.name = none
  | remove kind name _ | seek kind name _ => ∃ path, m.locate kind name target = .ok path
  | replaceTrait name _ _ => ∃ path, m.locate .trait name target = .ok path
  | implement path name _ => ∃ c, m.decl? path = some (.class c) ∧ name ∉ c.implements
  | editInterface path op => ∃ i, m.decl? path = some (.interface i) ∧ op.Possible i
  | editClass path op => ∃ module c, m.entry? path = some ⟨path, module, c.name, .class c⟩ ∧
      op.Possible ((SymbolTable.ofModel m).methodNames module c) c

/-- The model once the step is taken. -/
def effect (target : String) (m : Model) : DeltaStep → Model
  | add d => m.appendTo target d
  | remove kind name _ =>
    match m.locate kind name target with
    | .ok path => m.eraseDecl path
    | .error _ => m
  | replaceTrait name expr _ =>
    match m.locate .trait name target with
    | .ok path => m.modifyDecl path (Decl.withExpr expr)
    | .error _ => m
  | seek .. => m
  | implement path name _ =>
    m.modifyDecl path (Decl.mapClass fun c => { c with implements := c.implements ++ [name] })
  | editInterface path op => m.modifyDecl path (Decl.mapInterface op.effect)
  | editClass path op => m.modifyDecl path (Decl.mapClass op.effect)

/-- The place of the step in the delta. -/
def loc : DeltaStep → Option Location
  | add d => d.location
  | remove _ _ loc | replaceTrait _ _ loc | seek _ _ loc | implement _ _ loc => loc
  | editInterface _ op => op.loc
  | editClass _ op => op.loc

/-- A step is taken in full and reports nothing, or it cannot be taken, and is one error at its
place that leaves the model as it is. -/
inductive Ends (target : String) (s : DeltaStep) (m : Model) : Option Diagnostic → Model → Prop
  | done (possible : s.Possible target m) : Ends target s m none (s.effect target m)
  | failed (impossible : ¬s.Possible target m) (kind : DiagnosticKind) (message : String) :
      Ends target s m (some (.errorAt kind message s.loc)) m

end DeltaStep

/-- The steps that were tried in order, each with the error that it was if it failed. -/
abbrev StepLog := List (DeltaStep × Option Diagnostic)

namespace StepLog

/-- The errors of the steps that failed. -/
def errors (log : StepLog) : Diagnostics := log.filterMap (·.2)

theorem errors_append (log log' : StepLog) : (log ++ log').errors = log.errors ++ log'.errors :=
  List.filterMap_append

/-- The steps that did not fail. -/
def taken (log : StepLog) : List DeltaStep := (log.filter (·.2.isNone)).map (·.1)

end StepLog

/-- The steps are tried in order, each in the model that those before it have left. -/
inductive Takes (target : String) : List DeltaStep → Model → StepLog → Model → Prop
  | nil (m : Model) : Takes target [] m [] m
  | cons {s : DeltaStep} {steps : List DeltaStep} {m m' m'' : Model} {o : Option Diagnostic}
      {log : StepLog} (first : s.Ends target m o m') (rest : Takes target steps m' log m'') :
      Takes target (s :: steps) m ((s, o) :: log) m''

/-- The steps of an operation in a model.  Nothing is added if the module to add to is not there,
and a modifier that finds no declaration comes to nothing else. -/
def DeltaOp.steps (there : Bool) (target : String) (m : Model) : DeltaOp → List DeltaStep
  | addInterface i => if there then [.add (.interface i)] else []
  | addClass c => if there then [.add (.class c)] else []
  | addTrait t => if there then [.add (.trait t)] else []
  | removeInterface name loc => [.remove .interface name loc]
  | removeClass name loc => [.remove .class name loc]
  | removeTrait name loc => [.remove .trait name loc]
  | modifyTrait name expr loc => [.replaceTrait name expr loc]
  | modifyInterface mod =>
    match m.locate .interface mod.name target with
    | .ok path => mod.ops.map (.editInterface path)
    | .error _ => [.seek .interface mod.name mod.loc]
  | modifyClass mod =>
    match m.locate .class mod.name target with
    | .ok path => mod.addImplements.map (.implement path · mod.loc) ++ mod.ops.map (.editClass path)
    | .error _ => [.seek .class mod.name mod.loc]

/-- The operations are taken in order, each by its steps in the model that those before it have
left. -/
inductive Unfolds (there : Bool) (target : String) : List DeltaOp → Model → StepLog → Model → Prop
  | nil (m : Model) : Unfolds there target [] m [] m
  | cons {op : DeltaOp} {ops : List DeltaOp} {m m' m'' : Model} {log log' : StepLog}
      (first : Takes target (op.steps there target m) m log m')
      (rest : Unfolds there target ops m' log' m'') :
      Unfolds there target (op :: ops) m (log ++ log') m''

namespace Takes

variable {target : String} {s : DeltaStep} {steps steps' : List DeltaStep} {m m' m'' : Model}
  {log log' : StepLog}

theorem append (first : Takes target steps m log m') (rest : Takes target steps' m' log' m'') :
    Takes target (steps ++ steps') m (log ++ log') m'' := by
  induction first with
  | nil m => exact rest
  | cons step _ ih => exact .cons step (ih rest)

/-- Only trying the steps that did not fail takes all of them, and leads to the same model. -/
theorem taken (h : Takes target steps m log m') :
    Takes target log.taken m (log.taken.map (·, none)) m' := by
  induction h with
  | nil m => exact .nil m
  | cons step _ ih =>
    cases step with
    | done possible => exact .cons (.done possible) ih
    | failed => exact ih

/-- All that was reported are errors. -/
theorem isError (h : Takes target steps m log m') : ∀ d ∈ log.errors, d.isError = true := by
  induction h with
  | nil m => exact fun _ mem => absurd mem List.not_mem_nil
  | cons step _ ih =>
    cases step with
    | done => exact ih
    | failed => exact List.forall_mem_cons.2 ⟨rfl, ih⟩

end Takes

namespace Unfolds

variable {there : Bool} {target : String} {ops : List DeltaOp} {m m' : Model} {log : StepLog}

/-- Operations are taken step by step. -/
theorem exists_takes (h : Unfolds there target ops m log m') :
    ∃ steps, Takes target steps m log m' := by
  induction h with
  | nil m => exact ⟨[], .nil m⟩
  | cons first _ ih =>
    obtain ⟨steps, rest⟩ := ih
    exact ⟨_, first.append rest⟩

end Unfolds

/-! ## Attempts -/

/-- What is attempted succeeds with what is wanted if it is possible, and is an error at that place
otherwise. -/
inductive Attempted {σ : Type} (possible : Prop) (loc : Option Location) (wanted : σ → Prop) :
    Except Diagnostic σ → Prop
  | ok {s : σ} (h : possible) (done : wanted s) : Attempted possible loc wanted (.ok s)
  | error (h : ¬possible) (kind : DiagnosticKind) (message : String) :
      Attempted possible loc wanted (.error (.errorAt kind message loc))

section

variable {σ ω : Type} (target : String) (R : σ → Model → Prop) {m : Model}

theorem Attempted.ends {s : DeltaStep} {f : σ → Except Diagnostic σ} (st : σ × Diagnostics)
    (h : Attempted (s.Possible target m) s.loc (fun s' => R s' (s.effect target m)) (f st.1))
    (same : R st.1 m) :
    ∃ o m', s.Ends target m o m' ∧ R (attempt f st).1 m' ∧
      (attempt f st).2 = st.2 ++ o.toList := by
  obtain ⟨before, ds⟩ := st
  rw [attempt]
  generalize f before = after at h
  cases h with
  | ok possible done => exact ⟨none, _, .done possible, done, (List.append_nil ds).symm⟩
  | error impossible kind message =>
    exact ⟨some _, m, .failed impossible kind message, same, rfl⟩

/-- What each attempt of a list does to a state, a list of steps does to the model. -/
theorem exists_takes_foldl (step : σ × Diagnostics → ω → σ × Diagnostics) (toStep : ω → DeltaStep)
    (each : ∀ op st m, R st.1 m → ∃ o m', (toStep op).Ends target m o m' ∧
      R (step st op).1 m' ∧ (step st op).2 = st.2 ++ o.toList)
    (ops : List ω) (st : σ × Diagnostics) (start : R st.1 m) :
    ∃ log m', Takes target (ops.map toStep) m log m' ∧ R (ops.foldl step st).1 m' ∧
      (ops.foldl step st).2 = st.2 ++ log.errors := by
  induction ops generalizing st m with
  | nil => exact ⟨[], m, .nil m, start, (List.append_nil _).symm⟩
  | cons op ops ih =>
    obtain ⟨o, m', ends, related, findings⟩ := each op st m start
    obtain ⟨log, m'', rest, related, findings'⟩ := ih (step st op) related
    refine ⟨(toStep op, o) :: log, m'', .cons ends rest, related, ?_⟩
    rw [List.foldl_cons, findings', findings, List.append_assoc]
    cases o <;> rfl

end

end DeltaLang
