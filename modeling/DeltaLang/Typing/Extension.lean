import DeltaLang.Typing.Traversal

/-!
# Extensions of the type checker

An extension is a state machine that looks on as a program is traversed.  At each visit it sees
the place of the traversal and its own annotations, and answers with effects: findings, which carry
its name, and annotations, which are kept under its name.  Extensions cannot see each other.

Before the traversal each extension may refuse its configuration, which ends type checking.  The
states of extensions outlive the traversal.
-/

namespace DeltaLang

inductive AnnotationValue where
  | flag (b : Bool)
  | int (n : Int)
  | text (s : String)
deriving DecidableEq, Inhabited, Repr

def AnnotationValue.shown : AnnotationValue → String
  | flag b => if b then "true" else "false"
  | int n => toString n
  | text s => s

/-! ## Annotations -/

/-- An annotation of a node by the extension of that name. -/
structure AnnotationRecord where
  extension : String
  node : NodeRef
  value : AnnotationValue
deriving DecidableEq, Inhabited

/-- Annotations, no two of one node by one extension. -/
structure Annotations where
  records : List AnnotationRecord

namespace Annotations

def empty : Annotations := ⟨[]⟩

def get? (a : Annotations) (extension : String) (node : NodeRef) : Option AnnotationValue :=
  (a.records.find? fun r => r.extension == extension && r.node == node).map (·.value)

/-- Annotates a node, in place of an earlier annotation of it by the same extension. -/
def insert (a : Annotations) (r : AnnotationRecord) : Annotations :=
  ⟨r :: a.records.filter fun s => !(s.extension == r.extension && s.node == r.node)⟩

/-- Whether a record comes strictly before another: by extension, then by node. -/
def recordLt (r s : AnnotationRecord) : Bool :=
  r.extension < s.extension || (r.extension == s.extension && r.node.lt s.node)

/-- The records in their order. -/
def sorted (a : Annotations) : List AnnotationRecord :=
  a.records.mergeSort fun r s => !recordLt s r

/-- The annotations of one extension, in their order. -/
def ofExtension (a : Annotations) (extension : String) : List AnnotationRecord :=
  a.sorted.filter (·.extension == extension)

end Annotations

/-! ## Extensions -/

inductive ExtensionError where
  | configuration (message : String)
  | duplicateName (name : String)
deriving DecidableEq, Inhabited, Repr

def ExtensionError.message : ExtensionError → String
  | configuration message => "invalid configuration: " ++ message
  | duplicateName name => "an extension named " ++ name ++ " is already registered"

/-- What an extension sees: the program, the place of the traversal, and its own annotations. -/
structure View where
  model : Model
  symbols : SymbolTable
  context : Option Context
  annotation? : NodeRef → Option AnnotationValue

inductive Effect where
  | report (d : Diagnostic)
  | annotate (node : NodeRef) (value : AnnotationValue)

/-- A warning at a place. -/
def Effect.warn (message : String) (loc : Option Location) : Effect :=
  .report ⟨.fromExtension, .warning, message, loc, none⟩

/-- An extension with its present state. -/
structure Extension (σ : Type) where
  name : String
  state : σ
  /-- Called once before each traversal; it may refuse. -/
  configure : View → σ → Except ExtensionError (σ × List Effect)
  /-- Called at each visit. -/
  observe : View → Visit → σ → σ × List Effect

/-- The extension as one whose state is part of a wider type of states. -/
def Extension.embed {σ τ : Type} (e : Extension σ) (into : σ → τ) (out? : τ → Option σ) :
    Extension τ where
  name := e.name
  state := into e.state
  configure view s :=
    match out? s with
    | some x => (e.configure view x).map fun (x, effects) => (into x, effects)
    | none => .ok (s, [])
  observe view v s :=
    match out? s with
    | some x =>
      let (x, effects) := e.observe view v x
      (into x, effects)
    | none => (s, [])

/-- Extensions with distinct names, in the order of registration. -/
abbrev Registry (σ : Type) := List (Extension σ)

namespace Registry

variable {σ : Type}

def names (r : Registry σ) : List String := r.map (·.name)

/-- Adds an extension, unless its name is taken. -/
def register (r : Registry σ) (e : Extension σ) : Except ExtensionError (Registry σ) :=
  if e.name ∈ r.names then .error (.duplicateName e.name) else .ok (r ++ [e])

end Registry

/-! ## Looking on -/

/-- What type checking yields: findings in order, and annotations. -/
structure Checked where
  findings : Diagnostics
  annotations : Annotations

namespace Checked

def empty : Checked := ⟨[], .empty⟩

/-- Carries out an effect of the extension of that name. -/
def perform (name : String) (c : Checked) : Effect → Checked
  | .report d =>
    { c with findings := c.findings ++ [{ d with kind := .fromExtension, origin := some name }] }
  | .annotate node value => { c with annotations := c.annotations.insert ⟨name, node, value⟩ }

end Checked

/-- Type checking under way: the extensions as they are now, and what they and the checker have
yielded. -/
structure Progress (σ : Type) where
  registry : Registry σ
  checked : Checked

namespace Extension

variable {σ : Type}

/-- What an extension sees at a place of the traversal. -/
def view (e : Extension σ) (m : Model) (t : SymbolTable) (c : Checked) (cx : Option Context) :
    View :=
  ⟨m, t, cx, c.annotations.get? e.name⟩

end Extension

section

variable {σ : Type} (m : Model) (t : SymbolTable)

/-- Lets the extensions configure themselves in order, up to the first that refuses. -/
def configureAll : Registry σ → Checked → Progress σ × Option (String × ExtensionError)
  | [], c => (⟨[], c⟩, none)
  | e :: es, c =>
    match e.configure (e.view m t c none) e.state with
    | .error err => (⟨e :: es, c⟩, some (e.name, err))
    | .ok (state, effects) =>
      let (rest, failure) := configureAll es (effects.foldl (Checked.perform e.name) c)
      ({ rest with registry := { e with state := state } :: rest.registry }, failure)

/-- Lets the extensions look on at a visit, in order. -/
def observeAll (cx : Option Context) (v : Visit) : Registry σ → Checked → Progress σ
  | [], c => ⟨[], c⟩
  | e :: es, c =>
    let (state, effects) := e.observe (e.view m t c cx) v e.state
    let rest := observeAll cx v es (effects.foldl (Checked.perform e.name) c)
    { rest with registry := { e with state := state } :: rest.registry }

/-- Follows one event of the traversal. -/
def Progress.follow (p : Progress σ) : Event → Progress σ
  | .finding d => { p with checked := { p.checked with findings := p.checked.findings ++ [d] } }
  | .visit cx v => observeAll m t cx v p.registry p.checked

end

/-- An extension that refused its configuration. -/
structure ConfigurationError where
  extension : String
  reason : ExtensionError
deriving DecidableEq, Inhabited

def ConfigurationError.message (e : ConfigurationError) : String :=
  "extension " ++ e.extension ++ " rejected its configuration: " ++ e.reason.message

/-- Type checks a model while the extensions look on, and tells the extensions as they are
afterwards. -/
def typeCheck {σ : Type} (m : Model) (registry : Registry σ) :
    Except ConfigurationError Checked × Registry σ :=
  let t := SymbolTable.ofModel m
  let (start, failure) := configureAll m t registry .empty
  match failure with
  | some (name, reason) => (.error ⟨name, reason⟩, start.registry)
  | none =>
    let done := (t.walkModel m).foldl (Progress.follow m t) start
    (.ok done.checked, done.registry)

end DeltaLang
