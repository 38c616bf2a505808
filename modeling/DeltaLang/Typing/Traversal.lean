import DeltaLang.Typing.Expr

/-!
# The traversal of a program

Type checking visits every class: its fields, the interfaces it must implement, its initial body,
the bodies of all versions of its methods, and its recovery block.  The traversal is a list of
events in order: findings of the checker itself, and visits, at which extensions look on.  It does
not depend on who looks on.
-/

namespace DeltaLang

/-- What is visited.  A statement or expression is visited after what it contains. -/
inductive Visit where
  | beforeClass
  | afterClass
  | beforeBody (block : Block)
  | afterBody (block : Block)
  /-- A statement, with the expression it evaluates itself. -/
  | stmt (s : Stmt) (value : Option TypedExpr)
  | expr (e : TypedExpr)
  /-- The end of the traversal. -/
  | finish

inductive Event where
  | finding (d : Diagnostic)
  | visit (cx : Option Context) (v : Visit)

namespace TypedExpr

mutual

/-- The events of an expression: those of its parts, its own findings, and the visit to it. -/
def events (cx : Context) : TypedExpr → List Event
  | e@(.mk _ _ _ _ ds parts) => eventsOfAll cx parts ++ ds.map .finding ++ [.visit cx (.expr e)]

def eventsOfAll (cx : Context) : List TypedExpr → List Event
  | [] => []
  | e :: es => events cx e ++ eventsOfAll cx es

end

end TypedExpr

/-- What changes along a body: its scopes, and the numbers of the next expression and local. -/
structure BodyState where
  scopes : List (List Binding)
  nextExpr : Nat
  nextLocal : Nat

namespace BodyState

/-- Adds a binding to the innermost scope. -/
def bind (st : BodyState) (b : Binding) : BodyState :=
  { st with
    nextLocal := st.nextLocal + 1
    scopes := match st.scopes with
      | scope :: outer => (b :: scope) :: outer
      | [] => [] }

def enter (st : BodyState) : BodyState := { st with scopes := [] :: st.scopes }

def leave (st : BodyState) : BodyState := { st with scopes := st.scopes.tail }

end BodyState

namespace SymbolTable

variable (t : SymbolTable)

/-- A written type, and the finding if there is no such type. -/
def checkType (module : String) (u : TypeUse) (loc : Option Location) : Ty × Diagnostics :=
  match t.resolveType (some module) u with
  | .ok ty => (ty, [])
  | .error e@(.ambiguous ..) => (.unknown, [.errorAt .ambiguousName e.message loc])
  | .error e => (.unknown, [.errorAt .unknownType e.message loc])

/-! ## Statements -/

/-- What an assignment writes to, and the finding if there is no such thing. -/
def targetType (cx : Context) (loc : Option Location) : Target → Option Ty × Diagnostics
  | .var name =>
    match cx.lookup name with
    | some b => (some b.type, [])
    | none =>
      (none, [.errorAt .unknownVariable ("variable " ++ name ++ " is not declared") loc])
  | .field name =>
    match cx.field? name with
    | some b => (some b.type, [])
    | none =>
      (none, [.errorAt .unknownField ("class " ++ cx.className ++ " has no field " ++ name) loc])

/-- Types an expression of the body under traversal. -/
def typeIn (cx : Context) (st : BodyState) (e : Expr) : TypedExpr × BodyState :=
  let e' := t.typeExpr (cx.withScopes st.scopes) st.nextExpr e
  (e', { st with nextExpr := e'.index + 1 })

/-- The events of an expression and the findings that follow. -/
def evaluated (cx : Context) (st : BodyState) (e : TypedExpr) (ds : Diagnostics) : List Event :=
  e.events (cx.withScopes st.scopes) ++ ds.map .finding

/-- The visit to a statement, in the scopes after it. -/
def visited (cx : Context) (st : BodyState) (s : Stmt) (value : Option TypedExpr) : Event :=
  .visit (cx.withScopes st.scopes) (.stmt s value)

mutual

/-- Traverses a statement of a body; `ret` is the type the body must return. -/
def walkStmt (cx : Context) (ret : Ty) (st : BodyState) : Stmt → BodyState × List Event
  | s@(.skip _) => (st, [visited cx st s none])
  | s@(.ret value loc) =>
    let (v, st) := t.typeIn cx st value
    let ds := t.expectAssignable v.type ret "returned value" loc
    (st, evaluated cx st v ds ++ [visited cx st s (some v)])
  | s@(.decl type name none loc) =>
    let (ty, ds) := t.checkType cx.module type loc
    let st := st.bind ⟨name, .local cx.className cx.bodyName name st.nextLocal, ty⟩
    (st, ds.map .finding ++ [visited cx st s none])
  | s@(.decl type name (some value) loc) =>
    let (ty, ds) := t.checkType cx.module type loc
    let (v, st) := t.typeIn cx st value
    let es := evaluated cx st v (t.expectAssignable v.type ty ("initial value of " ++ name) loc)
    let st := st.bind ⟨name, .local cx.className cx.bodyName name st.nextLocal, ty⟩
    (st, ds.map .finding ++ es ++ [visited cx st s (some v)])
  | s@(.assign target value loc) =>
    let (v, st) := t.typeIn cx st value
    let (ty, ds) := targetType (cx.withScopes st.scopes) loc target
    let mismatch := match ty with
      | some expected => t.expectAssignable v.type expected "assigned value" loc
      | none => []
    (st, evaluated cx st v (ds ++ mismatch) ++ [visited cx st s (some v)])
  | s@(.ite cond yes none loc) =>
    let (c, st) := t.typeIn cx st cond
    let es := evaluated cx st c (t.expectAssignable c.type .bool "condition" loc)
    let (st, ys) := walkStmts cx ret st.enter yes
    (st.leave, es ++ ys ++ [visited cx st.leave s (some c)])
  | s@(.ite cond yes (some no) loc) =>
    let (c, st) := t.typeIn cx st cond
    let es := evaluated cx st c (t.expectAssignable c.type .bool "condition" loc)
    let (st, ys) := walkStmts cx ret st.enter yes
    let (st, ns) := walkStmts cx ret st.leave.enter no
    (st.leave, es ++ ys ++ ns ++ [visited cx st.leave s (some c)])
  | s@(.loop cond body loc) =>
    let (c, st) := t.typeIn cx st cond
    let es := evaluated cx st c (t.expectAssignable c.type .bool "loop condition" loc)
    let (st, bs) := walkStmts cx ret st.enter body
    (st.leave, es ++ bs ++ [visited cx st.leave s (some c)])
  | s@(.eval value _) =>
    let (v, st) := t.typeIn cx st value
    (st, evaluated cx st v [] ++ [visited cx st s (some v)])

/-- Traverses statements in order. -/
def walkStmts (cx : Context) (ret : Ty) (st : BodyState) : List Stmt → BodyState × List Event
  | [] => (st, [])
  | s :: ss =>
    let (st, es) := walkStmt cx ret st s
    let (st, rest) := walkStmts cx ret st ss
    (st, es ++ rest)

end

/-! ## Bodies -/

/-- Traverses a body: the statements of `prelude` in the outermost scope, then the block in a
scope of its own. -/
def walkBody (cx : Context) (name : String) (version : Option Version) (ret : Ty)
    (params : List Binding) (prelude block : Block) : List Event :=
  let cx := { cx with body := some ⟨name, version, ret, [params]⟩ }
  let (st, before) := t.walkStmts cx ret ⟨[params], 0, 0⟩ prelude
  let (_, within) := t.walkStmts cx ret st.enter block
  .visit cx (.beforeBody block) :: before ++ within ++ [.visit cx (.afterBody block)]

def initBody : String := "<init>"

def recoverBody : String := "<recover>"

/-- The assignments that give fields their initial values. -/
def fieldInits (c : ClassDecl) : Block :=
  c.fields.filterMap fun f => f.value.map fun v => .assign (.field f.name) v f.loc

/-- The name of the body of the version at a position among the versions of a method. -/
def versionBody (name : String) (i : Nat) : String :=
  if i = 0 then name else name ++ "#original" ++ toString i

/-- The bindings of parameters, the last first, and the findings about their types. -/
def bindParams (cx : Context) (body : String) (sig : Signature) : List Binding × Diagnostics :=
  sig.params.foldl (fun (bs, ds) p =>
    let (ty, more) := t.checkType cx.module p.type (p.loc.or sig.loc)
    (⟨p.name, .param cx.className body p.name, ty⟩ :: bs, ds ++ more)) ([], [])

/-- Traverses the body of a version of a method. -/
def walkVersion (cx : Context) (v : Version) (i : Nat) : List Event :=
  let body := versionBody v.name i
  let (ret, retFindings) := t.checkType cx.module v.sig.ret v.sig.loc
  let (params, paramFindings) := t.bindParams cx body v.sig
  (retFindings ++ paramFindings).map .finding ++ t.walkBody cx body (some v) ret params [] v.body

/-! ## Classes and interfaces -/

/-- The signatures that a class must have methods for and does not, one for each name. -/
def missingMethods (cx : Context) : Diagnostics :=
  let required := (t.implementedInterfaces cx.cls).flatMap fun i =>
    i.decl.methods.map fun sig => (sig.name, i.name)
  let missing := required.filter fun (name, _) => (cx.cls.decl.method? name).isNone
  let firsts := missing.eraseDupsBy fun a b => a.1 == b.1
  firsts.map fun (name, interface) =>
    .errorAt .missingInterfaceMethod
      ("class " ++ cx.className ++ " does not implement method " ++ name ++ " of interface " ++
        interface) cx.cls.decl.loc

/-- The bindings of class parameters and fields, and the findings about their types. -/
def bindFields (c : Entry ClassDecl) : List Binding × Diagnostics :=
  let params := c.decl.params.map fun p =>
    let (ty, ds) := t.checkType c.module p.type (p.loc.or c.decl.loc)
    ((⟨p.name, .classParam c.qualifiedName p.name, ty⟩ : Binding), ds)
  let fields := c.decl.fields.map fun f =>
    let (ty, ds) := t.checkType c.module f.type f.loc
    ((⟨f.name, .field c.qualifiedName f.name, ty⟩ : Binding), ds)
  ((params ++ fields).map Prod.fst, (params ++ fields).flatMap Prod.snd)

/-- Traverses a class. -/
def walkClass (c : Entry ClassDecl) : List Event :=
  let (fields, ds) := t.bindFields c
  let cx : Context := ⟨c, fields, none⟩
  let init := t.walkBody cx initBody none .unit [] (fieldInits c.decl) (c.decl.init.getD [])
  let methods := c.decl.methods.flatMap fun m =>
    m.versions.zipIdx.flatMap fun (v, i) => t.walkVersion cx v i
  let recover := c.decl.recover.toList.flatMap fun block =>
    t.walkBody cx recoverBody none .unit [] [] block
  ds.map .finding ++ [.visit cx .beforeClass] ++ (t.missingMethods cx).map .finding ++ init ++
    methods ++ recover ++ [.visit cx .afterClass]

/-- The findings about the types in the signatures of an interface. -/
def walkInterface (i : Entry InterfaceDecl) : List Event :=
  (i.decl.methods.flatMap fun sig =>
    (t.checkType i.module sig.ret sig.loc).2 ++
      sig.params.flatMap fun p => (t.checkType i.module p.type (p.loc.or sig.loc)).2).map .finding

/-- The entries of a module, which is given by the places of its unit and within it. -/
def ofModule {α : Type} (ns : Namespace α) (unit module : Nat) : List (Entry α) :=
  ns.filter fun e => e.path.unit == unit && e.path.module == module

/-- The traversal of a model: in each module the interfaces, then the classes; then the end. -/
def walkModel (m : Model) : List Event :=
  (m.units.zipIdx.flatMap fun (unit, u) =>
    (List.range unit.modules.length).flatMap fun i =>
      (ofModule t.interfaces u i).flatMap t.walkInterface ++
        (ofModule t.classes u i).flatMap t.walkClass) ++ [.visit none .finish]

end SymbolTable

end DeltaLang
