import DeltaLang.Location.Flow
import DeltaLang.Typing.Extension

/-!
# Inferring location types

An extension of the type checker that finds out, for every declaration that holds references,
where the objects it holds live.  While it looks on it records a term for each expression that
yields a reference, a flow for each value stored, and demands on values.  At the end it solves the
flows, annotates the declarations, and reports values stored into declarations that do not admit
them and demands that are not met.

Annotated declarations are fixed.  Parameters and results of methods that are not annotated have
the default type, since a caller may pass whatever the signature allows.
-/

namespace DeltaLang

/-- A value must be of a type, provided that the guard, if there is one, turns out near. -/
structure Demand where
  value : LocationTerm
  expected : LocationType
  guard : Option LocationTerm
  message : String
  loc : Option Location
deriving DecidableEq, Inhabited, Repr

/-- What the extension has recorded. -/
structure LocationState where
  options : LocationOptions
  decls : List (NodeRef × LocationDecl)
  flows : List Flow
  demands : List Demand
  /-- The terms of the expressions of the present body. -/
  terms : List (NodeRef × LocationTerm)
  /-- The type of what the present method returns. -/
  returns : Option LocationType
  /-- The number of creation sites met. -/
  sites : Nat
deriving Inhabited

namespace LocationState

def initial (options : LocationOptions) : LocationState := ⟨options, [], [], [], [], none, 0⟩

/-- The location type that a written type is annotated with. -/
def fixedBy (u : TypeUse) : Option LocationType :=
  u.annotations.findSome? fun a => (LocationType.parse a).toOption

/-- The location type of a parameter or result of the written type. -/
def declared (s : LocationState) (u : TypeUse) : LocationType :=
  (fixedBy u).getD s.options.default

/-- The term of an expression of the present body. -/
def term? (s : LocationState) (cx : Context) (e : TypedExpr) : Option LocationTerm :=
  s.terms.lookup (e.node cx)

/-- Records a declaration, in place of an earlier one of the same node. -/
def declare (s : LocationState) (node : NodeRef) (d : LocationDecl) : LocationState :=
  { s with decls := (s.decls.filter fun (n, _) => n ≠ node) ++ [(node, d)] }

/-- Records that a value is stored into a declaration, if both are known. -/
def flow (s : LocationState) (value : Option LocationTerm) (target : Option NodeRef)
    (loc : Option Location) : LocationState :=
  match value, target with
  | some v, some n => { s with flows := s.flows ++ [⟨v, n, loc⟩] }
  | _, _ => s

def demand (s : LocationState) (d : Demand) : LocationState :=
  { s with demands := s.demands ++ [d] }

/-- The term of a new object that is not created near: that of a new site, if sites are told
apart. -/
def newSite (s : LocationState) : LocationState × LocationTerm :=
  if s.options.precision = .basic then (s, .const .far)
  else ({ s with sites := s.sites + 1 }, .const (.farOf (s.sites + 1)))

/-! ## Looking on -/

/-- Declares the fields and parameters of a class that hold references. -/
def enterClass (s : LocationState) (cx : Context) : LocationState :=
  (cx.fields.filter (·.type.isReference)).foldl
    (fun s b => s.declare b.node ⟨(cx.cls.decl.fieldType? b.name).bind fixedBy, 2⟩) s

/-- Declares the parameters of a method that hold references, and notes what it returns. -/
def enterBody (s : LocationState) (cx : Context) : LocationState :=
  match cx.version? with
  | none => { s with returns := none }
  | some v =>
    v.sig.params.foldl
      (fun s p =>
        match (cx.lookup p.name).filter (·.type.isReference) with
        | some b => s.declare b.node ⟨some (s.declared p.type), 1⟩
        | none => s)
      { s with returns := some (s.declared v.sig.ret) }

/-- Records what a call demands: a synchronous one that its receiver is near, and each that its
arguments are of the declared types if the receiver is near. -/
def demandCall (s : LocationState) (cx : Context) (method : String) (async : Bool)
    (loc : Option Location) (e receiver : TypedExpr) (args : List TypedExpr) : LocationState :=
  let target := s.term? cx receiver
  let s := match target with
    | some value =>
      if async then s
      else
        s.demand ⟨value, .near, none,
          "synchronous call of " ++ method ++ " on a receiver that may not be near", loc⟩
    | none => s
  let params := match e.callee with
    | some sig => sig.params
    | none => []
  (args.zip params).foldl
    (fun s (arg, p) =>
      match s.term? cx arg with
      | some value =>
        s.demand ⟨value, s.declared p.type, target,
          "argument " ++ p.name ++ " of " ++ method ++ " has an incompatible location", loc⟩
      | none => s) s

/-- Records the flow of the arguments of a creation into the parameters of the class. -/
def flowNew (s : LocationState) (t : SymbolTable) (cx : Context) (loc : Option Location)
    (e : TypedExpr) : LocationState :=
  match e.type with
  | .class name =>
    match t.classes.resolve none name with
    | .ok c =>
      (e.parts.zip c.decl.params).foldl
        (fun s (arg, p) => s.flow (s.term? cx arg) (some (.classParam name p.name)) loc) s
    | .error _ => s
  | _ => s

/-- The term of an expression that yields a reference, if it has one. -/
def termOf (s : LocationState) (cx : Context) (e : TypedExpr) :
    LocationState × Option LocationTerm :=
  match e.expr, e.parts with
  | .null _, _ => (s, some (.const .bottom))
  | .this _, _ => (s, some (.const .near))
  | .var name _, _ => (s, (cx.lookup name).map fun b => .var b.node)
  | .field name _, _ => (s, (cx.field? name).map fun b => .var b.node)
  | .new _ _ true _, _ => (s, some (.const .near))
  | .new _ _ false _, _ =>
    let (s, term) := s.newSite
    (s, some term)
  | .call .., receiver :: _ =>
    let result := match e.callee with
      | some sig => s.declared sig.ret
      | none => s.options.default
    match s.term? cx receiver with
    | some r => (s, some (.adapt r result))
    | none => (s, some (.const result))
  | .get .., future :: _ => (s, s.term? cx future)
  | .original .., _ => (s, some (.const (s.returns.getD s.options.default)))
  | _, _ => (s, none)

/-- Records what there is to record about an expression. -/
def visitExpr (s : LocationState) (t : SymbolTable) (cx : Context) (e : TypedExpr) :
    LocationState :=
  let s := match e.expr, e.parts with
    | .call _ method _ async loc, receiver :: args =>
      s.demandCall cx method async loc e receiver args
    | .new _ _ _ loc, _ => s.flowNew t cx loc e
    | _, _ => s
  if e.type.isReference then
    match s.termOf cx e with
    | (s, some term) => { s with terms := (e.node cx, term) :: s.terms }
    | (s, none) => s
  else s

/-- The declaration that an assignment writes to, if it holds references. -/
def targetNode (cx : Context) (target : Target) : Option NodeRef :=
  let binding := match target with
    | .var name => cx.lookup name
    | .field name => cx.field? name
  (binding.filter (·.type.isReference)).map (·.node)

/-- Records what there is to record about a statement. -/
def visitStmt (s : LocationState) (cx : Context) (stmt : Stmt) (value : Option TypedExpr) :
    LocationState :=
  let term := value.bind (s.term? cx)
  match stmt with
  | .decl type name _ loc =>
    match (cx.lookup name).filter (·.type.isReference) with
    | some b => (s.declare b.node ⟨fixedBy type, 1⟩).flow term (some b.node) loc
    | none => s
  | .assign target _ loc => s.flow term (targetNode cx target) loc
  | .ret _ loc =>
    match term, s.returns with
    | some v, some expected =>
      s.demand ⟨v, expected, none, "returned value has an incompatible location", loc⟩
    | _, _ => s
  | _ => s

/-! ## At the end -/

def system (s : LocationState) : FlowSystem := ⟨s.options, s.decls, s.flows⟩

/-- The warnings about values stored into annotated declarations that do not admit them. -/
def flowWarnings (s : LocationState) (values : Valuation) : List Effect :=
  s.flows.filterMap fun f =>
    (s.system.fixed? f.target).bind fun expected =>
      let found := s.system.eval values f.value
      if found.isSubtypeOf expected then none
      else
        some (.warn (found.text ++ " value stored into " ++ f.target.text ++ " declared " ++
          expected.text) f.loc)

/-- The warnings about demands that are not met. -/
def demandWarnings (s : LocationState) (values : Valuation) : List Effect :=
  s.demands.filterMap fun d =>
    let applies := d.guard.all fun g => (s.system.eval values g).isSubtypeOf .near
    let found := s.system.eval values d.value
    if applies && !found.isSubtypeOf d.expected then
      some (.warn (d.message ++ ": found " ++ found.text ++ ", expected " ++ d.expected.text)
        d.loc)
    else none

/-- The kinds of location types in the order of their names. -/
def kindNames : List String := ["Bottom", "Far", "Near", "ParametricFar", "Somewhere"]

/-- How many declarations have each kind of type. -/
def summary (types : List LocationType) : String :=
  let counts := kindNames.filterMap fun kind =>
    let n := types.countP (·.kindName == kind)
    if n = 0 then none else some (kind ++ "=" ++ toString n)
  "inferred " ++ toString types.length ++ " location types: " ++ ", ".intercalate counts

/-- The effects at the end of the traversal. -/
def conclude (s : LocationState) : List Effect :=
  let values := s.system.solve
  let types := s.decls.map fun (node, _) => (node, s.system.eval values (.var node))
  let statistics : List Effect :=
    if s.options.statistics then
      [.report ⟨.fromExtension, .info, summary (types.map Prod.snd), none, none⟩]
    else []
  s.flowWarnings values ++ s.demandWarnings values ++
    types.map (fun (node, t) => .annotate node (.text t.text)) ++ statistics

/-- What the extension does at a visit. -/
def observe (view : View) (v : Visit) (s : LocationState) : LocationState × List Effect :=
  match v, view.context with
  | .beforeClass, some cx => (s.enterClass cx, [])
  | .beforeBody _, some cx => (s.enterBody cx, [])
  | .afterBody _, _ => ({ s with terms := [] }, [])
  | .expr e, some cx => (s.visitExpr view.symbols cx e, [])
  | .stmt stmt value, some cx => (s.visitStmt cx stmt value, [])
  | .finish, _ => (s, s.conclude)
  | _, _ => (s, [])

/-- The default type must be one that users may write. -/
def configure (s : LocationState) : Except ExtensionError (LocationState × List Effect) :=
  if s.options.default.isUserType then .ok (s, [])
  else
    .error (.configuration
      ("default location type must be one of Near, Far, Somewhere; got " ++
        s.options.default.text))

end LocationState

def locationExtensionName : String := "location-types"

/-- The extension that infers location types. -/
def locationExtension (options : LocationOptions) : Extension LocationState where
  name := locationExtensionName
  state := .initial options
  configure _ s := s.configure
  observe := LocationState.observe

end DeltaLang
