import DeltaLang.Diagnostic
import DeltaLang.Typing.Context

/-!
# Typing expressions

A typed expression is the expression with its number in the body, its type, the signature it
calls, the findings about itself, and its typed parts from left to right.  Expressions are numbered
as their typing ends, so parts come before the whole.
-/

namespace DeltaLang

/-- An expression with what the type checker found out about it. -/
inductive TypedExpr where
  | mk (expr : Expr) (index : Nat) (type : Ty) (callee : Option Signature)
      (findings : Diagnostics) (parts : List TypedExpr)

namespace TypedExpr

def expr : TypedExpr → Expr
  | mk e _ _ _ _ _ => e

def index : TypedExpr → Nat
  | mk _ i _ _ _ _ => i

def type : TypedExpr → Ty
  | mk _ _ t _ _ _ => t

/-- The signature that a call was resolved to. -/
def callee : TypedExpr → Option Signature
  | mk _ _ _ c _ _ => c

def findings : TypedExpr → Diagnostics
  | mk _ _ _ _ ds _ => ds

def parts : TypedExpr → List TypedExpr
  | mk _ _ _ _ _ ts => ts

/-- The node of the expression in the body of a context. -/
def node (cx : Context) (t : TypedExpr) : NodeRef := .expr cx.className cx.bodyName t.index

end TypedExpr

/-- A type with the findings made in determining it, and the signature called, if any. -/
structure Typing where
  type : Ty
  findings : Diagnostics
  callee : Option Signature

namespace Typing

def clean (type : Ty) : Typing := ⟨type, [], none⟩

/-- An error, after which the type is unknown. -/
def error (kind : DiagnosticKind) (message : String) (loc : Option Location) : Typing :=
  ⟨.unknown, [.errorAt kind message loc], none⟩

end Typing

namespace SymbolTable

variable (t : SymbolTable)

/-- The finding, if any, that a value does not fit where another type is expected. -/
def expectAssignable (found expected : Ty) (what : String) (loc : Option Location) : Diagnostics :=
  if t.isAssignable found expected then []
  else
    [.errorAt .typeMismatch
      (what ++ " has type " ++ found.text ++ ", expected " ++ expected.text) loc]

/-- The findings about the arguments of a call; `module` is where the parameters are written. -/
def checkArgs (what : String) (params : List Param) (module : String) (found : List Ty)
    (loc : Option Location) : Diagnostics :=
  if params.length ≠ found.length then
    [.errorAt .wrongArgumentCount
      (what ++ " expects " ++ toString params.length ++ " argument(s), found " ++
        toString found.length) loc]
  else
    (params.zip found).flatMap fun (p, ty) =>
      t.expectAssignable ty (t.typeOr module p.type) ("argument " ++ p.name ++ " of " ++ what) loc

/-- The signature called on a receiver, and the module its types are resolved in. -/
def lookupMethod (receiver : Ty) (method : String) (loc : Option Location) :
    Option (Signature × String) × Diagnostics :=
  let unknown (what name : String) : Diagnostics :=
    [.errorAt .unknownMethod (what ++ " " ++ name ++ " has no method " ++ method) loc]
  match receiver with
  | .unknown => (none, [])
  | .interface name =>
    match t.interfaces.resolve none name with
    | .error _ => (none, [])
    | .ok i =>
      match t.findMethod? i method with
      | some sig => (some (sig, i.module), [])
      | none => (none, unknown "interface" name)
  | .class name =>
    match t.classes.resolve none name with
    | .error _ => (none, [])
    | .ok c =>
      let own := (c.decl.method? method).map (·.sig)
      let inherited := (t.implementedInterfaces c).findSome? fun i =>
        i.decl.methods.find? (·.name == method)
      match own.or inherited with
      | some sig => (some (sig, c.module), [])
      | none => (none, unknown "class" name)
  | other =>
    (none, [.errorAt .typeMismatch
      ("cannot call method " ++ method ++ " on a value of type " ++ other.text) loc])

/-! ## The rules, one for each form, given the types of the parts -/

def typeVar (cx : Context) (name : String) (loc : Option Location) : Typing :=
  match cx.lookup name with
  | some b => .clean b.type
  | none => .error .unknownVariable ("variable " ++ name ++ " is not declared") loc

def typeField (cx : Context) (name : String) (loc : Option Location) : Typing :=
  match cx.field? name with
  | some b => .clean b.type
  | none => .error .unknownField ("class " ++ cx.className ++ " has no field " ++ name) loc

def typeUnary (op : UnaryOp) (found : Ty) (loc : Option Location) : Typing :=
  let expected := match op with
    | .not => Ty.bool
    | .neg => Ty.int
  ⟨expected, t.expectAssignable found expected "operand" loc, none⟩

/-- Both operands must have one type, which is also that of the result or makes it a truth
value. -/
def typeOperands (op : BinaryOp) (l r operand result : Ty) (loc : Option Location) : Typing :=
  let what := "operand of " ++ op.symbol
  ⟨result, t.expectAssignable l operand what loc ++ t.expectAssignable r operand what loc, none⟩

def typeBinary (op : BinaryOp) (l r : Ty) (loc : Option Location) : Typing :=
  match op with
  | .and | .or => t.typeOperands op l r .bool .bool loc
  | .eq | .ne =>
    if t.isComparable l r then .clean .bool
    else
      ⟨.bool, [.errorAt .typeMismatch ("cannot compare " ++ l.text ++ " with " ++ r.text) loc],
        none⟩
  | .lt | .le | .gt | .ge => t.typeOperands op l r .int .bool loc
  | .add =>
    if l = .string ∨ r = .string then t.typeOperands op l r .string .string loc
    else t.typeOperands op l r .int .int loc
  | .sub | .mul | .div | .mod => t.typeOperands op l r .int .int loc

def typeCall (receiver : Ty) (method : String) (args : List Ty) (async : Bool)
    (loc : Option Location) : Typing :=
  match t.lookupMethod receiver method loc with
  | (none, ds) => ⟨.unknown, ds, none⟩
  | (some (sig, module), ds) =>
    let ret := t.typeOr module sig.ret
    ⟨if async then .fut ret else ret,
      ds ++ t.checkArgs ("method " ++ method) sig.params module args loc, some sig⟩

def typeGet (future : Ty) (loc : Option Location) : Typing :=
  match future with
  | .fut value => .clean value
  | .unknown => .clean .unknown
  | other =>
    .error .typeMismatch ("get on a value of type " ++ other.text ++ ", expected a future") loc

def typeNew (module cls : String) (args : List Ty) (loc : Option Location) : Typing :=
  match t.classes.resolve (some module) cls with
  | .ok c =>
    ⟨.class c.qualifiedName, t.checkArgs ("class " ++ cls) c.decl.params c.module args loc, none⟩
  | .error .unresolved => .error .unknownClass ("class " ++ cls ++ " is not declared") loc
  | .error e => .error .ambiguousName ("class " ++ cls ++ " is " ++ e.text) loc

def typeOriginal (cx : Context) (args : List Ty) (loc : Option Location) : Typing :=
  match cx.version? with
  | some v =>
    ⟨t.typeOr cx.module v.sig.ret, t.checkArgs "original" v.sig.params cx.module args loc, none⟩
  | none => .error .unknownMethod "original() used outside of a method" loc

/-! ## The traversal -/

/-- The typed expression of a typing, numbered after its parts. -/
def typed (e : Expr) (ty : Typing) (parts : List TypedExpr) (next : Nat) : TypedExpr :=
  .mk e next ty.type ty.callee ty.findings parts

mutual

/-- Types an expression whose first part gets the number `next`. -/
def typeExpr (cx : Context) (next : Nat) : Expr → TypedExpr
  | e@(.bool ..) => typed e (.clean .bool) [] next
  | e@(.int ..) => typed e (.clean .int) [] next
  | e@(.str ..) => typed e (.clean .string) [] next
  | e@(.null _) => typed e (.clean .null) [] next
  | e@(.this _) => typed e (.clean (.class cx.className)) [] next
  | e@(.var name loc) => typed e (typeVar cx name loc) [] next
  | e@(.field name loc) => typed e (typeField cx name loc) [] next
  | e@(.unary op operand loc) =>
    let o := typeExpr cx next operand
    typed e (t.typeUnary op o.type loc) [o] (o.index + 1)
  | e@(.binary op lhs rhs loc) =>
    let l := typeExpr cx next lhs
    let r := typeExpr cx (l.index + 1) rhs
    typed e (t.typeBinary op l.type r.type loc) [l, r] (r.index + 1)
  | e@(.call target method args async loc) =>
    let receiver := typeExpr cx next target
    let (as, n) := typeExprs cx (receiver.index + 1) args
    typed e (t.typeCall receiver.type method (as.map (·.type)) async loc) (receiver :: as) n
  | e@(.get future loc) =>
    let f := typeExpr cx next future
    typed e (typeGet f.type loc) [f] (f.index + 1)
  | e@(.new cls args _ loc) =>
    let (as, n) := typeExprs cx next args
    typed e (t.typeNew cx.module cls (as.map (·.type)) loc) as n
  | e@(.original args loc) =>
    let (as, n) := typeExprs cx next args
    typed e (t.typeOriginal cx (as.map (·.type)) loc) as n

/-- Types expressions from left to right, and tells the number after the last. -/
def typeExprs (cx : Context) (next : Nat) : List Expr → List TypedExpr × Nat
  | [] => ([], next)
  | e :: es =>
    let e' := typeExpr cx next e
    let (es', n) := typeExprs cx (e'.index + 1) es
    (e' :: es', n)

end

end SymbolTable

end DeltaLang
