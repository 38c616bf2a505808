import DeltaLang.Typing.Ty

/-!
# Places of the traversal

A node of the program is referred to by the class it belongs to, the body within the class, and
its name or number there.  A context is what is in scope at a point of the traversal: the class,
its fields, and within a body the variables, the innermost and latest first.
-/

namespace DeltaLang

/-- A reference to a node.  Classes are qualified by their module; a body is a method name or
`<init>` or `<recover>`; locals and expressions are numbered within their body. -/
inductive NodeRef where
  | class (cls : String)
  | field (cls field : String)
  | classParam (cls param : String)
  | method (cls method : String)
  | param (cls body param : String)
  | local (cls body name : String) (index : Nat)
  | expr (cls body : String) (index : Nat)
deriving DecidableEq, Inhabited, Repr

namespace NodeRef

def text : NodeRef → String
  | «class» c => c
  | field c f => c ++ "." ++ f
  | classParam c p => c ++ "(" ++ p ++ ")"
  | method c m => c ++ "." ++ m ++ "()"
  | param c b p => c ++ "." ++ b ++ "(" ++ p ++ ")"
  | «local» c b n _ => c ++ "." ++ b ++ ":" ++ n
  | expr c b i => c ++ "." ++ b ++ "#" ++ toString i

/-- The key that node references are ordered by: their form, then their names, then their
number. -/
def key : NodeRef → Nat × List String × Nat
  | «class» c => (0, [c], 0)
  | field c f => (1, [c, f], 0)
  | classParam c p => (2, [c, p], 0)
  | method c m => (3, [c, m], 0)
  | param c b p => (4, [c, b, p], 0)
  | «local» c b n i => (5, [c, b, n], i)
  | expr c b i => (6, [c, b], i)

/-- Whether a node comes strictly before another one. -/
def lt (a b : NodeRef) : Bool :=
  let (m, xs, i) := a.key
  let (n, ys, j) := b.key
  m < n || (m == n && (xs < ys || (xs == ys && i < j)))

end NodeRef

/-- A name in scope: the node it stands for and its type. -/
structure Binding where
  name : String
  node : NodeRef
  type : Ty
deriving DecidableEq, Inhabited

/-- The body under traversal: its name, the method version it belongs to, the type of what it
returns, and its scopes, innermost first, each with its latest binding first. -/
structure BodyContext where
  name : String
  version : Option Version
  ret : Ty
  scopes : List (List Binding)

/-- A point of the traversal within a class. -/
structure Context where
  cls : Entry ClassDecl
  fields : List Binding
  body : Option BodyContext

namespace Context

def module (cx : Context) : String := cx.cls.module

def className (cx : Context) : String := cx.cls.qualifiedName

def field? (cx : Context) (name : String) : Option Binding := cx.fields.find? (·.name == name)

/-- What a variable name means here: a variable in scope, or else a field. -/
def lookup (cx : Context) (name : String) : Option Binding :=
  let scopes := match cx.body with
    | some b => b.scopes
    | none => []
  (scopes.flatten.find? (·.name == name)).or (cx.field? name)

/-- The name of the body, empty outside of bodies. -/
def bodyName (cx : Context) : String :=
  match cx.body with
  | some b => b.name
  | none => ""

/-- The method version whose body this is, if it is one's. -/
def version? (cx : Context) : Option Version := cx.body.bind (·.version)

/-- The context with other scopes. -/
def withScopes (cx : Context) (scopes : List (List Binding)) : Context :=
  { cx with body := cx.body.map fun b => { b with scopes := scopes } }

end Context

end DeltaLang
