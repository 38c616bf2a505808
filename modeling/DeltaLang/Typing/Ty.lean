import DeltaLang.Names.Interfaces

/-!
# Static types

A written type denotes a static type: one of the built-in types, a future, or an interface by its
qualified name.  Classes are types of `this` and of new objects only.  `unknown` stands where an
earlier finding was made and fits everywhere.
-/

namespace DeltaLang

inductive Ty where
  | bool
  | int
  | string
  | unit
  | fut (value : Ty)
  /-- The interface of that qualified name. -/
  | interface (name : String)
  /-- The class of that qualified name. -/
  | class (name : String)
  | null
  | unknown
deriving DecidableEq, Inhabited, Repr

namespace Ty

/-- Whether the values are references to objects, or futures of such. -/
def isReference : Ty → Bool
  | interface _ | «class» _ | null => true
  | fut t => isReference t
  | _ => false

def text : Ty → String
  | bool => "Bool"
  | int => "Int"
  | string => "String"
  | unit => "Unit"
  | fut t => "Fut<" ++ text t ++ ">"
  | interface name => name
  | «class» name => "class " ++ name
  | null => "null"
  | unknown => "<unknown>"

/-- The place of the form of type in the order of types. -/
def rank : Ty → Nat
  | bool => 0
  | int => 1
  | string => 2
  | unit => 3
  | fut _ => 4
  | interface _ => 5
  | «class» _ => 6
  | null => 7
  | unknown => 8

/-- Orders types by their form, then by their contents. -/
def order : Ty → Ty → Ordering
  | fut a, fut b => order a b
  | interface m, interface n => compareOfLessAndEq m n
  | «class» m, «class» n => compareOfLessAndEq m n
  | a, b => compareOfLessAndEq a.rank b.rank

end Ty

/-! ## Written types -/

/-- Why a written type denotes none. -/
inductive TypeError where
  | unknown (name : String)
  | ambiguous (name : String) (reason : LookupError)
  | arity (name : String) (expected found : Nat)
deriving DecidableEq, Inhabited

def TypeError.message : TypeError → String
  | unknown name => "unknown type " ++ name
  | ambiguous name reason => "type " ++ name ++ " is " ++ reason.text
  | arity name expected found =>
    "type " ++ name ++ " expects " ++ toString expected ++ " type argument(s), found " ++
      toString found

/-- The built-in types without arguments. -/
def Ty.builtin? (name : String) : Option Ty :=
  if name = "Bool" then some .bool
  else if name = "Int" then some .int
  else if name = "String" then some .string
  else if name = "Unit" then some .unit
  else none

namespace SymbolTable

/-- The type that is written in a module, or outside of all modules. -/
def resolveType (t : SymbolTable) (module : Option String) : TypeUse → Except TypeError Ty
  | ⟨name, args, _⟩ =>
    if name = "Fut" then
      match args with
      | [arg] => (resolveType t module arg).map .fut
      | _ => .error (.arity name 1 args.length)
    else if args ≠ [] then .error (.arity name 0 args.length)
    else
      match Ty.builtin? name with
      | some ty => .ok ty
      | none =>
        match t.interfaces.resolve module name with
        | .ok e => .ok (.interface e.qualifiedName)
        | .error .unresolved => .error (.unknown name)
        | .error reason => .error (.ambiguous name reason)

/-- The type that is written in a module, unknown if there is none. -/
def typeOr (t : SymbolTable) (module : String) (u : TypeUse) : Ty :=
  match t.resolveType (some module) u with
  | .ok ty => ty
  | .error _ => .unknown

/-! ## Relations between types -/

/-- Whether a class implements an interface, both given by qualified names. -/
def classImplements (t : SymbolTable) (cls interface : String) : Bool :=
  match t.classes.resolve none cls, t.interfaces.resolve none interface with
  | .ok c, .ok target => (t.implementedInterfaces c).any (·.path == target.path)
  | _, _ => false

/-- Whether a value of the first type may be stored where the second is expected. -/
def isAssignable (t : SymbolTable) : Ty → Ty → Bool
  | .unknown, _ | _, .unknown => true
  | .fut a, .fut b => a == b || isAssignable t a b
  | .null, target => target.isReference
  | .interface sub, .interface sup => sub == sup || t.isSubinterface sub sup
  | .class cls, .interface sup => t.classImplements cls sup
  | a, b => a == b

theorem isAssignable_refl (t : SymbolTable) (ty : Ty) : t.isAssignable ty ty = true := by
  cases ty <;> simp [isAssignable, Ty.isReference]

/-- Whether values of the two types may be compared for equality. -/
def isComparable (t : SymbolTable) (a b : Ty) : Bool :=
  t.isAssignable a b || t.isAssignable b a || (a.isReference && b.isReference)

end SymbolTable

end DeltaLang
