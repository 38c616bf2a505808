import DeltaLang.Names.Lookup
import DeltaLang.Text.Quoted

/-!
# Values and faults

Running a program yields values.  An object is referred to by its place in the heap; a future
holds the value it was resolved to when it was made.  A fault is why an evaluation cannot go on.
-/

namespace DeltaLang

inductive Value where
  | bool (b : Bool)
  | int (n : Int)
  | str (s : String)
  | unit
  | null
  /-- The object at a place of the heap. -/
  | object (id : Nat)
  /-- A resolved future. -/
  | future (v : Value)
deriving DecidableEq, Inhabited, Repr

namespace Value

/-- The word for what a value is, as it is used in faults. -/
def kindName : Value → String
  | bool _ => "Bool"
  | int _ => "Int"
  | str _ => "String"
  | unit => "Unit"
  | null => "null"
  | object _ => "object"
  | future _ => "future"

def text : Value → String
  | bool b => if b then "true" else "false"
  | int n => toString n
  | str s => Text.quoted s
  | unit => "Unit"
  | null => "null"
  | object id => "object#" ++ toString id
  | future v => "future(" ++ text v ++ ")"

end Value

inductive Fault where
  | unknownClass (name : String)
  | ambiguousClass (name : String) (reason : LookupError)
  | unknownMethod (cls method : String)
  | unknownField (cls field : String)
  | unboundVariable (name : String)
  /-- What is called or created, and the number of arguments it expects and those it found. -/
  | argumentCount (what : String) (expected found : Nat)
  | nullReceiver (method : String)
  /-- `original(..)` in a method that replaced none, or in an initializer. -/
  | noOriginal (method : Option String)
  | mismatch (expected found : String)
  | divisionByZero
  | overflow
  /-- All the steps of that budget are taken. -/
  | outOfFuel (budget : Nat)
deriving DecidableEq, Inhabited, Repr

namespace Fault

def message : Fault → String
  | unknownClass name => "class " ++ name ++ " is not declared"
  | ambiguousClass name reason => "class " ++ name ++ " is " ++ reason.text
  | unknownMethod cls method => "class " ++ cls ++ " has no method " ++ method
  | unknownField cls field => "class " ++ cls ++ " has no field " ++ field
  | unboundVariable name => "variable " ++ name ++ " is not bound"
  | argumentCount what expected found =>
    what ++ " expects " ++ toString expected ++ " argument(s), found " ++ toString found
  | nullReceiver method => "call of " ++ method ++ " on null"
  | noOriginal method =>
    "original() in " ++ method.getD "an initializer" ++ ", which replaced no method"
  | mismatch expected found => "expected " ++ expected ++ ", found " ++ found
  | divisionByZero => "division by zero"
  | overflow => "integer overflow"
  | outOfFuel budget => "step budget of " ++ toString budget ++ " exhausted"

/-- The fault that a value is not what is expected. -/
def unfit (expected : String) (found : Value) : Fault := .mismatch expected found.kindName

end Fault

end DeltaLang
