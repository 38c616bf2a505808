/-!
# Location types

Seen from an object, another one is near, if it lives in the same group of objects, or far, or may
be either.  A far object created at a known site is far of that site.  Location types are ordered
by how much they admit: the bottom type admits nothing, and `somewhere` everything.
-/

namespace DeltaLang

inductive LocationType where
  | bottom
  | near
  | far
  | somewhere
  /-- Far, and created at the site of that number. -/
  | farOf (site : Nat)
deriving DecidableEq, Inhabited, Repr

namespace LocationType

/-- The name of the kind of location type. -/
def kindName : LocationType → String
  | bottom => "Bottom"
  | near => "Near"
  | far => "Far"
  | somewhere => "Somewhere"
  | farOf _ => "ParametricFar"

def text : LocationType → String
  | farOf site => "Far(" ++ toString site ++ ")"
  | t => t.kindName

/-- Whether the type may be written in a program or set as default. -/
def isUserType : LocationType → Bool
  | near | far | somewhere => true
  | _ => false

def isFar : LocationType → Bool
  | far | farOf _ => true
  | _ => false

/-- Whether every object that the first type admits is admitted by the second. -/
def isSubtypeOf (a b : LocationType) : Bool :=
  a == b || a == bottom || b == somewhere || (a.isFar && b == far)

/-- The least type that admits what either admits. -/
def join (a b : LocationType) : LocationType :=
  if a.isSubtypeOf b then b
  else if b.isSubtypeOf a then a
  else if a.isFar && b.isFar then far
  else somewhere

/-- Where an object is, seen from here, that a receiver located at the first type declares to be
located at the second. -/
def adapt : LocationType → LocationType → LocationType
  | bottom, _ | _, bottom => bottom
  | near, declared => declared
  | receiver, near => receiver
  | _, _ => somewhere

end LocationType

/-- How far creation sites are told apart. -/
inductive Precision where
  /-- Every new object is far, of no site. -/
  | basic
  /-- Sites are kept in locals. -/
  | methodLocal
  /-- Sites are kept in fields and class parameters too. -/
  | classLocal
  /-- Sites are kept everywhere. -/
  | global
deriving DecidableEq, Inhabited, Repr

/-- The highest rank of storage in which sites are kept. -/
def Precision.scope : Precision → Nat
  | basic => 0
  | methodLocal => 1
  | classLocal => 2
  | global => 3

/-- A type as it is stored at a rank: beyond the precision's scope its site is forgotten. -/
def LocationType.widen (rank : Nat) (p : Precision) : LocationType → LocationType
  | farOf site => if p.scope < rank then far else farOf site
  | t => t

/-! ## Options -/

structure LocationOptions where
  /-- The type of declarations that nothing flows into, and of parameters and results that are not
  annotated. -/
  default : LocationType
  precision : Precision
  /-- Whether to report how many declarations have each kind of type. -/
  statistics : Bool
deriving DecidableEq, Inhabited

namespace LocationOptions

def standard : LocationOptions := ⟨.somewhere, .classLocal, false⟩

end LocationOptions

/-- A text that names no option. -/
structure OptionError where
  what : String
  value : String
deriving DecidableEq, Inhabited, Repr

def OptionError.message (e : OptionError) : String := "unknown " ++ e.what ++ " " ++ e.value

/-- A text with its ASCII letters in lower case. -/
def lowerCase (s : String) : String := String.ofList (s.toList.map Char.toLower)

/-- The location type that a text names; case does not matter. -/
def LocationType.parse (s : String) : Except OptionError LocationType :=
  match [bottom, near, far, somewhere].find? fun t => lowerCase t.kindName == lowerCase s with
  | some t => .ok t
  | none => .error ⟨"location type", s⟩

/-- The names of the precisions. -/
def Precision.names : List (String × Precision) :=
  [("basic", basic), ("method", methodLocal), ("method_local_far_locations", methodLocal),
    ("class", classLocal), ("class_local_far_locations", classLocal), ("global", global),
    ("global_far_locations", global)]

/-- The precision that a text names; case does not matter. -/
def Precision.parse (s : String) : Except OptionError Precision :=
  match names.lookup (lowerCase s) with
  | some p => .ok p
  | none => .error ⟨"location typing precision", s⟩

end DeltaLang
