import DeltaLang.Program.Stmt

/-!
# Methods and their versions

A method that modifies another one keeps what it replaced: `original(..)` in its body runs the
version before it.  A method is therefore its current version together with the list of earlier
versions, newest first.
-/

namespace DeltaLang

structure Param where
  name : String
  type : TypeUse
  loc : Option Location
deriving DecidableEq, Inhabited

structure Signature where
  name : String
  ret : TypeUse
  params : List Param
  loc : Option Location
deriving DecidableEq, Inhabited

/-- A signature with the body that implements it. -/
structure Version where
  sig : Signature
  body : Block
deriving DecidableEq, Inhabited

/-- A method: the current version, and the versions it replaced, newest first. -/
structure Method extends Version where
  earlier : List Version
deriving DecidableEq, Inhabited

namespace Signature

/-- The written form `Ret name(Type p, Type q)`. -/
def text (s : Signature) : String :=
  s.ret.text ++ " " ++ s.name ++ "(" ++
    ", ".intercalate (s.params.map fun p => p.type.text ++ " " ++ p.name) ++ ")"

end Signature

namespace Version

def name (v : Version) : String := v.sig.name

/-- Whether the body calls the version before this one. -/
def callsOriginal (v : Version) : Bool := v.body.callsOriginal

end Version

namespace Method

/-- The method with no earlier version. -/
def ofVersion (v : Version) : Method := ⟨v, []⟩

/-- All versions, newest first. -/
def versions (m : Method) : List Version := m.toVersion :: m.earlier

/-- The number of earlier versions. -/
def depth (m : Method) : Nat := m.earlier.length

/-- The method with `old` put behind its oldest version. -/
def replacing (m old : Method) : Method := { m with earlier := m.earlier ++ old.versions }

theorem versions_replacing (m old : Method) :
    (m.replacing old).versions = m.versions ++ old.versions := rfl

end Method

end DeltaLang
