/-!
# Source locations

A location names a file (if the text came from one), a line and a column, both counted from one.
-/

namespace DeltaLang

/-- A place in a source text; columns count code points. -/
structure Location where
  file : Option String
  line : Nat
  column : Nat
deriving DecidableEq, Inhabited, Repr

namespace Location

/-- The written form `file:line:column`, without the file if there is none. -/
def text (l : Location) : String :=
  let place := toString l.line ++ ":" ++ toString l.column
  match l.file with
  | some file => file ++ ":" ++ place
  | none => place

end Location

end DeltaLang
