import DeltaLang.Reading.Elaborate

/-!
# Reading a source text

A source text either is a compilation unit or has a fault: a syntax error, at the furthest place
the grammar reached, or a fault of a text that the grammar accepts, which has no place.
-/

namespace DeltaLang

/-- Why a text is no compilation unit. -/
inductive ParseError where
  /-- None of the expected rules matches at the place. -/
  | unexpected (expected : List Rule) (loc : Location)
  | build (e : BuildError)
deriving DecidableEq, Inhabited, Repr

namespace ParseError

def message : ParseError → String
  | unexpected [] _ => "unexpected input"
  | unexpected rules _ => "expected " ++ " or ".intercalate (rules.map Rule.name)
  | build e => e.message

def location : ParseError → Option Location
  | unexpected _ loc => some loc
  | build _ => none

/-- The written form `place: message`. -/
def text (e : ParseError) : String :=
  (match e.location with
    | some l => l.text
    | none => "<unknown>") ++ ": " ++ e.message

end ParseError

/-- A depth of recursion that is enough to match the grammar against so many characters: between
two characters read, the grammar cannot nest deeper than this constant. -/
def matchDepth (length : Nat) : Nat := 400 * (length + 2)

/-- The error for failed attempts: the rules are listed in the order of the grammar, once each. -/
def ParseError.ofAttempts (file : Option String) (a : Attempts Rule) : ParseError :=
  .unexpected (Rule.all.filter a.rules.contains) ⟨file, a.pos.line, a.pos.column⟩

/-- The parse tree of a text. -/
def parseTree (file : Option String) (text : String) : Except ParseError (ParseTree Rule) :=
  let start := Place.ofText text
  match Concrete.grammar.match? (matchDepth start.rest.length) (.rule .unit) .normal start
      Attempts.none with
  | some (.ok _ [t] _) => .ok t
  | some (.fail attempts) => .error (.ofAttempts file attempts)
  | _ => .error (.ofAttempts file Attempts.none)

/-- The compilation unit written by a text; the file only shows in locations. -/
def parseUnit (file : Option String) (text : String) : Except ParseError CompilationUnit := do
  let tree ← parseTree file text
  match Elaborate.unit file tree with
  | .ok unit => .ok unit
  | .error e => .error (.build e)

end DeltaLang
