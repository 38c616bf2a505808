/-!
# Places in a text

A place is a position together with the text from there on.  Reading a character moves the
position: a newline ends a line, every other character, a carriage return included, is a column.
-/

namespace DeltaLang

/-- An offset in code points from the start, and the line and column there, from one. -/
structure Position where
  offset : Nat
  line : Nat
  column : Nat
deriving DecidableEq, Inhabited, Repr

namespace Position

def start : Position := ⟨0, 1, 1⟩

/-- The position after reading `c`. -/
def advance (p : Position) (c : Char) : Position :=
  if c = '\n' then ⟨p.offset + 1, p.line + 1, 1⟩ else ⟨p.offset + 1, p.line, p.column + 1⟩

theorem offset_advance (p : Position) (c : Char) : (p.advance c).offset = p.offset + 1 := by
  unfold advance; split <;> rfl

end Position

structure Place where
  pos : Position
  rest : List Char
deriving DecidableEq, Inhabited, Repr

namespace Place

def ofText (text : String) : Place := ⟨.start, text.toList⟩

/-- Reads exactly the given characters, if they come next. -/
def eat? : List Char → Place → Option Place
  | [], p => some p
  | c :: cs, ⟨pos, d :: rest⟩ => if c = d then eat? cs ⟨pos.advance d, rest⟩ else none
  | _ :: _, ⟨_, []⟩ => none

/-- Reads as many characters as belong to the class `f`. -/
def eatWhile (f : Char → Bool) (pos : Position) : List Char → Place
  | [] => ⟨pos, []⟩
  | c :: rest => if f c then eatWhile f (pos.advance c) rest else ⟨pos, c :: rest⟩

theorem rest_eatWhile (f : Char → Bool) (pos : Position) (cs : List Char) :
    (eatWhile f pos cs).rest = cs.dropWhile f := by
  induction cs generalizing pos with
  | nil => rfl
  | cons c cs ih => by_cases h : f c <;> simp [eatWhile, h, ih]

/-- The text read between a place and a later one. -/
def textUntil (p q : Place) : String :=
  String.ofList (p.rest.take (q.pos.offset - p.pos.offset))

/-! ## Blanks and comments -/

/-- Where the skipping of blanks stands: between tokens, in a comment that runs to the end of the
line, or in one that began at the given place and must be closed. -/
inductive BlankMode where
  | between
  | line
  | block (start : Place)

def isBlank (c : Char) : Bool := c == ' ' || c == '\t' || c == '\r' || c == '\n'

/-- Skips blanks and comments.  A comment that is never closed is not skipped. -/
def skipFrom : BlankMode → Position → List Char → Place
  | .between, pos, '/' :: '/' :: rest => skipFrom .line ((pos.advance '/').advance '/') rest
  | .between, pos, '/' :: '*' :: rest =>
    skipFrom (.block ⟨pos, '/' :: '*' :: rest⟩) ((pos.advance '/').advance '*') rest
  | .between, pos, c :: rest =>
    if isBlank c then skipFrom .between (pos.advance c) rest else ⟨pos, c :: rest⟩
  | .line, pos, c :: rest =>
    skipFrom (if c = '\n' then .between else .line) (pos.advance c) rest
  | .block _, pos, '*' :: '/' :: rest =>
    skipFrom .between ((pos.advance '*').advance '/') rest
  | .block start, pos, c :: rest => skipFrom (.block start) (pos.advance c) rest
  | .block start, _, [] => start
  | .between, pos, [] => ⟨pos, []⟩
  | .line, pos, [] => ⟨pos, []⟩

/-- The place after the blanks and comments that come next. -/
def skipBlanks (p : Place) : Place := skipFrom .between p.pos p.rest

end Place

end DeltaLang
