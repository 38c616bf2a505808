import DeltaLang.Grammar.Place

/-!
# Parsing expression grammars

A grammar gives each rule an expression and a mode.  Recognising is by ordered choice without
backtracking into a choice that succeeded.  A rule that matches yields a node of the parse tree;
inside an atomic rule no blanks are skipped and no nodes are kept.

Along the way the rules that failed at the furthest position are kept: they name what was expected
there if the whole parse fails.
-/

namespace DeltaLang

/-- A parsing expression over rules of type `ρ`. -/
inductive Peg (ρ : Type) where
  /-- Matches without reading. -/
  | empty
  /-- Reads exactly these characters. -/
  | lit (text : List Char)
  /-- Reads one character of a class. -/
  | one (f : Char → Bool)
  /-- Reads as many characters of a class as there are. -/
  | span (f : Char → Bool)
  /-- Matches at the end of the text only. -/
  | endOfText
  /-- Skips blanks and comments, except inside an atomic or compound rule. -/
  | skip
  | cat (a b : Peg ρ)
  | alt (a b : Peg ρ)
  /-- Matches as often as possible, perhaps never. -/
  | loop (a : Peg ρ)
  /-- Matches without reading where `a` does not match. -/
  | not (a : Peg ρ)
  | rule (r : ρ)

/-- How a rule treats blanks and nodes within it.  An atomic rule skips no blanks, keeps no nodes
and keeps no failures; a compound rule only skips no blanks. -/
inductive RuleMode where
  | normal
  | atomic
  | compound
deriving DecidableEq, Inhabited, Repr

structure Grammar (ρ : Type) where
  body : ρ → Peg ρ
  mode : ρ → RuleMode

/-- A node of a parse tree: the rule, where its text starts, its text, and the nodes within. -/
inductive ParseTree (ρ : Type) where
  | node (rule : ρ) (start : Position) (text : String) (children : List (ParseTree ρ))

namespace ParseTree

variable {ρ : Type}

def rule : ParseTree ρ → ρ
  | node r _ _ _ => r

def start : ParseTree ρ → Position
  | node _ s _ _ => s

def text : ParseTree ρ → String
  | node _ _ t _ => t

def children : ParseTree ρ → List (ParseTree ρ)
  | node _ _ _ ts => ts

end ParseTree

namespace Peg

variable {ρ : Type}

/-! ## Derived expressions -/

/-- A word or mark of the language. -/
def word (s : String) : Peg ρ := lit s.toList

/-- One after the other, with blanks between. -/
def seq (a b : Peg ρ) : Peg ρ := cat a (cat skip b)

/-- At most once. -/
def opt (a : Peg ρ) : Peg ρ := alt a empty

/-- Any number of times, with blanks between; blanks after the last are not read. -/
def many (a : Peg ρ) : Peg ρ := opt (cat a (loop (cat skip a)))

/-- The first of the alternatives that matches. -/
def choice : List (Peg ρ) → Peg ρ
  | [] => not empty
  | [a] => a
  | a :: as => alt a (choice as)

/-- All of them in order, with blanks between. -/
def sequence : List (Peg ρ) → Peg ρ
  | [] => empty
  | [a] => a
  | a :: as => seq a (sequence as)

/-- One or more, separated by commas. -/
def commaList (a : Peg ρ) : Peg ρ := seq a (many (seq (word ",") a))

end Peg

/-! ## Expected rules -/

/-- The rules that failed at the furthest position reached, in the order of failing. -/
structure Attempts (ρ : Type) where
  pos : Position
  rules : List ρ

namespace Attempts

variable {ρ : Type}

def none : Attempts ρ := ⟨.start, []⟩

/-- The number of failures kept for a position. -/
def countAt (a : Attempts ρ) (pos : Position) : Nat :=
  if pos.offset = a.pos.offset then a.rules.length else 0

/-- Notes that rule `r`, entered at `pos` with the attempts `entry`, failed.  If exactly one
failure at `pos` was noted while it ran, that one says more and stays alone. -/
def note (a entry : Attempts ρ) (pos : Position) (r : ρ) : Attempts ρ :=
  if a.countAt pos = entry.countAt pos + 1 then a
  else if pos.offset = a.pos.offset then
    { a with rules := a.rules.take (entry.countAt pos) ++ [r] }
  else if a.pos.offset < pos.offset then ⟨pos, [r]⟩
  else a

end Attempts

/-! ## Recognising -/

/-- The result of matching: failure, or the place after the match and the nodes within. -/
inductive Outcome (ρ : Type) where
  | fail (attempts : Attempts ρ)
  | ok (next : Place) (trees : List (ParseTree ρ)) (attempts : Attempts ρ)

namespace Grammar

variable {ρ : Type}

/-- Matches an expression at a place.  The first argument bounds the depth of the recursion;
`none` says that it was too small. -/
def match? (g : Grammar ρ) :
    Nat → Peg ρ → RuleMode → Place → Attempts ρ → Option (Outcome ρ)
  | 0, _, _, _, _ => none
  | depth + 1, e, mode, p, seen =>
    match e with
    | .empty => some (.ok p [] seen)
    | .lit cs =>
      match p.eat? cs with
      | some q => some (.ok q [] seen)
      | none => some (.fail seen)
    | .one f =>
      match p.rest with
      | c :: rest => some (if f c then .ok ⟨p.pos.advance c, rest⟩ [] seen else .fail seen)
      | [] => some (.fail seen)
    | .span f => some (.ok (Place.eatWhile f p.pos p.rest) [] seen)
    | .endOfText => some (if p.rest.isEmpty then .ok p [] seen else .fail seen)
    | .skip => some (.ok (if mode = .normal then p.skipBlanks else p) [] seen)
    | .cat a b =>
      match match? g depth a mode p seen with
      | some (.ok q ts seen) =>
        match match? g depth b mode q seen with
        | some (.ok q' ts' seen) => some (.ok q' (ts ++ ts') seen)
        | other => other
      | other => other
    | .alt a b =>
      match match? g depth a mode p seen with
      | some (.fail seen) => match? g depth b mode p seen
      | other => other
    | .loop a =>
      match match? g depth a mode p seen with
      | some (.fail seen) => some (.ok p [] seen)
      | some (.ok q ts seen) =>
        match match? g depth (.loop a) mode q seen with
        | some (.ok q' ts' seen) => some (.ok q' (ts ++ ts') seen)
        | other => other
      | none => none
    | .not a =>
      match match? g depth a mode p seen with
      | some (.fail _) => some (.ok p [] seen)
      | some (.ok ..) => some (.fail seen)
      | none => none
    | .rule r =>
      let inner := if g.mode r = .normal then mode else g.mode r
      match match? g depth (g.body r) inner p seen with
      | some (.ok q ts seen') =>
        let trees := if mode = .atomic then [] else [.node r p.pos (p.textUntil q) ts]
        some (.ok q trees seen')
      | some (.fail seen') =>
        some (.fail (if mode = .atomic then seen' else seen'.note seen p.pos r))
      | none => none

end Grammar

end DeltaLang
