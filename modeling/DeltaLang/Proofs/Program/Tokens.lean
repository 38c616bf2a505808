import DeltaLang.Program.Decl
import DeltaLang.Proofs.Program.Written

/-!
# Tokens of trait expressions

A trait expression is written as a list of tokens, with its operators from left to right.  Its
methods skip, and it comes back from a text aside from locations.
-/

namespace DeltaLang

open Concrete

/-! ## Types and signatures -/

namespace TypeUse

mutual

/-- The type and its arguments have qualified names, and annotations are identifiers. -/
def Writable : TypeUse → Prop
  | ⟨name, args, annotations⟩ =>
    IsQualifiedName name ∧ (∀ a ∈ annotations, isIdentifier a = true) ∧ WritableAll args

def WritableAll : List TypeUse → Prop
  | [] => True
  | t :: ts => Writable t ∧ WritableAll ts

end

mutual

/-- The tokens `[a] [b] Name<arg, arg>`. -/
def tokens : TypeUse → List String
  | ⟨name, args, annotations⟩ =>
    annotations.flatMap (fun a => ["[", a, "]"]) ++ (name :: argTokens args)

def argTokens : List TypeUse → List String
  | [] => []
  | t :: ts => "<" :: (tokens t ++ (moreTokens ts ++ [">"]))

/-- The arguments after the first, each after a comma. -/
def moreTokens : List TypeUse → List String
  | [] => []
  | t :: ts => "," :: tokens t ++ moreTokens ts

end

theorem moreTokens_eq_flatMap (ts : List TypeUse) :
    moreTokens ts = ts.flatMap fun t => "," :: t.tokens := by
  induction ts with
  | nil => rfl
  | cons t ts ih => rw [moreTokens, ih, List.flatMap_cons]

end TypeUse

/-- The tokens `Type name`. -/
def Param.tokens (p : Param) : List String := p.type.tokens ++ [p.name]

def Param.unlocated (p : Param) : Param := { p with loc := none }

structure Param.Writable (p : Param) : Prop where
  name : isIdentifier p.name = true
  type : p.type.Writable

/-- Tokens of a list, with commas between. -/
def listTokens {α : Type} (tokens : α → List String) : List α → List String
  | [] => []
  | a :: as => tokens a ++ as.flatMap fun a => "," :: tokens a

namespace Signature

/-- The tokens `Ret name(Type p, Type q)`. -/
def tokens (s : Signature) : List String :=
  s.ret.tokens ++ (s.name :: "(" :: (listTokens Param.tokens s.params ++ [")"]))

def unlocated (s : Signature) : Signature :=
  { s with params := s.params.map Param.unlocated, loc := none }

structure Writable (s : Signature) : Prop where
  name : isIdentifier s.name = true
  ret : s.ret.Writable
  params : ∀ p ∈ s.params, p.Writable

end Signature

/-! ## Methods -/

namespace Stmt

mutual

/-- The statement without its locations. -/
def unlocated : Stmt → Stmt
  | skip _ => .skip none
  | ret e _ => .ret e.unlocated none
  | decl type name value _ => .decl type name (value.map Expr.unlocated) none
  | assign target e _ => .assign target e.unlocated none
  | ite c yes none _ => .ite c.unlocated (unlocatedAll yes) none none
  | ite c yes (some no) _ => .ite c.unlocated (unlocatedAll yes) (some (unlocatedAll no)) none
  | loop c body _ => .loop c.unlocated (unlocatedAll body) none
  | eval e _ => .eval e.unlocated none

def unlocatedAll : List Stmt → List Stmt
  | [] => []
  | s :: ss => unlocated s :: unlocatedAll ss

end

end Stmt

def Version.unlocated (v : Version) : Version := ⟨v.sig.unlocated, Stmt.unlocatedAll v.body⟩

namespace Method

def unlocated (m : Method) : Method :=
  ⟨m.toVersion.unlocated, m.earlier.map Version.unlocated⟩

/-- The tokens of a method that only skips. -/
def tokens (m : Method) : List String := m.sig.tokens ++ ["\x7b", "skip", ";", "\x7d"]

/-- The method only skips, and replaced no other one. -/
structure Skips (m : Method) : Prop where
  sig : m.sig.Writable
  unlocated : m.unlocated = .ofVersion ⟨m.sig.unlocated, [.skip none]⟩

end Method

/-! ## Trait expressions -/

/-- The tokens `{ sig; sig; }`. -/
def sigSetTokens (sigs : List Signature) : List String :=
  "\x7b" :: (sigs.flatMap (fun s => s.tokens ++ [";"]) ++ ["\x7d"])

namespace TraitExpr

/-- The tokens of a trait expression whose operators associate to the left. -/
def tokens : TraitExpr → List String
  | ref name _ => [name]
  | set ms => "\x7b" :: (ms.flatMap Method.tokens ++ ["\x7d"])
  | adds base extra => tokens base ++ ("adds" :: tokens extra)
  | modifies base extra => tokens base ++ ("modifies" :: tokens extra)
  | removes base sigs => tokens base ++ ("removes" :: sigSetTokens sigs)

/-- The trait expression without its locations. -/
def unlocated : TraitExpr → TraitExpr
  | ref name _ => .ref name none
  | set ms => .set (ms.map Method.unlocated)
  | adds base extra => .adds (unlocated base) (unlocated extra)
  | modifies base extra => .modifies (unlocated base) (unlocated extra)
  | removes base sigs => .removes (unlocated base) (sigs.map Signature.unlocated)

/-- The name of a trait, or a set of methods that skip. -/
def IsOperand : TraitExpr → Prop
  | ref name _ => IsQualifiedName name
  | set ms => ∀ m ∈ ms, m.Skips
  | _ => False

/-- The name of an operand that has one. -/
def name? : TraitExpr → Option String
  | ref name _ => some name
  | _ => none

theorem references_unlocated (e : TraitExpr) : e.unlocated.references = e.references := by
  induction e <;> simp_all only [unlocated, references]

theorem IsOperand.references {e : TraitExpr} (h : e.IsOperand) :
    e.references = e.name?.toList := by
  cases e <;> first | rfl | cases h

end TraitExpr

namespace TraitUse

/-- The tokens of an operator with its right operand. -/
def tokens : TraitUse → List String
  | adds e => "adds" :: e.tokens
  | modifies e => "modifies" :: e.tokens
  | removes sigs => "removes" :: sigSetTokens sigs

def unlocated : TraitUse → TraitUse
  | adds e => .adds e.unlocated
  | modifies e => .modifies e.unlocated
  | removes sigs => .removes (sigs.map Signature.unlocated)

/-- The right operand of the operator is one that can be written. -/
def IsOperator : TraitUse → Prop
  | adds e | modifies e => e.IsOperand
  | removes sigs => ∀ s ∈ sigs, s.Writable

theorem tokens_apply (base : TraitExpr) (u : TraitUse) :
    (u.apply base).tokens = base.tokens ++ u.tokens := by
  cases u <;> rfl

theorem unlocated_apply (base : TraitExpr) (u : TraitUse) :
    (u.apply base).unlocated = u.unlocated.apply base.unlocated := by
  cases u <;> rfl

variable {us : List TraitUse}

theorem tokens_foldl_apply (us : List TraitUse) (base : TraitExpr) :
    (us.foldl apply base).tokens = base.tokens ++ us.flatMap tokens := by
  induction us generalizing base with
  | nil => exact (List.append_nil _).symm
  | cons u us ih =>
    rw [List.foldl_cons, ih, tokens_apply, List.flatMap_cons, List.append_assoc]

theorem unlocated_foldl_apply (us : List TraitUse) (base : TraitExpr) :
    (us.foldl apply base).unlocated = (us.map unlocated).foldl apply base.unlocated := by
  induction us generalizing base with
  | nil => rfl
  | cons u us ih => rw [List.foldl_cons, ih, unlocated_apply, List.map_cons, List.foldl_cons]

/-- An operator refers to what its right operand names. -/
theorem references_apply (base : TraitExpr) {u : TraitUse} (h : u.IsOperator) :
    (u.apply base).references = base.references ++ (u.expr?.bind TraitExpr.name?).toList := by
  cases u with
  | adds e | modifies e => exact congrArg (base.references ++ ·) (TraitExpr.IsOperand.references h)
  | removes sigs => exact (List.append_nil _).symm

theorem references_foldl_apply (all : ∀ u ∈ us, u.IsOperator) (base : TraitExpr) :
    (us.foldl apply base).references =
      base.references ++ us.filterMap fun u => u.expr?.bind TraitExpr.name? := by
  induction us generalizing base with
  | nil => exact (List.append_nil _).symm
  | cons u us ih =>
    rw [List.foldl_cons, ih fun v mem => all v (List.mem_cons_of_mem u mem),
      references_apply base (all u (List.mem_cons_self ..)), List.append_assoc,
      List.filterMap_cons]
    cases u.expr?.bind TraitExpr.name? <;> rfl

end TraitUse

end DeltaLang
