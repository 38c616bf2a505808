import DeltaLang.Check.References
import DeltaLang.Names.Lookup
import DeltaLang.Trait.MethodSet

/-!
# Resolving traits and composing classes

A trait expression denotes a method set.  Each declared trait is resolved once and remembered by
its qualified name, so that its findings are reported once.  A trait that is met again while it is
being resolved is cyclic; it denotes the empty set there.

A class is composed by applying its `uses` clauses in order to its own methods.  In the composed
class every method that calls `original(..)` must have an earlier version.
-/

namespace DeltaLang

/-- What is known while traits are resolved: the sets of resolved traits, and the traits being
resolved, outermost first. -/
structure Resolver where
  memo : List (String × MethodSet)
  visiting : List String

namespace Resolver

/-- Nothing resolved yet. -/
def fresh : Resolver := ⟨[], []⟩

end Resolver

/-- A method set, the findings made on the way, and what is known afterwards. -/
structure Resolved where
  set : MethodSet
  findings : Diagnostics
  resolver : Resolver

namespace Resolved

/-- Applies an operator to the set and adds its findings. -/
def andThen (r : Resolved) (op : MethodSet → MethodSet × Diagnostics) : Resolved :=
  let (set, ds) := op r.set
  { r with set := set, findings := r.findings ++ ds }

end Resolved

namespace SymbolTable

/-- Resolves an expression written in a module; `declared` resolves a declared trait. -/
def resolveExprWith (t : SymbolTable) (declared : Entry TraitDecl → Resolver → Resolved)
    (module : Option String) : TraitExpr → Resolver → Resolved
  | .ref name loc, r =>
    match t.traits.resolve module name with
    | .ok e => declared e r
    | .error e => ⟨.empty, [Check.lookupFailure "trait" name loc e], r⟩
  | .set ms, r =>
    (⟨.empty, [], r⟩ : Resolved).andThen fun s =>
      s.insertAll "defined twice in one method set" ms
  | .adds base extra, r =>
    let b := resolveExprWith t declared module base r
    let e := resolveExprWith t declared module extra b.resolver
    (⟨b.set, b.findings ++ e.findings, e.resolver⟩ : Resolved).andThen fun s => s.addAll e.set
  | .modifies base extra, r =>
    let b := resolveExprWith t declared module base r
    let e := resolveExprWith t declared module extra b.resolver
    ⟨b.set.modifyAll e.set, b.findings ++ e.findings, e.resolver⟩
  | .removes base sigs, r =>
    (resolveExprWith t declared module base r).andThen fun s => s.removeAll sigs

/-- The finding that a trait is defined in terms of itself; `visiting` are the traits being
resolved. -/
def cyclicTrait (e : Entry TraitDecl) (visiting : List String) : Diagnostic :=
  .errorAt .cyclicTraitDefinition
    ("trait " ++ e.name ++ " is defined in terms of itself: " ++
      " -> ".intercalate (visiting.dropWhile (· ≠ e.qualifiedName) ++ [e.qualifiedName]))
    e.decl.loc

/-- Resolves a declared trait.  The first argument bounds how deep traits nest. -/
def resolveDeclared (t : SymbolTable) : Nat → Entry TraitDecl → Resolver → Resolved
  | 0, _, r => ⟨.empty, [], r⟩
  | depth + 1, e, r =>
    let key := e.qualifiedName
    if key ∈ r.visiting then ⟨.empty, [cyclicTrait e r.visiting], r⟩
    else
      match r.memo.lookup key with
      | some set => ⟨set, [], r⟩
      | none =>
        let inner := { r with visiting := r.visiting ++ [key] }
        let body := resolveExprWith t (resolveDeclared t depth) (some e.module) e.decl.expr inner
        { body with resolver := ⟨(key, body.set) :: body.resolver.memo, r.visiting⟩ }

/-- The deepest that traits can nest: each level visits another declared trait. -/
def traitDepth (t : SymbolTable) : Nat := t.traits.length + 2

/-- Resolves a declared trait. -/
def resolveTrait (t : SymbolTable) (e : Entry TraitDecl) (r : Resolver) : Resolved :=
  t.resolveDeclared t.traitDepth e r

/-- Resolves an expression written in a module, or outside of all modules. -/
def resolveExpr (t : SymbolTable) (module : Option String) (e : TraitExpr) (r : Resolver) :
    Resolved :=
  t.resolveExprWith (t.resolveDeclared t.traitDepth) module e r

/-! ## Composing classes -/

/-- Applies one `uses` clause to the methods so far. -/
def applyUse (t : SymbolTable) (module : String) (acc : Resolved) : TraitUse → Resolved
  | .adds e =>
    let extra := t.resolveExpr (some module) e acc.resolver
    (⟨acc.set, acc.findings ++ extra.findings, extra.resolver⟩ : Resolved).andThen fun s =>
      s.addAll extra.set
  | .modifies e =>
    let extra := t.resolveExpr (some module) e acc.resolver
    ⟨acc.set.modifyAll extra.set, acc.findings ++ extra.findings, extra.resolver⟩
  | .removes sigs => acc.andThen fun s => s.removeAll sigs

/-- The versions of a method that call `original(..)` and have none before them, of which there
is at most one, the oldest. -/
def unboundOriginals (cls : String) (m : Method) : Diagnostics :=
  (m.versions.getLast?.toList.filter Version.callsOriginal).map fun v =>
    .errorAt .noOriginalMethod
      ("method " ++ v.name ++ " of class " ++ cls ++ " calls original() but replaces no method")
      v.sig.loc

/-- The methods of a class of a module with its `uses` clauses applied. -/
def composeClass (t : SymbolTable) (module : String) (c : ClassDecl) (r : Resolver) : Resolved :=
  let own := (⟨.empty, [], r⟩ : Resolved).andThen fun s =>
    s.insertAll ("defined twice in class " ++ c.name) c.methods
  let used := c.uses.foldl (t.applyUse module) own
  used.andThen fun s => (s, s.methods.flatMap (unboundOriginals c.name))

end SymbolTable

end DeltaLang
