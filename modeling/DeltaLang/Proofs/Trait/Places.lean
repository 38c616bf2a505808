import DeltaLang.Delta.Flatten
import DeltaLang.Proofs.Names.Resolve
import Mathlib.Data.List.Forall2

/-!
# Composition does not depend on places

Traits are found by their names and modules.  So resolving traits, composing a class and editing
one only depend on the traits that are declared and their order, and not on their places.
-/

namespace DeltaLang

theorem foldl_eq_of_map_eq {α β γ : Type} {f : α → β} {g g' : γ → α → γ} {l l' : List α}
    (same : l.map f = l'.map f) (step : ∀ c a a', f a = f a' → g c a = g' c a') (c : γ) :
    l.foldl g c = l'.foldl g' c := by
  induction l generalizing l' c with
  | nil =>
    cases l' with
    | nil => rfl
    | cons a' l' => cases same
  | cons a l ih =>
    cases l' with
    | nil => cases same
    | cons a' l' =>
      rw [List.map_cons, List.map_cons, List.cons.injEq] at same
      rw [List.foldl_cons, List.foldl_cons, step c a a' same.1]
      exact ih same.2 (g' c a')

/-- Related lists have related elements. -/
theorem exists_of_forall₂ {α β : Type} {R : α → β → Prop} {as : List α} {bs : List β}
    (h : List.Forall₂ R as bs) : (∀ a ∈ as, ∃ b ∈ bs, R a b) ∧ ∀ b ∈ bs, ∃ a ∈ as, R a b := by
  induction h with
  | nil => simp
  | cons first rest ih =>
    simp only [List.mem_cons, forall_eq_or_imp, exists_eq_or_imp]
    exact ⟨⟨.inl first, fun a mem => .inr (ih.1 a mem)⟩, .inl first, fun b mem => .inr (ih.2 b mem)⟩

/-- The entry with its place forgotten. -/
def Entry.unplaced {α : Type} (e : Entry α) : Entry α := { e with path := default }

namespace Namespace

variable {α : Type} {ns ns' : Namespace α}

theorem resolve_map_unplaced (ns : Namespace α) (frm : Option String) (name : String) :
    resolve (ns.map Entry.unplaced) frm name = (ns.resolve frm name).map Entry.unplaced :=
  resolve_map (g := Entry.unplaced) (fun _ => rfl) (fun _ => rfl) frm name

/-- Where the same is declared, a name fails for the same reason or means the same. -/
theorem resolve_congr (same : ns.map Entry.unplaced = ns'.map Entry.unplaced)
    (frm : Option String) (name : String) :
    (∃ err, ns.resolve frm name = .error err ∧ ns'.resolve frm name = .error err) ∨
      ∃ e e', ns.resolve frm name = .ok e ∧ ns'.resolve frm name = .ok e' ∧
        e.unplaced = e'.unplaced := by
  have found : (ns.resolve frm name).map Entry.unplaced =
      (ns'.resolve frm name).map Entry.unplaced := by
    rw [← resolve_map_unplaced, same, resolve_map_unplaced]
  cases h : ns.resolve frm name with
  | error err =>
    cases h' : ns'.resolve frm name with
    | error err' =>
      rw [h, h'] at found
      exact .inl ⟨err, rfl, (congrArg Except.error (Except.error.inj found)).symm⟩
    | ok e' =>
      rw [h, h'] at found
      cases found
  | ok e =>
    cases h' : ns'.resolve frm name with
    | error err' =>
      rw [h, h'] at found
      cases found
    | ok e' =>
      rw [h, h'] at found
      exact .inr ⟨e, e', rfl, rfl, Except.ok.inj found⟩

end Namespace

namespace SymbolTable

variable {t t' : SymbolTable}

/-- The same traits are declared, in the same order but maybe at other places. -/
def SameTraits (t t' : SymbolTable) : Prop :=
  t.traits.map Entry.unplaced = t'.traits.map Entry.unplaced

namespace SameTraits

theorem symm (h : t.SameTraits t') : t'.SameTraits t := Eq.symm h

variable (h : t.SameTraits t')

include h

theorem traitDepth : t.traitDepth = t'.traitDepth := by
  have length := congrArg List.length h
  rw [List.length_map, List.length_map] at length
  rw [SymbolTable.traitDepth, SymbolTable.traitDepth, length]

theorem resolveExprWith {declared declared' : Entry TraitDecl → Resolver → Resolved}
    (step : ∀ e e' r, e.unplaced = e'.unplaced → declared e r = declared' e' r)
    (module : Option String) (e : TraitExpr) (r : Resolver) :
    t.resolveExprWith declared module e r = t'.resolveExprWith declared' module e r := by
  induction e generalizing r with
  | ref name loc =>
    rw [SymbolTable.resolveExprWith, SymbolTable.resolveExprWith]
    obtain ⟨err, hf, hf'⟩ | ⟨e, e', hf, hf', same⟩ := Namespace.resolve_congr h module name
    · rw [hf, hf']
    · rw [hf, hf']
      exact step e e' r same
  | set ms => rfl
  | adds base extra ihBase ihExtra | modifies base extra ihBase ihExtra =>
    rw [SymbolTable.resolveExprWith, SymbolTable.resolveExprWith, ihBase, ihExtra]
  | removes base sigs ih => rw [SymbolTable.resolveExprWith, SymbolTable.resolveExprWith, ih]

theorem resolveDeclared (depth : Nat) (e e' : Entry TraitDecl) (r : Resolver)
    (same : e.unplaced = e'.unplaced) :
    t.resolveDeclared depth e r = t'.resolveDeclared depth e' r := by
  induction depth generalizing e e' r with
  | zero => rfl
  | succ depth ih =>
    obtain ⟨path, module, name, decl⟩ := e
    obtain ⟨path', module', name', decl'⟩ := e'
    cases same
    have body := h.resolveExprWith (fun e e' r => ih e e' r) (some module) decl.expr
    simp only [SymbolTable.resolveDeclared, body]
    rfl

theorem resolveExpr (module : Option String) (e : TraitExpr) (r : Resolver) :
    t.resolveExpr module e r = t'.resolveExpr module e r := by
  rw [SymbolTable.resolveExpr, SymbolTable.resolveExpr, h.traitDepth]
  exact h.resolveExprWith (h.resolveDeclared _) module e r

theorem applyUse (module : String) (acc : Resolved) (u : TraitUse) :
    t.applyUse module acc u = t'.applyUse module acc u := by
  cases u with
  | adds e | modifies e => rw [SymbolTable.applyUse, SymbolTable.applyUse, h.resolveExpr]
  | removes sigs => rfl

theorem composeClass (module : String) (c : ClassDecl) (r : Resolver) :
    t.composeClass module c r = t'.composeClass module c r := by
  have clause : t.applyUse module = t'.applyUse module := by
    funext acc u
    exact h.applyUse module acc u
  rw [SymbolTable.composeClass, SymbolTable.composeClass, clause]

theorem modifyClass (module delta : String) (m : ClassModifier) (c : ClassDecl) :
    t.modifyClass module delta m c = t'.modifyClass module delta m c := by
  have names : t.composedNames module = t'.composedNames module := by
    funext c
    rw [composedNames, composedNames, h.composeClass]
  have refresh : ClassEdit.refresh t module = ClassEdit.refresh t' module := by
    funext e
    rw [ClassEdit.refresh, ClassEdit.refresh, names]
  rw [SymbolTable.modifyClass, SymbolTable.modifyClass, refresh]

theorem resolveTraits (r : Resolver) : Model.resolveTraits t r = Model.resolveTraits t' r :=
  foldl_eq_of_map_eq h (fun st e e' same => by
    simp only [resolveTrait, h.traitDepth, h.resolveDeclared _ e e' st.1 same]) (r, [])

end SameTraits

end SymbolTable

end DeltaLang
