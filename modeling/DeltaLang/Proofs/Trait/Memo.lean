import DeltaLang.Proofs.Program.Entries
import DeltaLang.Proofs.Names.Resolve
import DeltaLang.Delta.Flatten

/-!
# What resolving traits makes known

Resolving never forgets: sets once known stay known, and the traits being resolved are afterwards
those of before.  Where every declared trait is known, resolving an expression only reads the
known sets, so that it leaves no trace and can be done in any order.
-/

namespace DeltaLang

namespace Resolver

/-- What is known is still known, and the same traits are being resolved. -/
structure Extends (r r' : Resolver) : Prop where
  visiting : r'.visiting = r.visiting
  lookup : ∀ {key : String} {set : MethodSet},
    r.memo.lookup key = some set → r'.memo.lookup key = some set

theorem Extends.refl (r : Resolver) : r.Extends r := ⟨rfl, id⟩

theorem Extends.trans {a b c : Resolver} (h : a.Extends b) (h' : b.Extends c) : a.Extends c :=
  ⟨h'.visiting.trans h.visiting, fun known => h'.lookup (h.lookup known)⟩

/-- Every declared trait is known, and none is being resolved. -/
structure Full (t : SymbolTable) (r : Resolver) : Prop where
  visiting : r.visiting = []
  known : ∀ e ∈ t.traits, (r.memo.lookup e.qualifiedName).isSome

end Resolver

namespace SymbolTable

variable (t : SymbolTable) {declared : Entry TraitDecl → Resolver → Resolved}
  {module : Option String}

/-! ## Expressions -/

/-- An expression relates the knowledge before and after if every declared trait does. -/
theorem resolveExprWith_induction (module : Option String) {R : Resolver → Resolver → Prop}
    (refl : ∀ r, R r r) (trans : ∀ {a b c}, R a b → R b c → R a c)
    (step : ∀ e ∈ t.traits, ∀ r, R r (declared e r).resolver) (e : TraitExpr) (r : Resolver) :
    R r (t.resolveExprWith declared module e r).resolver := by
  induction e generalizing r with
  | ref name loc =>
    rw [resolveExprWith]
    cases found : t.traits.resolve module name with
    | ok e => exact step e (Namespace.mem_of_resolve_eq_ok found) r
    | error err => exact refl r
  | set ms => exact refl r
  | adds base extra ihBase ihExtra => exact trans (ihBase r) (ihExtra _)
  | modifies base extra ihBase ihExtra => exact trans (ihBase r) (ihExtra _)
  | removes base sigs ih => exact ih r

/-! ## Nothing is forgotten -/

theorem resolveDeclared_extends (depth : Nat) (e : Entry TraitDecl) (r : Resolver) :
    r.Extends (t.resolveDeclared depth e r).resolver := by
  induction depth generalizing e r with
  | zero => exact .refl r
  | succ depth ih =>
    simp only [resolveDeclared]
    split
    · exact .refl r
    · cases known : r.memo.lookup e.qualifiedName with
      | some set => exact .refl r
      | none =>
        have body := t.resolveExprWith_induction (some e.module) Resolver.Extends.refl
          Resolver.Extends.trans (fun e _ r => ih e r) e.decl.expr
          { r with visiting := r.visiting ++ [e.qualifiedName] }
        refine ⟨rfl, fun {key set} before => ?_⟩
        have ne : (key == e.qualifiedName) = false :=
          beq_false_of_ne fun eq => by simp [eq, known] at before
        simp only [List.lookup_cons, ne]
        exact body.lookup before

theorem resolveExprWith_extends (depth : Nat) (module : Option String) (e : TraitExpr)
    (r : Resolver) :
    r.Extends (t.resolveExprWith (t.resolveDeclared depth) module e r).resolver :=
  t.resolveExprWith_induction module Resolver.Extends.refl Resolver.Extends.trans
    (fun e _ r => t.resolveDeclared_extends depth e r) e r

/-- A trait is known once it is resolved outside of all others. -/
theorem known_resolveTrait {e : Entry TraitDecl} {r : Resolver} (h : r.visiting = []) :
    ((t.resolveTrait e r).resolver.memo.lookup e.qualifiedName).isSome := by
  simp only [resolveTrait, traitDepth, resolveDeclared, h, List.not_mem_nil, if_false]
  cases known : r.memo.lookup e.qualifiedName with
  | some set => simp [known]
  | none => simp

/-- After all declared traits were resolved in order, all are known. -/
theorem resolveTraits_full : (Model.resolveTraits t .fresh).1.Full t := by
  -- What was resolved so far is known; the traits still to do follow.
  suffices h : ∀ (es : List (Entry TraitDecl)) (st : Resolver × Diagnostics),
      let r := (es.foldl (fun st e =>
        let res := t.resolveTrait e st.1
        (res.resolver, st.2 ++ res.findings)) st).1
      st.1.visiting = [] → st.1.Extends r ∧
        ∀ e ∈ es, (r.memo.lookup e.qualifiedName).isSome by
    obtain ⟨extended, known⟩ := h t.traits (.fresh, []) rfl
    exact ⟨extended.visiting, known⟩
  intro es
  induction es with
  | nil => exact fun st _ => ⟨.refl _, by simp⟩
  | cons e es ih =>
    intro st r idle
    have first := t.resolveDeclared_extends t.traitDepth e st.1
    obtain ⟨extended, known⟩ := ih ((t.resolveTrait e st.1).resolver,
      st.2 ++ (t.resolveTrait e st.1).findings) (first.visiting.trans idle)
    refine ⟨first.trans extended, fun e' he' => ?_⟩
    rcases List.mem_cons.1 he' with rfl | he'
    · obtain ⟨set, found⟩ := Option.isSome_iff_exists.1 (t.known_resolveTrait (e := e') idle)
      exact Option.isSome_iff_exists.2 ⟨set, extended.lookup found⟩
    · exact known e' he'

/-! ## Where everything is known -/

variable {t} {r : Resolver}

theorem resolveDeclared_of_full (full : r.Full t) {e : Entry TraitDecl} (he : e ∈ t.traits)
    (depth : Nat) :
    t.resolveDeclared (depth + 1) e r =
      ⟨(r.memo.lookup e.qualifiedName).getD .empty, [], r⟩ := by
  obtain ⟨set, known⟩ := Option.isSome_iff_exists.1 (full.known e he)
  simp [resolveDeclared, full.visiting, known]

theorem resolveExpr_resolver_of_full (full : r.Full t) (e : TraitExpr) :
    (t.resolveExpr module e r).resolver = r := by
  refine t.resolveExprWith_induction module (R := fun a b => a = r → b = r) (fun _ => id)
    (fun h h' eq => h' (h eq)) ?_ e r rfl
  rintro e he _ rfl
  rw [traitDepth, resolveDeclared_of_full full he]

theorem applyUse_resolver_of_full (full : r.Full t) (module : String) {acc : Resolved}
    (h : acc.resolver = r) (u : TraitUse) : (t.applyUse module acc u).resolver = r := by
  cases u with
  | adds e | modifies e =>
    subst h
    exact resolveExpr_resolver_of_full full e
  | removes sigs => exact h

theorem composeClass_resolver_of_full (full : r.Full t) (module : String) (c : ClassDecl) :
    (t.composeClass module c r).resolver = r := by
  have folded : ∀ (us : List TraitUse) (acc : Resolved), acc.resolver = r →
      (us.foldl (t.applyUse module) acc).resolver = r := by
    intro us
    induction us with
    | nil => exact fun _ h => h
    | cons u us ih => exact fun acc h => ih _ (applyUse_resolver_of_full full module h u)
  exact folded _ _ rfl

end SymbolTable

end DeltaLang
