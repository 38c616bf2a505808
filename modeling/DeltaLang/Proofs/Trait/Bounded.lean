import DeltaLang.Proofs.Trait.Recursion

/-!
# Resolving traits ends

One step of resolving a declared trait asks for the traits that its expression refers to.  The
traits being resolved are different ones that are declared, so that the steps nest no deeper than
there are traits.  Unrolled that deep, the recursion is closed: whatever stands in for deeper steps
is never asked.
-/

namespace DeltaLang

/-! ## Room for the traits that are left -/

/-- The traits being resolved are different ones that are declared, and there is depth for one more
than are left. -/
structure Resolver.Room (t : SymbolTable) (depth : Nat) (r : Resolver) : Prop where
  nodup : r.visiting.Nodup
  declared : r.visiting ⊆ t.traits.map Entry.qualifiedName
  deep : t.traits.length < depth + r.visiting.length

namespace Resolver.Room

variable {t : SymbolTable} {depth : Nat} {r r' : Resolver}

theorem of_idle (idle : r.visiting = []) (deep : t.traits.length < depth) : r.Room t depth where
  nodup := idle ▸ List.nodup_nil
  declared := idle ▸ List.nil_subset _
  deep := Nat.lt_add_right _ deep

theorem congr (room : r.Room t depth) (same : r'.visiting = r.visiting) : r'.Room t depth where
  nodup := same ▸ room.nodup
  declared := same ▸ room.declared
  deep := same ▸ room.deep

theorem depth_ne_zero (room : r.Room t depth) : depth ≠ 0 := by
  rintro rfl
  have few := (List.subperm_of_subset room.nodup room.declared).length_le
  have more := room.deep
  rw [List.length_map] at few
  omega

theorem enter (room : r.Room t (depth + 1)) {e : Entry TraitDecl} (mem : e ∈ t.traits)
    (new : e.qualifiedName ∉ r.visiting) :
    Room t depth { r with visiting := r.visiting ++ [e.qualifiedName] } where
  nodup := List.concat_eq_append ▸ room.nodup.concat new
  declared := List.append_subset.2
    ⟨room.declared, List.cons_subset.2 ⟨List.mem_map_of_mem mem, List.nil_subset _⟩⟩
  deep := by
    have deep := room.deep
    rw [List.length_append, List.length_singleton]
    omega

end Resolver.Room

namespace SymbolTable

variable (t : SymbolTable)

/-! ## One step -/

/-- One step of resolving a declared trait; `declared` resolves those that its expression refers
to. -/
def resolveStep (declared : Entry TraitDecl → Resolver → Resolved) (e : Entry TraitDecl)
    (r : Resolver) : Resolved :=
  if e.qualifiedName ∈ r.visiting then ⟨.empty, [cyclicTrait e r.visiting], r⟩
  else
    match r.memo.lookup e.qualifiedName with
    | some set => ⟨set, [], r⟩
    | none =>
      let body := t.resolveExprWith declared (some e.module) e.decl.expr
        { r with visiting := r.visiting ++ [e.qualifiedName] }
      { body with resolver := ⟨(e.qualifiedName, body.set) :: body.resolver.memo, r.visiting⟩ }

theorem resolveDeclared_succ (depth : Nat) :
    t.resolveDeclared (depth + 1) = t.resolveStep (t.resolveDeclared depth) := rfl

theorem resolveDeclared_eq_iterate (depth : Nat) :
    t.resolveDeclared depth = t.resolveStep^[depth] fun _ r => ⟨.empty, [], r⟩ := by
  induction depth with
  | zero => rfl
  | succ depth ih => rw [resolveDeclared_succ, ih, Function.iterate_succ_apply']

variable {t} {declared declared' : Entry TraitDecl → Resolver → Resolved} {r : Resolver}
  {depth : Nat} {module : Option String}

/-- Expressions are resolved alike where declared traits are. -/
theorem resolveExprWith_congr {I : Resolver → Prop}
    (kept : ∀ e ∈ t.traits, ∀ r, I r → I (declared e r).resolver)
    (same : ∀ e ∈ t.traits, ∀ r, I r → declared' e r = declared e r) (x : TraitExpr) (start : I r) :
    t.resolveExprWith declared' module x r = t.resolveExprWith declared module x r := by
  have after (x : TraitExpr) (r : Resolver) (start : I r) :
      I (t.resolveExprWith declared module x r).resolver :=
    t.resolveExprWith_induction module (R := fun a b => I a → I b) (fun _ => id)
      (fun h h' start => h' (h start)) kept x r start
  induction x generalizing r with
  | ref name loc =>
    rw [resolveExprWith, resolveExprWith]
    cases found : t.traits.resolve module name with
    | ok e => exact same e (Namespace.mem_of_resolve_eq_ok found) r start
    | error err => rfl
  | set ms => rfl
  | adds base extra ihBase ihExtra | modifies base extra ihBase ihExtra =>
    simp only [resolveExprWith, ihBase start, ihExtra (after base r start)]
  | removes base sigs ih => simp only [resolveExprWith, ih start]

/-- A step only asks for what the expression of the trait refers to, once that is entered. -/
theorem resolveStep_congr {e : Entry TraitDecl}
    (body : e.qualifiedName ∉ r.visiting →
      t.resolveExprWith declared' (some e.module) e.decl.expr
          { r with visiting := r.visiting ++ [e.qualifiedName] } =
        t.resolveExprWith declared (some e.module) e.decl.expr
          { r with visiting := r.visiting ++ [e.qualifiedName] }) :
    t.resolveStep declared' e r = t.resolveStep declared e r := by
  unfold resolveStep
  by_cases entered : e.qualifiedName ∈ r.visiting
  · rw [if_pos entered, if_pos entered]
  · rw [if_neg entered, if_neg entered, body entered]

/-! ## The recursion is closed -/

/-- With room for the traits that are left, nothing deeper is asked. -/
theorem iterate_resolveStep {e : Entry TraitDecl} (room : r.Room t depth) (mem : e ∈ t.traits)
    (beyond : Entry TraitDecl → Resolver → Resolved) :
    t.resolveStep^[depth] beyond e r = t.resolveDeclared depth e r := by
  induction depth generalizing e r with
  | zero => exact absurd rfl room.depth_ne_zero
  | succ depth ih =>
    rw [Function.iterate_succ_apply', resolveDeclared_succ]
    refine resolveStep_congr fun new => ?_
    exact resolveExprWith_congr (I := Resolver.Room t depth)
      (fun e _ r room => room.congr (t.resolveDeclared_extends depth e r).visiting)
      (fun e mem r room => ih room mem) e.decl.expr (room.enter mem new)

theorem iterate_resolveStep_of_idle {e : Entry TraitDecl} (idle : r.visiting = [])
    (mem : e ∈ t.traits) (deep : t.traits.length < depth)
    (beyond : Entry TraitDecl → Resolver → Resolved) :
    t.resolveStep^[depth] beyond e r = t.resolveDeclared (t.traits.length + 1) e r := by
  obtain ⟨more, rfl⟩ := Nat.exists_eq_add_of_le (Nat.succ_le_of_lt deep)
  rw [Function.iterate_add_apply]
  exact iterate_resolveStep (.of_idle idle (Nat.lt_succ_self _)) mem _

/-- Unrolled deeper than there are traits, the recursion answers whatever stands in for deeper
steps: resolving an expression never asks for them. -/
def ResolvingEnds (t : SymbolTable) : Prop :=
  ∀ depth, t.traits.length < depth → ∀ (beyond : Entry TraitDecl → Resolver → Resolved)
    (module : Option String) (x : TraitExpr) (r : Resolver), r.visiting = [] →
    t.resolveExprWith (t.resolveStep^[depth] beyond) module x r = t.resolveExpr module x r

theorem resolvingEnds (t : SymbolTable) : t.ResolvingEnds := by
  intro depth deep beyond module x r idle
  refine resolveExprWith_congr (I := fun r => r.visiting = [])
    (fun e _ r idle => (t.resolveDeclared_extends _ e r).visiting.trans idle)
    (fun e mem r idle => ?_) x idle
  have enough : t.traits.length < t.traitDepth := by
    unfold traitDepth
    omega
  rw [iterate_resolveStep_of_idle idle mem deep, resolveDeclared_eq_iterate t t.traitDepth,
    iterate_resolveStep_of_idle idle mem enough]

end SymbolTable

end DeltaLang
