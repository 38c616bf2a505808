import DeltaLang.Proofs.Delta.Carried
import DeltaLang.Proofs.Names.Embedding
import Mathlib.Data.List.Perm.Subperm

/-!
# Traits of embedded tables

Resolving a trait only looks traits up by name, and in what is known by their qualified names.  So
where one table is embedded in another for the names of traits that come up, the sets and the
findings are the same in both, whatever else is known in the other one.
-/

namespace DeltaLang

/-! ## What is known in both tables -/

/-- So much is known alike, and in both cases these traits are being resolved. -/
structure Resolver.Alike (K : String → Prop) (visiting : List String) (r r' : Resolver) :
    Prop where
  left : r.visiting = visiting
  right : r'.visiting = visiting
  lookup : ∀ key, K key → r'.memo.lookup key = r.memo.lookup key

/-- The same was found, and afterwards so much is known alike. -/
structure Resolved.Alike (K : String → Prop) (visiting : List String) (x x' : Resolved) : Prop where
  set : x'.set = x.set
  findings : x'.findings = x.findings
  resolver : x.resolver.Alike K visiting x'.resolver

theorem TraitExpr.Over.references {P : Method → Prop} {R : String → Prop} {x : TraitExpr}
    (h : x.Over P R) : ∀ n ∈ x.references, R n := by
  induction x with
  | ref name loc => exact List.forall_mem_singleton.2 h
  | set ms => exact fun _ mem => absurd mem List.not_mem_nil
  | adds base extra ihBase ihExtra | modifies base extra ihBase ihExtra =>
    exact List.forall_mem_append.2 ⟨ihBase h.1, ihExtra h.2⟩
  | removes base sigs ih => exact ih h

theorem TraitUse.Over.references {P : Method → Prop} {R : String → Prop} {u : TraitUse}
    (h : u.Over P R) : ∀ x ∈ u.expr?, ∀ n ∈ x.references, R n := by
  rintro x hx
  cases u with
  | adds e | modifies e =>
    obtain rfl := Option.some.inj hx
    exact TraitExpr.Over.references h
  | removes sigs => cases hx

variable {K S : String → Prop} {visiting : List String}

theorem Resolver.Alike.refl (r : Resolver) : r.Alike K r.visiting r := ⟨rfl, rfl, fun _ _ => rfl⟩

theorem Resolved.Alike.andThen {x x' : Resolved} (h : x.Alike K visiting x')
    (op : MethodSet → MethodSet × Diagnostics) :
    (x.andThen op).Alike K visiting (x'.andThen op) := by
  refine ⟨?_, ?_, h.resolver⟩
  · simp only [Resolved.andThen, h.set]
  · simp only [Resolved.andThen, h.set, h.findings]

namespace SymbolTable

/-- The traits refer to traits with simple names in `S`. -/
def TraitsIn (S : String → Prop) (t : SymbolTable) : Prop :=
  ∀ e ∈ t.traits, ∀ n ∈ e.decl.expr.references, S (simpleName n)

/-- Resolves one more trait. -/
def resolveNext (t : SymbolTable) (st : Resolver × Diagnostics) (e : Entry TraitDecl) :
    Resolver × Diagnostics :=
  ((t.resolveTrait e st.1).resolver, st.2 ++ (t.resolveTrait e st.1).findings)

namespace Embeds

variable {t t' : SymbolTable} {f : DeclPath → DeclPath} {r r' : Resolver}
  (h : t.Embeds S f t')

include h

/-! ## Expressions -/

theorem resolveExprWith (module : Option String)
    {declared declared' : Entry TraitDecl → Resolver → Resolved}
    (step : ∀ e ∈ t.traits, ∀ r r', r.Alike K visiting r' →
      (declared e r).Alike K visiting (declared' (e.move f) r'))
    {x : TraitExpr} (named : ∀ n ∈ x.references, S (simpleName n))
    (alike : r.Alike K visiting r') :
    (t.resolveExprWith declared module x r).Alike K visiting
      (t'.resolveExprWith declared' module x r') := by
  induction x generalizing r r' with
  | ref name loc =>
    rw [SymbolTable.resolveExprWith, SymbolTable.resolveExprWith,
      h.traits.resolve module name (named name List.mem_cons_self)]
    cases found : t.traits.resolve module name with
    | ok e => exact step e (Namespace.mem_of_resolve_eq_ok found) r r' alike
    | error err => exact ⟨rfl, rfl, alike⟩
  | set ms =>
    have start : (⟨.empty, [], r⟩ : Resolved).Alike K visiting ⟨.empty, [], r'⟩ := ⟨rfl, rfl, alike⟩
    exact start.andThen _
  | adds base extra ihBase ihExtra =>
    rw [TraitExpr.references, List.forall_mem_append] at named
    have first := ihBase named.1 alike
    have second := ihExtra named.2 first.resolver
    simp only [SymbolTable.resolveExprWith, second.set]
    refine Resolved.Alike.andThen ?_ _
    exact ⟨first.set, congrArg₂ (· ++ ·) first.findings second.findings, second.resolver⟩
  | modifies base extra ihBase ihExtra =>
    rw [TraitExpr.references, List.forall_mem_append] at named
    have first := ihBase named.1 alike
    have second := ihExtra named.2 first.resolver
    exact ⟨congrArg₂ MethodSet.modifyAll first.set second.set,
      congrArg₂ (· ++ ·) first.findings second.findings, second.resolver⟩
  | removes base sigs ih => exact (ih named alike).andThen _

/-! ## Declared traits -/

variable (traitsIn : t.TraitsIn S) (keys : ∀ e ∈ t.traits, K e.qualifiedName)

include traitsIn keys

/-- A declared trait is resolved alike, if there is room for all traits not yet being resolved. -/
theorem resolveDeclared {depth depth' : Nat} (le : depth ≤ depth') {e : Entry TraitDecl}
    (mem : e ∈ t.traits) (alike : r.Alike K visiting r') (distinct : visiting.Nodup)
    (declared : visiting ⊆ t.traits.map Entry.qualifiedName)
    (room : t.traits.length < depth + visiting.length) :
    (t.resolveDeclared depth e r).Alike K visiting (t'.resolveDeclared depth' (e.move f) r') := by
  induction depth generalizing depth' e r r' visiting with
  | zero =>
    have fit := (List.subperm_of_subset distinct declared).length_le
    rw [List.length_map] at fit
    omega
  | succ depth ih =>
    obtain ⟨depth', rfl⟩ := Nat.exists_eq_add_of_le' (Nat.le_trans (Nat.le_add_left 1 depth) le)
    rw [SymbolTable.resolveDeclared, SymbolTable.resolveDeclared, Entry.move_qualifiedName,
      alike.left, alike.right]
    by_cases entered : e.qualifiedName ∈ visiting
    · rw [if_pos entered, if_pos entered]
      exact ⟨rfl, rfl, alike⟩
    · rw [if_neg entered, if_neg entered, alike.lookup _ (keys e mem)]
      cases known : r.memo.lookup e.qualifiedName with
      | some s => exact ⟨rfl, rfl, alike⟩
      | none =>
        have inner : Resolver.Alike K (visiting ++ [e.qualifiedName])
            { r with visiting := visiting ++ [e.qualifiedName] }
            { r' with visiting := visiting ++ [e.qualifiedName] } := ⟨rfl, rfl, alike.lookup⟩
        have distinct' : (visiting ++ [e.qualifiedName]).Nodup :=
          List.nodup_append_comm.1 (List.nodup_cons.2 ⟨entered, distinct⟩)
        have declared' : visiting ++ [e.qualifiedName] ⊆ t.traits.map Entry.qualifiedName :=
          List.append_subset.2 ⟨declared, List.cons_subset.2
            ⟨List.mem_map_of_mem mem, List.nil_subset _⟩⟩
        have body := h.resolveExprWith (some e.module)
          (fun e' mem' r r' alike => ih (Nat.le_of_succ_le_succ le) mem' alike distinct' declared'
            (by rw [List.length_append, List.length_singleton]; omega)) (traitsIn e mem) inner
        refine ⟨body.set, body.findings, rfl, rfl, fun key hk => ?_⟩
        dsimp only [Entry.move_module, Entry.move_decl]
        rw [List.lookup_cons, List.lookup_cons, body.set, body.resolver.lookup key hk]

/-- Outside of all others a declared trait is resolved alike. -/
theorem resolveTrait {e : Entry TraitDecl} (mem : e ∈ t.traits) (alike : r.Alike K [] r') :
    (t.resolveTrait e r).Alike K [] (t'.resolveTrait (e.move f) r') := by
  have le : t.traitDepth ≤ t'.traitDepth := Nat.add_le_add_right h.traits.length_le 2
  refine h.resolveDeclared traitsIn keys le mem alike .nil (List.nil_subset _) ?_
  rw [traitDepth, List.length_nil]
  omega

theorem resolveExpr (module : Option String) {x : TraitExpr}
    (named : ∀ n ∈ x.references, S (simpleName n)) (alike : r.Alike K [] r') :
    (t.resolveExpr module x r).Alike K [] (t'.resolveExpr module x r') :=
  h.resolveExprWith module (fun _ mem _ _ alike => h.resolveTrait traitsIn keys mem alike) named
    alike

/-- From trait to trait the same is found. -/
theorem foldl_resolveNext {es : List (Entry TraitDecl)} (known : es ⊆ t.traits)
    (alike : r.Alike K [] r') (ds : Diagnostics) :
    (es.foldl t.resolveNext (r, ds)).1.Alike K []
        ((es.map (Entry.move f)).foldl t'.resolveNext (r', ds)).1 ∧
      ((es.map (Entry.move f)).foldl t'.resolveNext (r', ds)).2 =
        (es.foldl t.resolveNext (r, ds)).2 := by
  rw [List.foldl_map]
  refine List.foldl_rel (r := fun st st' : Resolver × Diagnostics =>
    st.1.Alike K [] st'.1 ∧ st'.2 = st.2) ⟨alike, rfl⟩ fun e mem st st' before => ?_
  have next := h.resolveTrait traitsIn keys (known mem) before.1
  exact ⟨next.resolver, congrArg₂ (· ++ ·) before.2 next.findings⟩

/-! ## Classes -/

theorem applyUse (module : String) {acc acc' : Resolved} (alike : acc.Alike K [] acc')
    {u : TraitUse} (named : ∀ x ∈ u.expr?, ∀ n ∈ x.references, S (simpleName n)) :
    (t.applyUse module acc u).Alike K [] (t'.applyUse module acc' u) := by
  cases u with
  | adds x =>
    have extra := h.resolveExpr traitsIn keys (some module) (named x rfl) alike.resolver
    simp only [SymbolTable.applyUse, extra.set]
    refine Resolved.Alike.andThen ?_ _
    exact ⟨alike.set, congrArg₂ (· ++ ·) alike.findings extra.findings, extra.resolver⟩
  | modifies x =>
    have extra := h.resolveExpr traitsIn keys (some module) (named x rfl) alike.resolver
    exact ⟨congrArg₂ MethodSet.modifyAll alike.set extra.set,
      congrArg₂ (· ++ ·) alike.findings extra.findings, extra.resolver⟩
  | removes sigs =>
    rw [SymbolTable.applyUse, SymbolTable.applyUse]
    exact alike.andThen _

/-- A class is composed alike. -/
theorem composeClass (module : String) {c : ClassDecl}
    (named : ∀ u ∈ c.uses, ∀ x ∈ u.expr?, ∀ n ∈ x.references, S (simpleName n))
    (alike : r.Alike K [] r') :
    (t.composeClass module c r).Alike K [] (t'.composeClass module c r') := by
  have own : (⟨.empty, [], r⟩ : Resolved).Alike K [] ⟨.empty, [], r'⟩ := ⟨rfl, rfl, alike⟩
  unfold SymbolTable.composeClass
  refine Resolved.Alike.andThen ?_ _
  refine List.foldl_rel (r := Resolved.Alike K []) (own.andThen _) fun u mem acc acc' before => ?_
  exact h.applyUse traitsIn keys module before (named u mem)

/-! ## Edits of classes -/

omit keys

theorem composedNames (module : String) {c : ClassDecl}
    (named : ∀ u ∈ c.uses, ∀ x ∈ u.expr?, ∀ n ∈ x.references, S (simpleName n)) :
    t'.composedNames module c = t.composedNames module c := by
  have composed := h.composeClass (K := fun _ => True) traitsIn (fun _ _ => trivial) module named
    (.refl .fresh)
  rw [SymbolTable.composedNames, SymbolTable.composedNames, composed.set]

variable {P : Method → Prop}

/-- A class is modified alike, if it and the modifier only name traits with simple names in `S`. -/
theorem modifyClass (stacking : Method.Stacks P) (module delta : String) {mod : ClassModifier}
    {c : ClassDecl} (hc : c.Over P fun n => S (simpleName n))
    (hmod : ∀ op ∈ mod.ops, op.Over P fun n => S (simpleName n)) :
    t'.modifyClass module delta mod c = t.modifyClass module delta mod c := by
  let Named (e : ClassEdit) : Prop := e.cls.Over P fun n => S (simpleName n)
  have refresh : ∀ e : ClassEdit, Named e → e.refresh t' module = e.refresh t module :=
    fun e members => by
      rw [ClassEdit.refresh, ClassEdit.refresh, h.composedNames traitsIn module
        fun u hu => (members.uses u hu).references]
  have start : Named (mod.addImplements.foldl
      (fun st name => attempt (fun e => e.addInterface delta mod.loc name) st)
      ((⟨c, none⟩ : ClassEdit), [])).1 := by
    refine foldl_preserves (P := Named) (fun st name => attempt_preserves (P := Named)
      (fun e e' ok before => ?_) st) _ _ hc
    unfold ClassEdit.addInterface at ok
    split at ok <;> cases ok
    exact { before with }
  have ops := List.foldl_rel (l := mod.ops)
    (r := fun st st' : ClassEdit × Diagnostics => st' = st ∧ Named st.1)
    (f := fun st op => attempt (fun e => e.apply delta op) (st.1.refresh t module, st.2))
    (g := fun st op => attempt (fun e => e.apply delta op) (st.1.refresh t' module, st.2))
    ⟨rfl, start⟩ fun op mem st st' before => by
      obtain ⟨rfl, members⟩ := before
      rw [refresh _ members]
      exact ⟨rfl, attempt_preserves (P := Named) (fun e e' ok before =>
        ClassEdit.over_apply stacking before (hmod op mem) ok) _ members⟩
  simp only [SymbolTable.modifyClass, ops.1]

end Embeds

end SymbolTable

end DeltaLang
