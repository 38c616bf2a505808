import DeltaLang.Proofs.Delta.Kept
import DeltaLang.Proofs.Trait.Bounded
import DeltaLang.Proofs.Trait.ClassExpr
import DeltaLang.Proofs.Trait.Declared
import Mathlib.Data.List.Chain

/-!
# Cyclic traits are caught

A trait that is met on the path of those being resolved is reported, and the path from there on
leads back to it.  What is resolved is remembered, even where a cycle cut it short, and never
resolved again.  This hides no cycle: as long as none was reported, the traits that are remembered
only refer to others that are, and none of them leads back to itself, because the last one of a
cycle to be left would refer to one that is still on the path.  Traits are remembered by their
qualified names, which have to tell them apart.
-/

namespace DeltaLang

/-! ## What resolving an expression reports -/

namespace MethodSet

theorem kind_of_mem_insertAll {what : String} {s : MethodSet} {ms : List Method} {d : Diagnostic}
    (mem : d ∈ (s.insertAll what ms).2) : d.kind = .duplicateMethod := by
  induction ms generalizing s with
  | nil => cases mem
  | cons m ms ih =>
    unfold insertAll at mem
    split at mem
    · exact ih mem
    · rcases List.mem_cons.1 mem with rfl | mem
      · rfl
      · exact ih mem

theorem kind_of_mem_removeAll {s : MethodSet} {sigs : List Signature} {d : Diagnostic}
    (mem : d ∈ (s.removeAll sigs).2) : d.kind = .removeMissingMethod := by
  induction sigs generalizing s with
  | nil => cases mem
  | cons sig sigs ih =>
    unfold removeAll at mem
    split at mem
    · exact ih mem
    · rcases List.mem_cons.1 mem with rfl | mem
      · rfl
      · exact ih mem

end MethodSet

namespace SymbolTable

variable {t : SymbolTable} {module : Option String} {r : Resolver}

/-- No finding is about a cyclic trait. -/
def NoCycles (ds : Diagnostics) : Prop := ∀ d ∈ ds, d.kind ≠ .cyclicTraitDefinition

theorem noCycles_append {ds ds' : Diagnostics} :
    NoCycles (ds ++ ds') ↔ NoCycles ds ∧ NoCycles ds' :=
  List.forall_mem_append

theorem noCycles_insertAll (what : String) (s : MethodSet) (ms : List Method) :
    NoCycles (s.insertAll what ms).2 := by
  intro d mem
  rw [MethodSet.kind_of_mem_insertAll mem]
  decide

theorem noCycles_removeAll (s : MethodSet) (sigs : List Signature) :
    NoCycles (s.removeAll sigs).2 := by
  intro d mem
  rw [MethodSet.kind_of_mem_removeAll mem]
  decide

theorem noCycles_lookupFailure (what name : String) (loc : Option Location) (err : LookupError) :
    NoCycles [Check.lookupFailure what name loc err] := by
  intro d mem
  rw [List.mem_singleton.1 mem]
  cases err <;> exact DiagnosticKind.noConfusion

/-- What is reported of an expression is about other things than cycles, or was reported of the
declared traits that it refers to. -/
theorem forall_findings_resolveExprWith {declared : Entry TraitDecl → Resolver → Resolved}
    {I : Resolver → Prop} {P : Diagnostic → Prop}
    (other : ∀ d, d.kind ≠ .cyclicTraitDefinition → P d) (x : TraitExpr)
    (step : ∀ name ∈ x.references, ∀ e, t.traits.resolve module name = .ok e → ∀ r, I r →
      I (declared e r).resolver ∧ ∀ d ∈ (declared e r).findings, P d)
    (start : I r) :
    I (t.resolveExprWith declared module x r).resolver ∧
      ∀ d ∈ (t.resolveExprWith declared module x r).findings, P d := by
  induction x generalizing r with
  | ref name loc =>
    rw [resolveExprWith]
    cases found : t.traits.resolve module name with
    | ok e => exact step name (List.mem_singleton_self _) e found r start
    | error err => exact ⟨start, fun d mem => other d (noCycles_lookupFailure _ _ _ _ d mem)⟩
  | set ms => exact ⟨start, fun d mem => other d (noCycles_insertAll _ _ _ d mem)⟩
  | adds base extra ihBase ihExtra =>
    obtain ⟨after, first⟩ := ihBase (fun name mem => step name (List.mem_append_left _ mem)) start
    obtain ⟨after, second⟩ :=
      ihExtra (fun name mem => step name (List.mem_append_right _ mem)) after
    refine ⟨after, List.forall_mem_append.2 ⟨List.forall_mem_append.2 ⟨first, second⟩, ?_⟩⟩
    exact fun d mem => other d (noCycles_insertAll _ _ _ d mem)
  | modifies base extra ihBase ihExtra =>
    obtain ⟨after, first⟩ := ihBase (fun name mem => step name (List.mem_append_left _ mem)) start
    obtain ⟨after, second⟩ :=
      ihExtra (fun name mem => step name (List.mem_append_right _ mem)) after
    exact ⟨after, List.forall_mem_append.2 ⟨first, second⟩⟩
  | removes base sigs ih =>
    obtain ⟨after, first⟩ := ih step start
    refine ⟨after, List.forall_mem_append.2 ⟨first, ?_⟩⟩
    exact fun d mem => other d (noCycles_removeAll _ _ d mem)

/-! ## Reports close a path -/

/-- The finding tells a path of references that leads from a declared trait back to it. -/
def TellsCycle (t : SymbolTable) (d : Diagnostic) : Prop :=
  ∃ (e : Entry TraitDecl) (path : List (Entry TraitDecl)),
    (∀ e' ∈ e :: path, e' ∈ t.traits) ∧ List.IsChain t.Refers (e :: path ++ [e]) ∧
    d = .errorAt .cyclicTraitDefinition
      ("trait " ++ e.name ++ " is defined in terms of itself: " ++
        " -> ".intercalate ((e :: path ++ [e]).map Entry.qualifiedName)) e.decl.loc

/-- A finding that tells a cycle is right. -/
theorem TellsCycle.not_acyclic {d : Diagnostic} (h : t.TellsCycle d) : ¬ t.Acyclic := by
  obtain ⟨e, path, declared, chain, -⟩ := h
  have leads := (chain.imp fun _ _ step => Relation.TransGen.single step).pairwise
  have back : Relation.TransGen t.Refers e e :=
    (List.pairwise_cons.1 leads).1 e (List.mem_append_right _ (List.mem_singleton_self e))
  exact fun acyclic => acyclic e (declared e (List.mem_cons_self ..)) back

/-- A trait that is met again on the path closes it. -/
theorem tellsCycle_cyclicTrait (distinct : t.DistinctKeys) {path : List (Entry TraitDecl)}
    {e : Entry TraitDecl} (first : ∀ e' ∈ path ++ [e], t.IsFirst e')
    (chain : List.IsChain t.Refers (path ++ [e]))
    (entered : e.qualifiedName ∈ path.map Entry.qualifiedName) :
    t.TellsCycle (cyclicTrait e (path.map Entry.qualifiedName)) := by
  have last : t.IsFirst e := first e (List.mem_append_right _ (List.mem_singleton_self e))
  have same (e' : Entry TraitDecl) (on : e' ∈ path) (key : e'.qualifiedName = e.qualifiedName) :
      e' = e := (first e' (List.mem_append_left _ on)).eq_of_key_eq distinct last key
  have on : e ∈ path := by
    obtain ⟨e', on, key⟩ := List.mem_map.1 entered
    exact same e' on key ▸ on
  obtain ⟨front, back, rfl, new⟩ := List.eq_append_cons_of_mem on
  have dropped : ((front ++ e :: back).map Entry.qualifiedName).dropWhile
      (· ≠ e.qualifiedName) = (e :: back).map Entry.qualifiedName := by
    rw [List.map_append, List.dropWhile_append_of_pos]
    · simp
    · intro key mem
      obtain ⟨e', before, rfl⟩ := List.mem_map.1 mem
      refine decide_eq_true fun key => new ?_
      exact same e' (List.mem_append_left _ before) key ▸ before
  refine ⟨e, back, fun e' mem => ?_, ?_, ?_⟩
  · refine (first e' (List.mem_append_left _ (List.mem_append_right _ mem))).mem
  · rw [List.append_assoc] at chain
    exact chain.right_of_append
  · unfold cyclicTrait
    rw [dropped, List.map_append, List.map_singleton]

/-- Where the traits being resolved refer each to the next one, reports close a path. -/
theorem tellsCycle_resolveDeclared (distinct : t.DistinctKeys) {depth : Nat}
    {path : List (Entry TraitDecl)} {e : Entry TraitDecl}
    (first : ∀ e' ∈ path ++ [e], t.IsFirst e') (chain : List.IsChain t.Refers (path ++ [e]))
    (visiting : r.visiting = path.map Entry.qualifiedName) :
    ∀ d ∈ (t.resolveDeclared depth e r).findings,
      d.kind = .cyclicTraitDefinition → t.TellsCycle d := by
  induction depth generalizing path e r with
  | zero =>
    intro d mem
    cases mem
  | succ depth ih =>
    by_cases entered : e.qualifiedName ∈ r.visiting
    · intro d mem _
      rw [resolveDeclared, if_pos entered] at mem
      rw [List.mem_singleton.1 mem, visiting]
      exact tellsCycle_cyclicTrait distinct first chain (visiting ▸ entered)
    · cases known : r.memo.lookup e.qualifiedName with
      | some s =>
        rw [resolveDeclared_of_known entered known]
        intro d mem
        cases mem
      | none =>
        rw [resolveDeclared_of_unknown entered known]
        show ∀ d ∈ (t.resolveExprWith (t.resolveDeclared depth) (some e.module) e.decl.expr
            { r with visiting := r.visiting ++ [e.qualifiedName] }).findings,
          d.kind = .cyclicTraitDefinition → t.TellsCycle d
        have entering :
            r.visiting ++ [e.qualifiedName] = (path ++ [e]).map Entry.qualifiedName := by
          rw [visiting, List.map_append, List.map_singleton]
        -- The path grows by the trait, and by what its expression refers to.
        refine (forall_findings_resolveExprWith
          (I := fun r => r.visiting = (path ++ [e]).map Entry.qualifiedName)
          (fun d ne eq => absurd eq ne) e.decl.expr (fun name named e' found r visiting => ?_)
          entering).2
        have step : t.Refers e e' := ⟨name, named, found⟩
        have longer : List.IsChain t.Refers ((path ++ [e]) ++ [e']) := by
          rw [List.append_assoc]
          exact List.isChain_append_cons_cons.2 ⟨chain, step, List.isChain_singleton e'⟩
        refine ⟨(t.resolveDeclared_extends depth e' r).visiting.trans visiting,
          ih (fun e'' mem => ?_) longer visiting⟩
        rcases List.mem_append.1 mem with mem | mem
        · exact first e'' mem
        · rw [List.mem_singleton.1 mem]
          exact isFirst_of_resolve found

end SymbolTable

/-! ## Without a report no cycle is remembered -/

namespace Resolver

variable {t : SymbolTable} {r r' : Resolver} {e : Entry TraitDecl}

/-- The set of the trait is remembered. -/
def Knows (r : Resolver) (e : Entry TraitDecl) : Prop := (r.memo.lookup e.qualifiedName).isSome

theorem Extends.knows (h : r.Extends r') (known : r.Knows e) : r'.Knows e := by
  obtain ⟨set, found⟩ := Option.isSome_iff_exists.1 known
  exact Option.isSome_iff_exists.2 ⟨set, h.lookup found⟩

theorem knows_cons {key : String} {set : MethodSet} {visiting : List String} :
    (⟨(key, set) :: r.memo, visiting⟩ : Resolver).Knows e ↔ e.qualifiedName = key ∨ r.Knows e := by
  unfold Knows
  rw [List.lookup_cons]
  by_cases same : e.qualifiedName = key
  · simp [same]
  · simp [same, beq_false_of_ne same]

/-- What a remembered trait refers to is remembered, none of the remembered traits leads back to
itself, and those being resolved are not remembered yet. -/
structure Exploring (t : SymbolTable) (r : Resolver) : Prop where
  refers : ∀ e, t.IsFirst e → r.Knows e → ∀ e', t.Refers e e' → r.Knows e'
  acyclic : ∀ e, t.IsFirst e → r.Knows e → ¬ Relation.TransGen t.Refers e e
  pending : ∀ e, e.qualifiedName ∈ r.visiting → ¬ r.Knows e

theorem Exploring.of_reaches (h : r.Exploring t) {e' : Entry TraitDecl} (first : t.IsFirst e)
    (known : r.Knows e) (reaches : Relation.ReflTransGen t.Refers e e') : r.Knows e' := by
  suffices both : t.IsFirst e' ∧ r.Knows e' from both.2
  induction reaches with
  | refl => exact ⟨first, known⟩
  | tail _ step ih =>
    obtain ⟨name, -, found⟩ := id step
    exact ⟨SymbolTable.isFirst_of_resolve found, h.refers _ ih.1 ih.2 _ step⟩

theorem exploring_fresh (t : SymbolTable) : fresh.Exploring t where
  refers _ _ known := by cases known
  acyclic _ _ known := by cases known
  pending _ entered := by cases entered

theorem Exploring.enter (h : r.Exploring t) (unknown : ¬ r.Knows e) :
    Exploring t { r with visiting := r.visiting ++ [e.qualifiedName] } where
  refers := h.refers
  acyclic := h.acyclic
  pending := by
    intro e' entered
    rcases List.mem_append.1 entered with above | here
    · exact h.pending e' above
    · have key := List.mem_singleton.1 here
      unfold Knows at unknown ⊢
      rw [key]
      exact unknown

/-- A trait can be remembered after those that it refers to: it did not lead back to itself, for it
was not remembered while they were. -/
theorem Exploring.leave {body : Resolver} {visiting : List String} {set : MethodSet}
    (h : body.Exploring t) (distinct : t.DistinctKeys) (first : t.IsFirst e)
    (entered : body.visiting = visiting ++ [e.qualifiedName]) (new : e.qualifiedName ∉ visiting)
    (refers : ∀ e', t.Refers e e' → body.Knows e') :
    Exploring t ⟨(e.qualifiedName, set) :: body.memo, visiting⟩ where
  refers e' first' known e'' step := by
    refine knows_cons.2 (.inr ?_)
    rcases knows_cons.1 known with key | early
    · obtain rfl := first'.eq_of_key_eq distinct first key
      exact refers e'' step
    · exact h.refers e' first' early e'' step
  acyclic e' first' known := by
    rcases knows_cons.1 known with key | early
    · obtain rfl := first'.eq_of_key_eq distinct first key
      intro cycle
      obtain ⟨next, step, back⟩ := Relation.TransGen.head'_iff.1 cycle
      obtain ⟨name, -, found⟩ := id step
      have remembered : body.Knows e' :=
        h.of_reaches (SymbolTable.isFirst_of_resolve found) (refers next step) back
      exact h.pending e' (by rw [entered]; simp) remembered
    · exact h.acyclic e' first' early
  pending e' above known := by
    rcases knows_cons.1 known with key | early
    · exact new (key ▸ above)
    · exact h.pending e' (entered ▸ List.mem_append_left _ above) early

end Resolver

namespace SymbolTable

variable {t : SymbolTable} {module : Option String} {r : Resolver} {depth : Nat}
  {ask ask' : Resolver → Resolved} {A A' : Entry TraitDecl → Prop}

/-- Asked with room for the traits that are left, and where no cycle is remembered, the answer
remembers none either unless it reports one, and those traits are remembered then. -/
def Explores (t : SymbolTable) (depth : Nat) (ask : Resolver → Resolved)
    (A : Entry TraitDecl → Prop) : Prop :=
  ∀ r : Resolver, r.Room t depth → r.Exploring t → NoCycles (ask r).findings →
    r.Extends (ask r).resolver ∧ (ask r).resolver.Exploring t ∧
      ∀ e, A e → (ask r).resolver.Knows e

theorem Explores.seq (h : t.Explores depth ask A) (h' : t.Explores depth ask' A')
    (room : r.Room t depth) (exploring : r.Exploring t)
    (silent : NoCycles ((ask r).findings ++ (ask' (ask r).resolver).findings)) :
    r.Extends (ask' (ask r).resolver).resolver ∧
      (ask' (ask r).resolver).resolver.Exploring t ∧
      ∀ e, A e ∨ A' e → (ask' (ask r).resolver).resolver.Knows e := by
  obtain ⟨first, second⟩ := noCycles_append.1 silent
  obtain ⟨extended, exploring, known⟩ := h r room exploring first
  obtain ⟨extended', exploring', known'⟩ := h' _ (room.congr extended.visiting) exploring second
  refine ⟨extended.trans extended', exploring', fun e asked => ?_⟩
  rcases asked with asked | asked
  · exact extended'.knows (known e asked)
  · exact known' e asked

theorem explores_resolveExprWith {declared : Entry TraitDecl → Resolver → Resolved}
    (step : ∀ e, t.IsFirst e → t.Explores depth (declared e) (· = e)) (x : TraitExpr) :
    t.Explores depth (t.resolveExprWith declared module x) fun e =>
      ∃ name ∈ x.references, t.traits.resolve module name = .ok e := by
  induction x with
  | ref name loc =>
    intro r room exploring
    unfold resolveExprWith
    cases found : t.traits.resolve module name with
    | ok e =>
      intro silent
      obtain ⟨extended, exploring, known⟩ :=
        step e (isFirst_of_resolve found) r room exploring silent
      refine ⟨extended, exploring, fun e' asked => ?_⟩
      obtain ⟨name', named, found'⟩ := asked
      rw [List.mem_singleton.1 named, found] at found'
      exact known e' (Except.ok.inj found').symm
    | error err =>
      intro _
      refine ⟨.refl r, exploring, fun e' asked => ?_⟩
      obtain ⟨name', named, found'⟩ := asked
      rw [List.mem_singleton.1 named, found] at found'
      cases found'
  | set ms =>
    intro r room exploring _
    refine ⟨.refl r, exploring, fun e asked => ?_⟩
    obtain ⟨name, named, -⟩ := asked
    cases named
  | adds base extra ihBase ihExtra =>
    intro r room exploring silent
    have both := ihBase.seq ihExtra room exploring (noCycles_append.1 silent).1
    refine ⟨both.1, both.2.1, fun e asked => both.2.2 e ?_⟩
    obtain ⟨name, named, found⟩ := asked
    exact (List.mem_append.1 named).imp (⟨name, ·, found⟩) (⟨name, ·, found⟩)
  | modifies base extra ihBase ihExtra =>
    intro r room exploring silent
    have both := ihBase.seq ihExtra room exploring silent
    refine ⟨both.1, both.2.1, fun e asked => both.2.2 e ?_⟩
    obtain ⟨name, named, found⟩ := asked
    exact (List.mem_append.1 named).imp (⟨name, ·, found⟩) (⟨name, ·, found⟩)
  | removes base sigs ih =>
    intro r room exploring silent
    exact ih r room exploring (noCycles_append.1 silent).1

theorem explores_resolveDeclared (distinct : t.DistinctKeys) {e : Entry TraitDecl}
    (first : t.IsFirst e) : t.Explores depth (t.resolveDeclared depth e) (· = e) := by
  induction depth generalizing e with
  | zero =>
    intro r room
    exact absurd rfl room.depth_ne_zero
  | succ depth ih =>
    intro r room exploring silent
    have extended := t.resolveDeclared_extends (depth + 1) e r
    by_cases entered : e.qualifiedName ∈ r.visiting
    · rw [resolveDeclared, if_pos entered] at silent
      exact absurd rfl (silent _ (List.mem_singleton_self _))
    · refine ⟨extended, ?_⟩
      cases known : r.memo.lookup e.qualifiedName with
      | some s =>
        rw [resolveDeclared_of_known entered known]
        refine ⟨exploring, fun e' same => ?_⟩
        rw [same, Resolver.Knows, known]
        rfl
      | none =>
        have unknown : ¬ r.Knows e := by simp [Resolver.Knows, known]
        rw [resolveDeclared_of_unknown entered known] at silent ⊢
        obtain ⟨kept, body, refers⟩ := explores_resolveExprWith (fun e' first' => ih first')
          e.decl.expr _ (room.enter first.mem entered) (exploring.enter unknown) silent
        refine ⟨body.leave distinct first kept.visiting entered refers, fun e' same => ?_⟩
        exact Resolver.knows_cons.2 (.inl (congrArg Entry.qualifiedName same))

end SymbolTable

namespace Model

open SymbolTable

/-! ## All traits -/

/-- Where resolving all traits reports no cycle, there is none. -/
theorem acyclic_of_noCycles {t : SymbolTable} (distinct : t.DistinctKeys)
    (first : ∀ e ∈ t.traits, t.IsFirst e) (silent : NoCycles (resolveTraits t .fresh).2) :
    t.Acyclic := by
  have explored : NoCycles (resolveTraits t .fresh).2 →
      (resolveTraits t .fresh).1.visiting = [] ∧ (resolveTraits t .fresh).1.Exploring t := by
    refine List.foldlRecOn (motive := fun st : Resolver × Diagnostics =>
      NoCycles st.2 → st.1.visiting = [] ∧ st.1.Exploring t) t.traits _ ?_
      fun st ih e mem silent => ?_
    · exact fun _ => ⟨rfl, Resolver.exploring_fresh t⟩
    · obtain ⟨before, here⟩ := noCycles_append.1 silent
      obtain ⟨idle, exploring⟩ := ih before
      have room : st.1.Room t t.traitDepth := .of_idle idle (by rw [traitDepth]; omega)
      obtain ⟨extended, exploring, -⟩ :=
        explores_resolveDeclared distinct (first e mem) st.1 room exploring here
      exact ⟨extended.visiting.trans idle, exploring⟩
  exact fun e mem => (explored silent).2.acyclic e (first e mem) (t.resolveTraits_full.known e mem)

theorem tellsCycle_resolveTraits {t : SymbolTable} (distinct : t.DistinctKeys)
    (first : ∀ e ∈ t.traits, t.IsFirst e) :
    ∀ d ∈ (resolveTraits t .fresh).2, d.kind = .cyclicTraitDefinition → t.TellsCycle d := by
  refine (List.foldlRecOn (motive := fun st : Resolver × Diagnostics =>
    st.1.visiting = [] ∧ ∀ d ∈ st.2, d.kind = .cyclicTraitDefinition → t.TellsCycle d)
    t.traits _ ⟨rfl, by simp⟩ fun st ih e mem => ?_).2
  obtain ⟨idle, before⟩ := ih
  refine ⟨(t.resolveDeclared_extends _ e st.1).visiting.trans idle, ?_⟩
  refine List.forall_mem_append.2 ⟨before, ?_⟩
  have chain : List.IsChain t.Refers ([] ++ [e]) := List.isChain_singleton e
  exact tellsCycle_resolveDeclared distinct (by simpa using first e mem) chain idle

/-- Composing a class reports no cycles, since all traits are known. -/
theorem noCycles_composeClass {t : SymbolTable} {r : Resolver} (full : r.Full t) (module : String)
    (c : ClassDecl) : NoCycles (t.composeClass module c r).findings := by
  have resolved (x : TraitExpr) : NoCycles (t.resolveExpr (some module) x r).findings := by
    refine (forall_findings_resolveExprWith (I := (· = r)) (fun _ => id) x ?_ rfl).2
    rintro name - e found _ rfl
    rw [traitDepth, resolveDeclared_of_full full (Namespace.mem_of_resolve_eq_ok found)]
    exact ⟨rfl, by simp⟩
  have own : NoCycles ((⟨.empty, [], r⟩ : Resolved).andThen fun s =>
      s.insertAll ("defined twice in class " ++ c.name) c.methods).findings :=
    noCycles_insertAll _ _ _
  have used : NoCycles (c.uses.foldl (t.applyUse module)
      ((⟨.empty, [], r⟩ : Resolved).andThen fun s =>
        s.insertAll ("defined twice in class " ++ c.name) c.methods)).findings := by
    refine (List.foldlRecOn (motive := fun acc : Resolved =>
      acc.resolver = r ∧ NoCycles acc.findings) c.uses _ ⟨rfl, own⟩ fun acc ih u _ => ?_).2
    obtain ⟨rfl, silent⟩ := ih
    refine ⟨applyUse_resolver_of_full full module rfl u, ?_⟩
    cases u with
    | adds x =>
      exact noCycles_append.2 ⟨noCycles_append.2 ⟨silent, resolved x⟩, noCycles_insertAll _ _ _⟩
    | modifies x => exact noCycles_append.2 ⟨silent, resolved x⟩
    | removes sigs => exact noCycles_append.2 ⟨silent, noCycles_removeAll _ _⟩
  refine noCycles_append.2 ⟨used, fun d mem => ?_⟩
  obtain ⟨m, -, mem⟩ := List.mem_flatMap.1 mem
  rw [kind_unboundOriginals mem]
  decide

/-! ## Products -/

theorem distinctOf_trait_iff {mod : Module} :
    mod.DistinctOf .trait ↔ (mod.traits.map TraitDecl.name).Nodup := by
  have keys : mod.keys.filter (·.1 = .trait) =
      (mod.traits.map TraitDecl.name).map (Prod.mk DeclKind.trait) := by
    rw [Module.keys, Module.traits, List.filter_map, ← List.filterMap_eq_map,
      List.filterMap_filter, List.map_map, List.map_filterMap]
    refine List.filterMap_congr fun d _ => ?_
    cases d <;> rfl
  rw [Module.DistinctOf, keys, List.nodup_map_iff (Prod.mk_right_injective _)]

variable {m m' : Model}

/-- Applying deltas keeps traits told apart. -/
theorem DistinctTraits.applyDeltas {es : List (Entry DeltaDecl)} (h : m.DistinctTraits)
    (applied : m.applyDeltas es = .ok m') : m'.DistinctTraits where
  modules := by
    rw [names_modules_applyDeltas applied]
    exact h.modules
  traits mod mem := by
    have base : ∀ mod ∈ m.modules, mod.DistinctOf .trait := fun mod mem =>
      distinctOf_trait_iff.2 (h.traits mod mem)
    exact distinctOf_trait_iff.1 (forall_modules_applyDeltas base
      (fun _ _ op _ => op.preserves_distinctOf .trait _ _) applied mod mem)

/-- Composing the classes of a model reports a cycle exactly where a trait leads back to itself, and
each report tells the way. -/
theorem composeClasses_reportsCycles (distinct : m.DistinctTraits)
    (keys : (SymbolTable.ofModel m).DistinctKeys) :
    ((∃ d ∈ m.composeClasses.findings, d.kind = .cyclicTraitDefinition) ↔
        ¬ (SymbolTable.ofModel m).Acyclic) ∧
      ∀ d ∈ m.composeClasses.findings, d.kind = .cyclicTraitDefinition →
        (SymbolTable.ofModel m).TellsCycle d := by
  have first : ∀ e ∈ (SymbolTable.ofModel m).traits, (SymbolTable.ofModel m).IsFirst e :=
    fun e mem => distinct.isFirst mem
  have classes : NoCycles (m.classEntries.flatMap fun e => (m.composition e).findings) := by
    intro d mem
    obtain ⟨e, -, mem⟩ := List.mem_flatMap.1 mem
    exact noCycles_composeClass m.resolver_full e.module e.decl d mem
  have tells : ∀ d ∈ m.composeClasses.findings, d.kind = .cyclicTraitDefinition →
      (SymbolTable.ofModel m).TellsCycle d := by
    intro d mem cyclic
    rw [composeClasses_eq] at mem
    rcases List.mem_append.1 mem with mem | mem
    · exact tellsCycle_resolveTraits keys first d mem cyclic
    · exact absurd cyclic (classes d mem)
  refine ⟨⟨?_, ?_⟩, tells⟩
  · rintro ⟨d, mem, cyclic⟩
    exact (tells d mem cyclic).not_acyclic
  · intro cycle
    by_contra absent
    refine cycle (acyclic_of_noCycles keys first fun d mem cyclic => absent ⟨d, ?_, cyclic⟩)
    rw [composeClasses_eq]
    exact List.mem_append_left _ mem

/-- Where a product can be derived, resolving its traits ends.  If its traits are told apart by
their qualified names, a cycle is reported exactly where a trait leads back to itself once the
deltas are applied, and each report tells a closed path. -/
theorem flatten_reportsCycles_iff {config : ProductConfig} {f : Flattened}
    (distinct : m.DistinctTraits) (flat : m.flatten config = .ok f) :
    ∃ es d, m.validateDeltas config.deltas = .ok es ∧ m.applyDeltas es = .ok d ∧
      d.composeClasses = f ∧ (SymbolTable.ofModel d).ResolvingEnds ∧
      ((SymbolTable.ofModel d).DistinctKeys →
        ((∃ x ∈ f.findings, x.kind = .cyclicTraitDefinition) ↔
          ¬ (SymbolTable.ofModel d).Acyclic) ∧
        ∀ x ∈ f.findings, x.kind = .cyclicTraitDefinition →
          (SymbolTable.ofModel d).TellsCycle x) := by
  obtain ⟨product, names⟩ := config
  obtain ⟨es, d, valid, applied, rfl⟩ := exists_derived_of_flatten flat
  exact ⟨es, d, valid, applied, rfl, resolvingEnds _,
    composeClasses_reportsCycles (distinct.applyDeltas applied)⟩

/-- A trait uses two others, of which one is defined by the other, and a delta defines the other one
by the first. -/
def knotModel : Model :=
  let ref (name : String) : TraitExpr := .ref name none
  ⟨[⟨none, [⟨"M", [.trait ⟨"T", .adds (ref "U") (ref "V"), none⟩, .trait ⟨"U", .set [], none⟩,
    .trait ⟨"V", ref "M.U", none⟩,
    .delta ⟨"D", none, [], [], none, [.modifyTrait "U" (ref "V") none], none⟩], none⟩]⟩]⟩

theorem flatten_reportsCycles_iff_knotModel :
    ∃ f, knotModel.flatten ⟨none, ["D"]⟩ = .ok f ∧
      f.findings.map (·.message) = ["trait U is defined in terms of itself: M.U -> M.V -> M.U"] ∧
      ∃ es d, knotModel.validateDeltas ["D"] = .ok es ∧ knotModel.applyDeltas es = .ok d ∧
        (SymbolTable.ofModel d).ResolvingEnds ∧ ¬ (SymbolTable.ofModel d).Acyclic ∧
        ∃ x ∈ f.findings, (SymbolTable.ofModel d).TellsCycle x := by
  have plain : knotModel.PlainTraits := by
    simp [PlainTraits, modules, knotModel, Decl.PlainTraits, PlainName]
  obtain ⟨f, flat⟩ : ∃ f, knotModel.flatten ⟨none, ["D"]⟩ = .ok f :=
    exists_of_isOk (by decide +kernel)
  have reported : (knotModel.flatten ⟨none, ["D"]⟩).toOption.map
      (fun f => f.findings.map fun x => (x.kind, x.message)) =
      some [(.cyclicTraitDefinition,
        "trait U is defined in terms of itself: M.U -> M.V -> M.U")] := by
    decide +kernel
  rw [flat] at reported
  have findings := Option.some.inj reported
  obtain ⟨es, d, valid, applied, rfl, ends, told⟩ :=
    flatten_reportsCycles_iff ⟨by decide, by decide⟩ flat
  obtain ⟨reports, tells⟩ := told
    ((sameTraits_composeClasses d).distinctKeys (plain.distinctKeys_of_flatten flat))
  obtain ⟨x, only⟩ := List.map_eq_singleton_iff.1 findings
  have kind : x.kind = .cyclicTraitDefinition := (Prod.mk.inj only.2).1
  have mem : x ∈ d.composeClasses.findings := only.1 ▸ List.mem_singleton_self x
  refine ⟨_, flat, ?_, es, d, valid, applied, ends, reports.1 ⟨x, mem, kind⟩, x, mem,
    tells x mem kind⟩
  rw [only.1]
  exact congrArg (fun m => [m]) (Prod.mk.inj only.2).2

/-- Of two traits of one qualified name, only the one that is resolved first becomes known, and the
other one leads back to itself without a report. -/
theorem flatten_missesCycle_overlappingModel :
    let m := overlappingModel (.set []) (.ref "T" none) []
    m.DistinctTraits ∧ m.validateDeltas [] = .ok [] ∧ m.applyDeltas [] = .ok m ∧
      (∃ f, m.flatten ⟨none, []⟩ = .ok f ∧ f.findings = []) ∧
      ¬ (SymbolTable.ofModel m).Acyclic := by
  intro m
  refine ⟨distinctTraits_overlappingModel _ _, rfl, rfl,
    ⟨m.composeClasses, rfl, by decide +kernel⟩, fun acyclic => ?_⟩
  let e : Entry TraitDecl := ⟨⟨0, 1, 0⟩, "M.A", "T", ⟨"T", .ref "T" none, none⟩⟩
  have refers : (SymbolTable.ofModel m).Refers e e :=
    ⟨"T", List.mem_singleton_self _, by decide +kernel⟩
  exact acyclic e (List.mem_cons_of_mem _ (List.mem_cons_self ..)) (.single refers)

end Model

end DeltaLang
