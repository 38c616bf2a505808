import DeltaLang.Proofs.Delta.Plain
import DeltaLang.Proofs.Names.Ranks
import DeltaLang.Proofs.Program.Distinct
import DeltaLang.Proofs.Trait.Settled

/-!
# Plain recursion over traits

Without anything remembered, a trait expression is evaluated by recursion: where it refers to a
declared trait, the expression of that trait is evaluated anew, in the module that declares it.
This ends if no trait leads back to itself, and then traits nest no deeper than there are traits.
Whatever a resolver was asked before, it finds the same sets.
-/

namespace DeltaLang

namespace SymbolTable

variable (t : SymbolTable)

/-! ## The recursion -/

/-- The set of an expression written in a module, and the findings that arise at its own operators
and references, given the sets of declared traits. -/
def plainExpr (declared : Entry TraitDecl → MethodSet) (module : Option String) :
    TraitExpr → MethodSet × Diagnostics
  | .ref name loc =>
    match t.traits.resolve module name with
    | .ok e => (declared e, [])
    | .error err => (.empty, [Check.lookupFailure "trait" name loc err])
  | .set ms => MethodSet.empty.insertAll "defined twice in one method set" ms
  | .adds base extra =>
    let (s, ds) := plainExpr declared module base
    let (s', ds') := plainExpr declared module extra
    let (sum, taken) := s.addAll s'
    (sum, ds ++ ds' ++ taken)
  | .modifies base extra =>
    let (s, ds) := plainExpr declared module base
    let (s', ds') := plainExpr declared module extra
    (s.modifyAll s', ds ++ ds')
  | .removes base sigs =>
    let (s, ds) := plainExpr declared module base
    let (rest, missing) := s.removeAll sigs
    (rest, ds ++ missing)

/-- The set of a declared trait, evaluated in the module that declares it.  The first argument
bounds how deep traits nest. -/
def plainTrait : Nat → Entry TraitDecl → MethodSet
  | 0, _ => .empty
  | depth + 1, e => (t.plainExpr (plainTrait depth) (some e.module) e.decl.expr).1

/-- The expression of the first trait refers to the second. -/
def Refers (e e' : Entry TraitDecl) : Prop :=
  ∃ name ∈ e.decl.expr.references, t.traits.resolve (some e.module) name = .ok e'

/-- No declared trait leads back to itself. -/
def Acyclic : Prop := ∀ e ∈ t.traits, ¬ Relation.TransGen t.Refers e e

variable {t} {n depth : Nat} {module : Option String} {x : TraitExpr} {s : MethodSet}

/-- Traits do not lead back to themselves if each comes after those that it refers to. -/
theorem acyclic_of_rank (rank : Entry TraitDecl → Nat)
    (descends : ∀ e ∈ t.traits, ∀ name ∈ e.decl.expr.references,
      ∀ e' ∈ (t.traits.resolve (some e.module) name).toOption, rank e' < rank e) :
    t.Acyclic := by
  have stays : ∀ e ∈ t.traits, ∀ e', t.Refers e e' → e' ∈ t.traits := by
    rintro e - e' ⟨name, -, found⟩
    exact Namespace.mem_of_resolve_eq_ok found
  have falls : ∀ e ∈ t.traits, ∀ e', t.Refers e e' → rank e' < rank e := by
    rintro e mem e' ⟨name, named, found⟩
    exact descends e mem name named e' (by rw [found]; rfl)
  exact fun e mem => not_transGen_of_rank stays falls mem

/-! ## The recursion evaluates what expressions denote -/

/-- What denotes a set is evaluated to it, if the recursion may go as deep as traits nest. -/
theorem Denotes.plainExpr_eq (h : t.Denotes n module x s) (deep : n ≤ depth) :
    (t.plainExpr (t.plainTrait depth) module x).1 = s := by
  induction h generalizing depth with
  | undeclared unknown => rw [plainExpr, unknown]
  | declared found body ih =>
    obtain ⟨depth, rfl⟩ := Nat.exists_eq_add_of_le' deep
    rw [plainExpr, found]
    exact ih (Nat.le_add_left _ _)
  | set module ms => rfl
  | adds _ _ ih ih' =>
    rw [plainExpr, ← ih (Nat.le_trans (Nat.le_max_left _ _) deep),
      ← ih' (Nat.le_trans (Nat.le_max_right _ _) deep)]
  | modifies _ _ ih ih' =>
    rw [plainExpr, ← ih (Nat.le_trans (Nat.le_max_left _ _) deep),
      ← ih' (Nat.le_trans (Nat.le_max_right _ _) deep)]
  | removes _ sigs ih => rw [plainExpr, ← ih deep]

theorem TraitDenotes.plainTrait_eq {e : Entry TraitDecl} (h : t.TraitDenotes n e s)
    (deep : n < depth) : t.plainTrait depth e = s := by
  obtain ⟨depth, rfl⟩ := Nat.exists_eq_add_of_lt deep
  exact h.plainExpr_eq (Nat.le_add_right n depth)

namespace Acyclic

variable (acyclic : t.Acyclic)

include acyclic

/-- A trait is different from those that lead to it. -/
theorem nodup_cons {e : Entry TraitDecl} (mem : e ∈ t.traits) {path : List (Entry TraitDecl)}
    (distinct : path.Nodup) (leads : ∀ e' ∈ path, Relation.TransGen t.Refers e' e) :
    (e :: path).Nodup :=
  List.nodup_cons.2 ⟨fun mem' => acyclic e mem (leads e mem'), distinct⟩

/-- A trait denotes a set, and nests less deep than there are traits left besides those that lead
to it. -/
theorem exists_traitDenotes_of_path (left : Nat) {e : Entry TraitDecl} (mem : e ∈ t.traits)
    {path : List (Entry TraitDecl)} (distinct : path.Nodup) (declared : path ⊆ t.traits)
    (leads : ∀ e' ∈ path, Relation.TransGen t.Refers e' e)
    (others : t.traits.length ≤ path.length + left) :
    ∃ n s, t.TraitDenotes n e s ∧ n < left := by
  induction left generalizing e path with
  | zero =>
    have fit := (List.subperm_of_subset (acyclic.nodup_cons mem distinct leads)
      (List.cons_subset.2 ⟨mem, declared⟩)).length_le
    rw [List.length_cons] at fit
    omega
  | succ left ih =>
    have each : ∀ name ∈ e.decl.expr.references, ∀ e',
        t.traits.resolve (some e.module) name = .ok e' →
        ∃ n s, t.TraitDenotes n e' s ∧ n + 1 ≤ left := fun name named e' found => by
      have step : t.Refers e e' := ⟨name, named, found⟩
      exact ih (Namespace.mem_of_resolve_eq_ok found) (acyclic.nodup_cons mem distinct leads)
        (List.cons_subset.2 ⟨mem, declared⟩)
        (List.forall_mem_cons.2 ⟨.single step, fun e'' mem => (leads e'' mem).tail step⟩)
        (by rw [List.length_cons]; omega)
    obtain ⟨n, s, denotes, le⟩ :=
      exists_denotes_of_references (Q := (· ≤ left)) (Nat.zero_le _) max_le each
    exact ⟨n, s, denotes, Nat.lt_succ_of_le le⟩

theorem exists_traitDenotes {e : Entry TraitDecl} (mem : e ∈ t.traits) :
    ∃ n s, t.TraitDenotes n e s ∧ n < t.traits.length :=
  acyclic.exists_traitDenotes_of_path _ mem .nil (List.nil_subset _) (by simp) (by simp)

theorem exists_denotes (module : Option String) (x : TraitExpr) :
    ∃ n s, t.Denotes n module x s ∧ n ≤ t.traits.length :=
  exists_denotes_of_references (Q := (· ≤ t.traits.length)) (Nat.zero_le _) max_le
    fun _ _ _ found => acyclic.exists_traitDenotes (Namespace.mem_of_resolve_eq_ok found)

theorem settled (distinct : t.DistinctKeys) : t.Settled where
  distinct := distinct
  denotes first := by
    obtain ⟨n, s, denotes, -⟩ := acyclic.exists_traitDenotes first.mem
    exact ⟨n, s, denotes⟩

end Acyclic

/-! ## Questions to a resolver -/

/-- What a resolver may be asked: the set of a declared trait or of an expression written in a
module, or the methods of a composed class. -/
inductive Query where
  | declared (e : Entry TraitDecl)
  | expr (module : Option String) (x : TraitExpr)
  | «class» (module : String) (c : ClassDecl)

/-- What is known after a question. -/
def after (t : SymbolTable) (r : Resolver) : Query → Resolver
  | .declared e => (t.resolveTrait e r).resolver
  | .expr module x => (t.resolveExpr module x r).resolver
  | .class module c => (t.composeClass module c r).resolver

/-- A trait that is known is not resolved again. -/
theorem resolveDeclared_of_known {e : Entry TraitDecl} {r : Resolver}
    (new : e.qualifiedName ∉ r.visiting) (known : r.memo.lookup e.qualifiedName = some s)
    (depth : Nat) : t.resolveDeclared (depth + 1) e r = ⟨s, [], r⟩ := by
  simp only [resolveDeclared, new, if_false, known]

/-- A trait that is not known is resolved, and known then. -/
theorem resolveDeclared_of_unknown {e : Entry TraitDecl} {r : Resolver}
    (new : e.qualifiedName ∉ r.visiting) (unknown : r.memo.lookup e.qualifiedName = none)
    (depth : Nat) : t.resolveDeclared (depth + 1) e r =
      let body := t.resolveExprWith (t.resolveDeclared depth) (some e.module) e.decl.expr
        { r with visiting := r.visiting ++ [e.qualifiedName] }
      { body with
        resolver := ⟨(e.qualifiedName, body.set) :: body.resolver.memo, r.visiting⟩ } := by
  rw [resolveDeclared, if_neg new, unknown]

namespace Settled

variable (h : t.Settled) {r : Resolver} (ready : r.Ready t)

include h ready

theorem ready_resolveExpr (module : Option String) (x : TraitExpr) :
    (t.resolveExpr module x r).resolver.Ready t := by
  obtain ⟨s, found⟩ := h.exists_resolveExpr module x
  exact (found r ready).2

theorem ready_resolveTrait {e : Entry TraitDecl} (first : t.IsFirst e) :
    (t.resolveTrait e r).resolver.Ready t := by
  have new : e.qualifiedName ∉ r.visiting := by simp [ready.idle]
  cases known : r.memo.lookup e.qualifiedName with
  | some s =>
    rw [resolveTrait, traitDepth, resolveDeclared_of_known new known]
    exact ready
  | none =>
    rw [resolveTrait, traitDepth, resolveDeclared_of_unknown new known]
    obtain ⟨n, s, denotes⟩ := h.denotes first
    have above : t.Above (n + 1) r.visiting := by simp [Above, ready.idle]
    obtain ⟨rfl, sound⟩ := denotes.set_resolveExprWith h.distinct (t.traits.length + 1)
      (ready.sound.enter first new) (by simp; omega) (above.enter h.distinct first denotes)
    exact ⟨ready.sound.leave h.distinct sound first denotes, ready.idle⟩

theorem ready_composeClass (module : String) (c : ClassDecl) :
    (t.composeClass module c r).resolver.Ready t := by
  suffices folded : ∀ (us : List TraitUse) (acc : Resolved), acc.resolver.Ready t →
      (us.foldl (t.applyUse module) acc).resolver.Ready t from folded c.uses _ ready
  intro us
  induction us with
  | nil => exact fun acc ready => ready
  | cons u us ih =>
    intro acc ready
    refine ih _ ?_
    cases u with
    | adds x | modifies x => exact h.ready_resolveExpr ready (some module) x
    | removes sigs => exact ready

theorem ready_after {q : Query} (declared : ∀ e, q = .declared e → t.IsFirst e) :
    (t.after r q).Ready t := by
  cases q with
  | declared e => exact h.ready_resolveTrait ready (declared e rfl)
  | expr module x => exact h.ready_resolveExpr ready module x
  | «class» module c => exact h.ready_composeClass ready module c

theorem ready_foldl_after {qs : List Query} (declared : ∀ e, .declared e ∈ qs → t.IsFirst e) :
    (qs.foldl t.after r).Ready t := by
  induction qs generalizing r with
  | nil => exact ready
  | cons q qs ih =>
    exact ih (h.ready_after ready fun e eq => declared e (eq ▸ List.mem_cons_self))
      fun e mem => declared e (List.mem_cons_of_mem q mem)

end Settled

/-- Resolving an expression finds the set that plain recursion evaluates it to. -/
theorem Acyclic.set_resolveExpr (acyclic : t.Acyclic) (distinct : t.DistinctKeys) {r : Resolver}
    (ready : r.Ready t) (deep : t.traits.length ≤ depth) (module : Option String)
    (x : TraitExpr) :
    (t.resolveExpr module x r).set = (t.plainExpr (t.plainTrait depth) module x).1 := by
  obtain ⟨n, s, denotes, le⟩ := acyclic.exists_denotes module x
  obtain ⟨found, -⟩ := denotes.set_resolveExprWith distinct t.traitDepth ready.sound
    (by rw [traitDepth]; omega) (by simp [Above, ready.idle])
  rw [denotes.plainExpr_eq (le.trans deep)]
  exact found

end SymbolTable

/-! ## Models -/

/-- Modules have distinct names, and so have the traits of a module. -/
structure Model.DistinctTraits (m : Model) : Prop where
  modules : (m.modules.map Module.name).Nodup
  traits : ∀ mod ∈ m.modules, (mod.traits.map TraitDecl.name).Nodup

namespace Model.DistinctTraits

variable {m : Model} (distinct : m.DistinctTraits)

include distinct

theorem nodup_keys : (m.traitEntries.map fun e => (e.module, e.name)).Nodup := by
  refine nodup_entryKeys distinct.modules fun mod hmod => ?_
  have names : mod.traits.map TraitDecl.name =
      (mod.decls.filter fun d => d.trait?.isSome).map Decl.name := by
    rw [Module.traits, List.map_filterMap, ← List.filterMap_eq_map, List.filterMap_filter]
    refine List.filterMap_congr fun d _ => ?_
    cases d <;> rfl
  exact names ▸ distinct.traits mod hmod

/-- Every trait is the one that its module and name mean. -/
theorem isFirst {e : Entry TraitDecl} (mem : e ∈ m.traitEntries) :
    (SymbolTable.ofModel m).IsFirst e := by
  cases found : m.traitEntries.find? (fun e' => e'.name == e.name && e'.module == e.module) with
  | none => simpa using List.find?_eq_none.1 found e mem
  | some e' =>
    have same := List.find?_some found
    rw [Bool.and_eq_true, beq_iff_eq, beq_iff_eq] at same
    have eq : e' = e := List.inj_on_of_nodup_map distinct.nodup_keys
      (List.mem_of_find?_eq_some found) mem (Prod.ext same.2 same.1)
    exact found.trans (congrArg some eq)

end Model.DistinctTraits

/-- Modules and names tell traits apart where qualified names do not. -/
theorem Model.distinctTraits_overlappingModel (outer inner : TraitExpr) :
    (overlappingModel outer inner []).DistinctTraits where
  modules := show ["M", "M.A"].Nodup by decide
  traits mod mem := by
    rcases List.mem_pair.1 mem with rfl | rfl
    · exact List.nodup_singleton "A.T"
    · exact List.nodup_singleton "T"

end DeltaLang
