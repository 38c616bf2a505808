import DeltaLang.Proofs.Delta.Locality
import DeltaLang.Proofs.Names.Reported
import DeltaLang.Proofs.Trait.Charges
import DeltaLang.Proofs.Trait.Cyclic

/-!
# Broken references to traits

A trait is referred to in the expressions of traits and in the `uses` clauses of classes.  Checking
a model walks over all of these; composing its classes only meets a reference when it resolves the
expression around it.  Since every trait becomes known, and only once, its expression is resolved
just once, even if it leads back to itself, and so both report the same references.
-/

namespace DeltaLang

/-! ## References where they are written -/

/-- A reference to a trait: the module it is written in, the name, its own place, and that of the
declaration around it. -/
structure TraitReference where
  module : String
  name : String
  loc : Option Location
  owner : Option Location
deriving DecidableEq

/-- The references of an expression, from left to right. -/
def TraitExpr.written (module : String) (owner : Option Location) (x : TraitExpr) :
    List TraitReference :=
  x.referencesAt.map fun (name, loc) => ⟨module, name, loc, owner⟩

section

variable {module : String} {owner : Option Location} {base extra : TraitExpr}

theorem TraitExpr.written_adds : (TraitExpr.adds base extra).written module owner =
    base.written module owner ++ extra.written module owner := List.map_append

theorem TraitExpr.written_modifies : (TraitExpr.modifies base extra).written module owner =
    base.written module owner ++ extra.written module owner := List.map_append

end

/-- The references of a `uses` clause. -/
def TraitUse.written (module : String) (owner : Option Location) : TraitUse → List TraitReference
  | adds x | modifies x => x.written module owner
  | removes _ => []

/-- The references to traits in a trait declaration or in the `uses` clauses of a class. -/
def Decl.traitReferences (module : String) : Decl → List TraitReference
  | .trait d => d.expr.written module d.loc
  | .class c => c.uses.flatMap (TraitUse.written module c.loc)
  | _ => []

/-- The references to traits in the declarations of a model, in order. -/
def Model.traitReferences (m : Model) : List TraitReference :=
  m.entries.flatMap fun e => e.decl.traitReferences e.module

/-- Those of the references that mean no trait, or not one only, and why. -/
def SymbolTable.broken (t : SymbolTable) (refs : List TraitReference) :
    List (TraitReference × LookupError) :=
  refs.filterMap fun ref =>
    match t.traits.resolve (some ref.module) ref.name with
    | .ok _ => none
    | .error err => some (ref, err)

theorem SymbolTable.broken_flatMap (t : SymbolTable) {α : Type} (l : List α)
    (f : α → List TraitReference) : t.broken (l.flatMap f) = l.flatMap fun a => t.broken (f a) :=
  List.filterMap_flatMap

/-- How checking a model reports a broken reference: at its own place, or else at that of the
declaration around it. -/
def TraitReference.checked (broken : TraitReference × LookupError) : Diagnostic :=
  Check.lookupFailure "trait" broken.1.name (broken.1.loc.or broken.1.owner) broken.2

/-- How composing classes reports a broken reference: at its own place, if it has one. -/
def TraitReference.composed (broken : TraitReference × LookupError) : Diagnostic :=
  Check.lookupFailure "trait" broken.1.name broken.1.loc broken.2

/-- The finding is that a trait is not declared, or is ambiguous. -/
def Diagnostic.tellsTrait (d : Diagnostic) : Bool :=
  (d.kind == .unresolvedName || d.kind == .ambiguousName) &&
    "trait ".toList.isPrefixOf d.message.toList

namespace Diagnostics

variable {ds ds' : Diagnostics}

/-- The findings that a trait is not declared, or is ambiguous. -/
def onTraits (ds : Diagnostics) : Diagnostics := ds.filter Diagnostic.tellsTrait

@[simp] theorem onTraits_nil : onTraits [] = [] := rfl

@[simp] theorem onTraits_append : onTraits (ds ++ ds') = onTraits ds ++ onTraits ds' :=
  List.filter_append ..

theorem onTraits_flatMap {α : Type} (l : List α) (f : α → Diagnostics) :
    onTraits (l.flatMap f) = l.flatMap fun a => onTraits (f a) :=
  List.filter_flatMap ..

/-- Findings of other kinds are none of these. -/
theorem onTraits_eq_nil (other : ∀ d ∈ ds, d.kind ≠ .unresolvedName ∧ d.kind ≠ .ambiguousName) :
    onTraits ds = [] := by
  refine List.filter_eq_nil_iff.2 fun d mem tells => ?_
  obtain ⟨unresolved, ambiguous⟩ := other d mem
  simp [Diagnostic.tellsTrait, unresolved, ambiguous] at tells

theorem onTraits_eq_nil_of_kind (kind : DiagnosticKind) (all : ∀ d ∈ ds, d.kind = kind)
    (unresolved : kind ≠ .unresolvedName) (ambiguous : kind ≠ .ambiguousName) :
    onTraits ds = [] :=
  onTraits_eq_nil fun d mem => ⟨all d mem ▸ unresolved, all d mem ▸ ambiguous⟩

end Diagnostics

open Diagnostics

/-! ## What checking reports -/

namespace Check

variable {t : SymbolTable} {module : String}

theorem tellsTrait_lookupFailure (name : String) (loc : Option Location) (err : LookupError) :
    (lookupFailure "trait" name loc err).tellsTrait = true := by
  cases err <;> simp [lookupFailure, Diagnostic.errorAt, Diagnostic.tellsTrait]

theorem exists_message_lookupFailure (what name : String) (loc : Option Location)
    (err : LookupError) :
    ∃ rest, (lookupFailure what name loc err).message.toList = what.toList ++ rest := by
  cases err <;> simp [lookupFailure, Diagnostic.errorAt, String.toList_append]

/-- Findings about references to other things begin with another word. -/
theorem onTraits_references_of_word {α : Type} {ns : Namespace α} {what : String}
    (other : ∀ rest, "trait ".toList.isPrefixOf (what.toList ++ rest) = false)
    (loc : Option Location) (names : List String) :
    onTraits (names.flatMap (reference ns module what loc)) = [] := by
  rw [onTraits_flatMap]
  refine List.flatMap_eq_nil_iff.2 fun name _ => ?_
  unfold reference
  cases ns.resolve (some module) name with
  | ok e => rfl
  | error err =>
    obtain ⟨rest, message⟩ := exists_message_lookupFailure what name loc err
    refine List.filter_singleton.trans ?_
    rw [Diagnostic.tellsTrait, message, other rest, Bool.and_false]
    rfl

/-- Checking an expression reports its broken references. -/
theorem traitReferences_eq (owner : Option Location) (x : TraitExpr) :
    traitReferences t module owner x =
      (t.broken (x.written module owner)).map TraitReference.checked := by
  rw [SymbolTable.broken, List.map_filterMap, TraitExpr.written, List.filterMap_map,
    List.filterMap_eq_flatMap_toList, traitReferences]
  refine List.flatMap_congr fun s _ => ?_
  obtain ⟨name, loc⟩ := s
  unfold reference
  dsimp only [Function.comp]
  cases t.traits.resolve (some module) name <;> rfl

theorem onTraits_map_checked (broken : List (TraitReference × LookupError)) :
    onTraits (broken.map TraitReference.checked) = broken.map TraitReference.checked :=
  List.filter_eq_self.2 (List.forall_mem_map.2 fun _ _ => tellsTrait_lookupFailure _ _ _)

theorem onTraits_traitReferences (owner : Option Location) (x : TraitExpr) :
    onTraits (traitReferences t module owner x) =
      (t.broken (x.written module owner)).map TraitReference.checked := by
  rw [traitReferences_eq, onTraits_map_checked]

/-- Checking a declaration reports its broken references to traits. -/
theorem onTraits_references (d : Decl) :
    onTraits (references t module d) =
      (t.broken (d.traitReferences module)).map TraitReference.checked := by
  have interfaces : ∀ rest, "trait ".toList.isPrefixOf ("interface".toList ++ rest) = false :=
    fun _ => rfl
  have deltas : ∀ rest, "trait ".toList.isPrefixOf ("delta".toList ++ rest) = false := fun _ => rfl
  cases d with
  | interface i => exact onTraits_references_of_word interfaces i.loc i.parents
  | «class» c =>
    rw [references, onTraits_append, onTraits_references_of_word interfaces, List.nil_append,
      onTraits_flatMap, List.filterMap_eq_flatMap_toList, List.flatMap_assoc,
      Decl.traitReferences, SymbolTable.broken_flatMap, List.map_flatMap]
    refine List.flatMap_congr fun u _ => ?_
    cases u with
    | adds x | modifies x =>
      exact (List.flatMap_singleton ..).trans (onTraits_traitReferences c.loc x)
    | removes sigs => rfl
  | trait d => exact onTraits_traitReferences d.loc d.expr
  | delta d =>
    rw [references, onTraits_append, onTraits_references_of_word deltas]
    refine List.filter_eq_nil_iff.2 (List.forall_mem_map.2 fun name _ => ?_)
    simp [Diagnostic.errorAt, Diagnostic.tellsTrait]
  | product p => rfl

end Check

namespace Model

/-- Going through the modules one by one is going through all declarations. -/
theorem flatMap_modules {α : Type} (m : Model) (f : String → Decl → List α) :
    (m.modules.flatMap fun mod => mod.decls.flatMap (f mod.name)) =
      m.entries.flatMap fun e => f e.module e.decl := by
  have same : m.entries.filterMap (Entry.narrow some) = m.entries := List.filterMap_some
  have all := congrArg (List.flatMap fun e => f e.module e.decl) (m.unplaced_entries some)
  simp only [same, List.flatMap_map, List.flatMap_assoc, Option.map_some, List.filterMap_eq_map']
    at all
  exact all.symm

/-- Checking a model reports its broken references to traits. -/
theorem onTraits_checkModel (m : Model) :
    onTraits (checkModel m) =
      ((SymbolTable.ofModel m).broken m.traitReferences).map TraitReference.checked := by
  let t := SymbolTable.ofModel m
  have modules : onTraits (Check.duplicateModules m) = [] :=
    onTraits_eq_nil_of_kind .duplicateModule (List.forall_mem_map.2 fun _ _ => rfl) nofun nofun
  have decls (mod : Module) : onTraits (Check.duplicateDeclarations mod) = [] :=
    onTraits_eq_nil_of_kind .duplicateDeclaration (List.forall_mem_map.2 fun _ _ => rfl) nofun
      nofun
  have cycles : onTraits (Check.interfaceCycles t) = [] :=
    onTraits_eq_nil_of_kind .cyclicInheritance (fun d mem =>
      (Check.closesCycle_interfaceCycles (SymbolTable.placed_ofModel m) d mem).kind_eq) nofun nofun
  have signatures : onTraits (t.interfaces.flatMap (Check.interfaceSignatures t)) = [] := by
    refine onTraits_eq_nil_of_kind .duplicateMethod (fun d mem => ?_) nofun nofun
    obtain ⟨i, -, mem⟩ := List.mem_flatMap.1 mem
    obtain ⟨name, -, found⟩ := List.mem_filterMap.1 mem
    dsimp only at found
    split at found
    · exact Option.some.inj found ▸ rfl
    · cases found
  calc onTraits (checkModel m)
      = onTraits (m.modules.flatMap fun mod => Check.duplicateDeclarations mod ++
          mod.decls.flatMap (Check.references t mod.name)) := by
        rw [checkModel, onTraits_append, onTraits_append, onTraits_append, modules, cycles,
          signatures, List.nil_append, List.append_nil, List.append_nil]
    _ = m.modules.flatMap fun mod => mod.decls.flatMap fun d =>
          (t.broken (d.traitReferences mod.name)).map TraitReference.checked := by
        simp only [onTraits_flatMap, onTraits_append, decls, List.nil_append,
          Check.onTraits_references]
    _ = m.entries.flatMap fun e =>
          (t.broken (e.decl.traitReferences e.module)).map TraitReference.checked :=
        m.flatMap_modules fun module d =>
          (t.broken (d.traitReferences module)).map TraitReference.checked
    _ = (t.broken m.traitReferences).map TraitReference.checked := by
        rw [traitReferences, SymbolTable.broken_flatMap, List.map_flatMap]

end Model

/-! ## What resolving reports -/

namespace MethodSet

theorem onTraits_insertAll (what : String) (s : MethodSet) (ms : List Method) :
    onTraits (s.insertAll what ms).2 = [] :=
  onTraits_eq_nil_of_kind _ (fun _ => kind_of_mem_insertAll) nofun nofun

theorem onTraits_removeAll (s : MethodSet) (sigs : List Signature) :
    onTraits (s.removeAll sigs).2 = [] :=
  onTraits_eq_nil_of_kind _ (fun _ => kind_of_mem_removeAll) nofun nofun

end MethodSet

theorem Resolved.onTraits_andThen {res : Resolved} {op : MethodSet → MethodSet × Diagnostics}
    (quiet : onTraits (op res.set).2 = []) :
    onTraits (res.andThen op).findings = onTraits res.findings := by
  rw [andThen, onTraits_append, quiet, List.append_nil]

namespace SymbolTable

variable {t : SymbolTable} {depth : Nat} {module : String} {owner : Option Location}
  {refs refs' : List TraitReference} {r : Resolver} {res res' : Resolved}

/-- The findings about broken references in a trait's own expression. -/
def brokenIn (t : SymbolTable) (e : Entry TraitDecl) : Diagnostics :=
  (t.broken (e.decl.expr.written e.module e.decl.loc)).map TraitReference.composed

/-- The broken ones of the references are reported and, in any order, those in the expressions of
the traits that become known. -/
def Reports (t : SymbolTable) (r : Resolver) (refs : List TraitReference) (res : Resolved) : Prop :=
  t.Charged t.brokenIn r ((t.broken refs).map TraitReference.composed) (onTraits res.findings)
    res.resolver

theorem reports_nil (r : Resolver) (s : MethodSet) : t.Reports r [] ⟨s, [], r⟩ := charged_refl []

namespace Reports

theorem visiting_eq (h : t.Reports r refs res) : res.resolver.visiting = r.visiting := by
  obtain ⟨es, learns, -⟩ := h
  exact learns.visiting

theorem seq (h : t.Reports r refs res) (h' : t.Reports res.resolver refs' res') (s : MethodSet) :
    t.Reports r (refs ++ refs') ⟨s, res.findings ++ res'.findings, res'.resolver⟩ := by
  unfold Reports broken
  rw [List.filterMap_append, List.map_append, onTraits_append]
  exact Charged.trans h h'

/-- Operators report nothing about references. -/
theorem andThen (h : t.Reports r refs res) {op : MethodSet → MethodSet × Diagnostics}
    (quiet : onTraits (op res.set).2 = []) : t.Reports r refs (res.andThen op) := by
  unfold Reports
  rw [Resolved.onTraits_andThen quiet]
  exact h

end Reports

/-- A reference is reported if it is broken, and else costs what its trait does. -/
theorem reports_ref {declared : Entry TraitDecl → Resolver → Resolved} {name : String}
    {loc : Option Location}
    (step : ∀ e, t.traits.resolve (some module) name = .ok e → t.Reports r [] (declared e r)) :
    t.Reports r ((TraitExpr.ref name loc).written module owner)
      (t.resolveExprWith declared (some module) (.ref name loc) r) := by
  unfold resolveExprWith
  cases found : t.traits.resolve (some module) name with
  | ok e =>
    have fine : t.broken ((TraitExpr.ref name loc).written module owner) = t.broken [] := by
      simp [broken, TraitExpr.written, TraitExpr.referencesAt, found]
    unfold Reports
    rw [fine]
    exact step e found
  | error err =>
    have reported : t.broken ((TraitExpr.ref name loc).written module owner) =
        [(⟨module, name, loc, owner⟩, err)] := by
      simp [broken, TraitExpr.written, TraitExpr.referencesAt, found]
    unfold Reports
    rw [reported]
    have tells := Check.tellsTrait_lookupFailure name loc err
    simpa [onTraits, tells, TraitReference.composed] using
      charged_refl [Check.lookupFailure "trait" name loc err]

theorem reports_resolveExprWith {declared : Entry TraitDecl → Resolver → Resolved}
    (step : ∀ e, t.IsFirst e → ∀ r : Resolver, r.Room t depth → t.Reports r [] (declared e r))
    (x : TraitExpr) (room : r.Room t depth) :
    t.Reports r (x.written module owner) (t.resolveExprWith declared (some module) x r) := by
  induction x generalizing r with
  | ref name loc => exact reports_ref fun e found => step e (isFirst_of_resolve found) r room
  | set ms => exact (reports_nil r .empty).andThen (MethodSet.onTraits_insertAll _ _ _)
  | adds base extra ihBase ihExtra =>
    have first := ihBase room
    have second := ihExtra (room.congr first.visiting_eq)
    rw [TraitExpr.written_adds]
    exact (first.seq second _).andThen (MethodSet.onTraits_insertAll _ _ _)
  | modifies base extra ihBase ihExtra =>
    have first := ihBase room
    have second := ihExtra (room.congr first.visiting_eq)
    rw [TraitExpr.written_modifies]
    exact first.seq second _
  | removes base sigs ih => exact (ih room).andThen (MethodSet.onTraits_removeAll _ _)

/-- Resolving a declared trait reports no references of its own: if it was not known, it becomes
known, unless it is being resolved. -/
theorem reports_resolveDeclared {e : Entry TraitDecl} (first : t.IsFirst e)
    (room : r.Room t depth) : t.Reports r [] (t.resolveDeclared depth e r) := by
  induction depth generalizing e r with
  | zero => exact absurd rfl room.depth_ne_zero
  | succ depth ih =>
    by_cases entered : e.qualifiedName ∈ r.visiting
    · -- The trait is reported as cyclic here; its references are where it was entered.
      rw [resolveDeclared, if_pos entered]
      exact charged_refl []
    · cases known : r.memo.lookup e.qualifiedName with
      | some s =>
        rw [resolveDeclared_of_known entered known]
        exact charged_refl []
      | none =>
        rw [resolveDeclared_of_unknown entered known]
        have body : t.Reports { r with visiting := r.visiting ++ [e.qualifiedName] }
            (e.decl.expr.written e.module e.decl.loc) _ :=
          reports_resolveExprWith (fun e first r room => ih first room) e.decl.expr
            (room.enter first.mem entered)
        exact Charged.leave first entered known body _

/-! ## All traits and classes -/

/-- Resolving all traits reports the broken references of each. -/
theorem perm_onTraits_resolveTraits (distinct : t.DistinctKeys)
    (first : ∀ e ∈ t.traits, t.IsFirst e) (nodup : t.traits.Nodup) :
    (onTraits (Model.resolveTraits t .fresh).2).Perm (t.traits.flatMap t.brokenIn) := by
  refine perm_resolveTraits (I := fun r => r.visiting = []) onTraits distinct first nodup
    onTraits_nil (fun _ _ => onTraits_append) rfl fun e mem r idle => ?_
  have reports : t.Reports r [] (t.resolveTrait e r) :=
    reports_resolveDeclared (first e mem) (.of_idle idle (by rw [traitDepth]; omega))
  exact ⟨reports.visiting_eq.trans idle, reports⟩

section

variable (full : r.Full t)

include full

/-- Once all traits are known, an expression only reports its own references. -/
theorem perm_onTraits_resolveExpr (x : TraitExpr) :
    (onTraits (t.resolveExpr (some module) x r).findings).Perm
      ((t.broken (x.written module owner)).map TraitReference.composed) := by
  have reports : t.Reports r (x.written module owner) (t.resolveExpr (some module) x r) :=
    reports_resolveExprWith (fun _ first _ room => reports_resolveDeclared first room) x
      (.of_idle full.visiting (by rw [traitDepth]; omega))
  exact reports.perm_of_full full

/-- A `uses` clause adds the findings about its own references. -/
theorem perm_onTraits_applyUse (module : String) (owner : Option Location) (u : TraitUse)
    {acc : Resolved} (known : acc.resolver = r) :
    (onTraits (t.applyUse module acc u).findings).Perm (onTraits acc.findings ++
      (t.broken (u.written module owner)).map TraitReference.composed) := by
  subst known
  cases u with
  | adds x =>
    have quiet : onTraits (t.applyUse module acc (.adds x)).findings =
        onTraits (acc.findings ++ (t.resolveExpr (some module) x acc.resolver).findings) :=
      Resolved.onTraits_andThen (MethodSet.onTraits_insertAll _ _ _)
    rw [quiet, onTraits_append]
    exact (perm_onTraits_resolveExpr full x).append_left _
  | modifies x =>
    rw [applyUse, onTraits_append]
    exact (perm_onTraits_resolveExpr full x).append_left _
  | removes sigs =>
    have quiet : onTraits (t.applyUse module acc (.removes sigs)).findings =
        onTraits acc.findings := Resolved.onTraits_andThen (MethodSet.onTraits_removeAll _ _)
    exact .of_eq (quiet.trans (List.append_nil _).symm)

theorem perm_onTraits_foldl_applyUse (module : String) (owner : Option Location)
    (uses : List TraitUse) {acc : Resolved} (known : acc.resolver = r) :
    (onTraits (uses.foldl (t.applyUse module) acc).findings).Perm (onTraits acc.findings ++
      (t.broken (uses.flatMap (TraitUse.written module owner))).map TraitReference.composed) := by
  induction uses generalizing acc with
  | nil => exact .of_eq (List.append_nil _).symm
  | cons u uses ih =>
    have first := perm_onTraits_applyUse full module owner u known
    have rest := ih (applyUse_resolver_of_full full module known u)
    refine (rest.trans (first.append_right _)).trans (.of_eq ?_)
    rw [broken_flatMap, broken_flatMap, List.flatMap_cons, List.map_append, List.append_assoc]

/-- Composing a class reports the broken references of its `uses` clauses. -/
theorem perm_onTraits_composeClass (c : ClassDecl) :
    (onTraits (t.composeClass module c r).findings).Perm
      ((t.broken ((Decl.class c).traitReferences module)).map TraitReference.composed) := by
  let own : Resolved := (⟨.empty, [], r⟩ : Resolved).andThen fun s =>
    s.insertAll ("defined twice in class " ++ c.name) c.methods
  have quiet : onTraits own.findings = [] := MethodSet.onTraits_insertAll _ _ _
  have unbound (s : MethodSet) : onTraits (s.methods.flatMap (unboundOriginals c.name)) = [] := by
    refine onTraits_eq_nil_of_kind .noOriginalMethod (fun d mem => ?_) nofun nofun
    obtain ⟨m, -, mem⟩ := List.mem_flatMap.1 mem
    exact kind_unboundOriginals mem
  have known : own.resolver = r := rfl
  have used := perm_onTraits_foldl_applyUse full module c.loc c.uses known
  rw [quiet, List.nil_append] at used
  exact (List.Perm.of_eq (Resolved.onTraits_andThen (unbound _))).trans used

end

end SymbolTable

/-! ## Models -/

namespace Model

open SymbolTable

/-- Going through the traits and then through the classes is going through all declarations, but for
the order. -/
theorem perm_flatMap_traits_classes {α : Type} (m : Model) (f : String → Decl → List α)
    (other : ∀ module d, d.trait? = none → d.class? = none → f module d = []) :
    (m.traitEntries.flatMap (fun e => f e.module (.trait e.decl)) ++
      m.classEntries.flatMap fun e => f e.module (.class e.decl)).Perm
        (m.entries.flatMap fun e => f e.module e.decl) := by
  rw [traitEntries, classEntries, List.filterMap_eq_flatMap_toList,
    List.filterMap_eq_flatMap_toList, List.flatMap_assoc, List.flatMap_assoc]
  refine (List.flatMap_append_perm _ _ _).trans (.of_eq (List.flatMap_congr fun e _ => ?_))
  obtain ⟨path, module, name, d⟩ := e
  cases d with
  | trait d | «class» c => simp [Entry.narrow, Decl.trait?, Decl.class?]
  | _ => exact (other _ _ rfl rfl).symm

/-- Composing the classes of a model reports its broken references to traits. -/
theorem perm_onTraits_composeClasses {m : Model} (distinct : m.DistinctTraits)
    (keys : (SymbolTable.ofModel m).DistinctKeys) :
    (onTraits m.composeClasses.findings).Perm
      (((SymbolTable.ofModel m).broken m.traitReferences).map TraitReference.composed) := by
  let t := SymbolTable.ofModel m
  let told (module : String) (d : Decl) : Diagnostics :=
    (t.broken (d.traitReferences module)).map TraitReference.composed
  have traits : (onTraits m.traitFindings).Perm
      (m.traitEntries.flatMap fun e => told e.module (.trait e.decl)) :=
    perm_onTraits_resolveTraits keys (fun e mem => distinct.isFirst mem)
      (distinct.nodup_keys.of_map _)
  have classes : (m.classEntries.flatMap fun e => onTraits (m.composition e).findings).Perm
      (m.classEntries.flatMap fun e => told e.module (.class e.decl)) :=
    List.Perm.flatMap_left _ fun e _ => perm_onTraits_composeClass m.resolver_full e.decl
  rw [composeClasses_eq, onTraits_append, onTraits_flatMap]
  refine ((traits.append classes).trans (m.perm_flatMap_traits_classes told ?_)).trans (.of_eq ?_)
  · intro module d trait cls
    cases d with
    | trait d => cases trait
    | «class» c => cases cls
    | _ => rfl
  · rw [traitReferences, broken_flatMap, List.map_flatMap]

/-- Let traits be told apart by their modules and names, and also by their qualified names, by which
resolvers remember them; they may lead back to themselves.  Then checking the model and deriving a
product with no deltas report the same references to traits, each of them once: those that are
written in traits and `uses` clauses and that mean no trait, or not one only.  Both reports are of
the same kind and say the same. -/
theorem brokenTraits_reportedAlike (m : Model) (distinct : m.DistinctTraits)
    (keys : (SymbolTable.ofModel m).DistinctKeys) (product : Option String) :
    let broken := (SymbolTable.ofModel m).broken m.traitReferences
    onTraits (checkModel m) = broken.map TraitReference.checked ∧
      (∃ f, m.flatten ⟨product, []⟩ = .ok f ∧
        (onTraits f.findings).Perm (broken.map TraitReference.composed)) ∧
      ∀ b ∈ broken, (TraitReference.checked b).kind = (TraitReference.composed b).kind ∧
        (TraitReference.checked b).message = (TraitReference.composed b).message := by
  refine ⟨onTraits_checkModel m, ⟨m.composeClasses, rfl,
    perm_onTraits_composeClasses distinct keys⟩, fun b _ => ?_⟩
  obtain ⟨ref, err⟩ := b
  cases err <;> exact ⟨rfl, rfl⟩

/-- Two traits lead to each other.  One of them refers to a trait that is not declared, and a class
does so too and uses both; the other refers to a trait that two other modules declare. -/
def danglingModel : Model :=
  let ref (name : String) : TraitExpr := .ref name none
  let c : ClassDecl := { (default : ClassDecl) with
    name := "C", uses := [.adds (ref "M.U"), .modifies (.adds (ref "M.T") (ref "Gone"))] }
  ⟨[⟨none, [
    ⟨"M", [.trait ⟨"T", .adds (ref "U") (ref "Gone"), none⟩,
      .trait ⟨"U", .modifies (ref "T") (ref "S"), none⟩], none⟩,
    ⟨"N", [.class c, .trait ⟨"S", .set [], none⟩], none⟩,
    ⟨"O", [.trait ⟨"S", .set [], none⟩], none⟩]⟩]⟩

theorem brokenTraits_reportedAlike_danglingModel :
    let messages := ["trait Gone is not declared", "trait S is declared in several modules: N, O",
      "trait Gone is not declared"]
    (onTraits (checkModel danglingModel)).map (·.message) = messages ∧
      ∃ f, danglingModel.flatten ⟨none, []⟩ = .ok f ∧
        ((onTraits f.findings).map (·.message)).Perm messages := by
  intro messages
  have plain : ∀ e ∈ danglingModel.traitEntries, '.' ∉ e.name.toList := by decide +kernel
  obtain ⟨checked, ⟨f, flat, composed⟩, -⟩ := brokenTraits_reportedAlike danglingModel
    ⟨by decide +kernel, by decide +kernel⟩ (distinctKeys_of_plainNames plain) none
  refine ⟨?_, f, flat, (composed.map _).trans (.of_eq (by decide +kernel))⟩
  rw [checked]
  decide +kernel

/-- Of two traits of one qualified name, only the one that is resolved first becomes known, and a
broken reference in the other one is reported by the check alone. -/
theorem brokenTraits_reportedByCheck_overlappingModel :
    let m := overlappingModel (.set []) (.ref "Gone" none) []
    m.DistinctTraits ∧
      (onTraits (checkModel m)).map (fun d => (d.kind, d.message)) =
        [(.unresolvedName, "trait Gone is not declared")] ∧
      ∃ f, m.flatten ⟨none, []⟩ = .ok f ∧ onTraits f.findings = [] := by
  intro m
  exact ⟨distinctTraits_overlappingModel _ _, by decide +kernel, m.composeClasses, rfl,
    by decide +kernel⟩

end Model

end DeltaLang
