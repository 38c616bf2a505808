import DeltaLang.Check.Model
import DeltaLang.Proofs.Names.Cycles
import DeltaLang.Proofs.Program.Distinct

/-!
# What checking a model establishes

A model is checked without errors if and only if it is valid: its declarations are told apart, its
references mean something, no interface extends itself, and the signatures of an interface have
distinct names.
-/

namespace DeltaLang

/-! ## References -/

/-- Every trait that the expression, written in the module, refers to is declared. -/
def SymbolTable.RefersToDeclared (t : SymbolTable) (module : Option String) (x : TraitExpr) :
    Prop :=
  ∀ name ∈ x.references, ∃ e, t.traits.resolve module name = .ok e

/-- The names that the declaration refers to mean something in the module. -/
def Decl.Resolves (t : SymbolTable) (module : String) : Decl → Prop
  | .interface i => ∀ name ∈ i.parents, ∃ j, t.interfaces.resolve (some module) name = .ok j
  | .class c =>
    (∀ name ∈ c.implements, ∃ i, t.interfaces.resolve (some module) name = .ok i) ∧
      ∀ x ∈ c.uses.filterMap TraitUse.expr?, t.RefersToDeclared (some module) x
  | .trait d => t.RefersToDeclared (some module) d.expr
  | .delta d =>
    (∀ name ∈ d.after ++ d.before, ∃ e, t.deltas.resolve (some module) name = .ok e) ∧
      ∀ name ∈ d.uses, (t.module? name).isSome
  | .product _ => True

namespace Check

variable {t : SymbolTable} {module : String}

theorem reference_clean_iff {α : Type} {ns : Namespace α} {what : String}
    {loc : Option Location} {name : String} :
    (reference ns module what loc name).hasErrors = false ↔
      ∃ e, ns.resolve (some module) name = .ok e := by
  unfold reference
  cases ns.resolve (some module) name with
  | ok e => exact iff_of_true rfl ⟨e, rfl⟩
  | error err => cases err <;> simp [lookupFailure, Diagnostics.hasErrors, Diagnostic.errorAt,
      Diagnostic.isError]

theorem traitReferences_clean_iff {loc : Option Location} {x : TraitExpr} :
    (traitReferences t module loc x).hasErrors = false ↔ t.RefersToDeclared (some module) x := by
  rw [traitReferences, Diagnostics.hasErrors_flatMap_eq_false_iff, SymbolTable.RefersToDeclared,
    TraitExpr.references_eq_map, List.forall_mem_map]
  exact forall₂_congr fun _ _ => reference_clean_iff

theorem references_clean_iff {d : Decl} :
    (references t module d).hasErrors = false ↔ d.Resolves t module := by
  cases d with
  | interface i =>
    rw [references, Diagnostics.hasErrors_flatMap_eq_false_iff, Decl.Resolves]
    exact forall₂_congr fun _ _ => reference_clean_iff
  | «class» c =>
    rw [references, Diagnostics.hasErrors_append, Bool.or_eq_false_iff,
      Diagnostics.hasErrors_flatMap_eq_false_iff, Diagnostics.hasErrors_flatMap_eq_false_iff]
    exact and_congr (forall₂_congr fun _ _ => reference_clean_iff)
      (forall₂_congr fun _ _ => traitReferences_clean_iff)
  | trait d => exact traitReferences_clean_iff
  | delta d =>
    rw [references, Diagnostics.hasErrors_append, Bool.or_eq_false_iff,
      Diagnostics.hasErrors_flatMap_eq_false_iff,
      Diagnostics.hasErrors_map_eq_false_iff fun _ => rfl]
    refine and_congr (forall₂_congr fun _ _ => reference_clean_iff) ?_
    simp [List.filter_eq_nil_iff, Option.isSome_iff_ne_none]
  | product p => exact iff_of_true rfl trivial

/-! ## Signatures -/

theorem interfaceSignatures_clean_iff {i : Entry InterfaceDecl} :
    (interfaceSignatures t i).hasErrors = false ↔
      ((t.interfaceMethods i).map Signature.name).Nodup := by
  rw [interfaceSignatures, List.nodup_iff_count_le_one]
  dsimp only
  generalize (t.interfaceMethods i).map Signature.name = names
  rw [Diagnostics.hasErrors, List.any_eq_false]
  constructor
  · intro quiet name
    by_contra more
    have mem : name ∈ sortNames names := mem_sortNames.2 (List.count_pos_iff.1 (by omega))
    exact quiet _ (List.mem_filterMap.2 ⟨name, mem, if_pos (by omega)⟩) rfl
  · intro once d reported
    obtain ⟨name, -, counted⟩ := List.mem_filterMap.1 reported
    rw [if_neg (Nat.not_lt.2 (once name))] at counted
    cases counted

end Check

/-! ## Valid models -/

namespace SymbolTable

/-- Every name of an `extends` clause means an interface in the module of the clause. -/
def ParentsDeclared (t : SymbolTable) : Prop :=
  ∀ i ∈ t.interfaces, ∀ name ∈ i.decl.parents,
    ∃ j, t.interfaces.resolve (some i.module) name = .ok j

/-- Every name that a class implements means an interface in the module of the class. -/
def ImplementsDeclared (t : SymbolTable) : Prop :=
  ∀ c ∈ t.classes, ∀ name ∈ c.decl.implements,
    ∃ i, t.interfaces.resolve (some c.module) name = .ok i

/-- Every trait that a `uses` clause refers to is declared. -/
def UsesDeclared (t : SymbolTable) : Prop :=
  ∀ c ∈ t.classes, ∀ x ∈ c.decl.uses.filterMap TraitUse.expr?,
    t.RefersToDeclared (some c.module) x

/-- Every trait that the expression of a trait refers to is declared. -/
def TraitsDeclared (t : SymbolTable) : Prop :=
  ∀ e ∈ t.traits, t.RefersToDeclared (some e.module) e.decl.expr

/-- Every delta in an ordering constraint is declared, and so is every module that a delta uses. -/
def DeltasDeclared (t : SymbolTable) : Prop :=
  ∀ e ∈ t.deltas,
    (∀ name ∈ e.decl.after ++ e.decl.before,
      ∃ e', t.deltas.resolve (some e.module) name = .ok e') ∧
    ∀ name ∈ e.decl.uses, (t.module? name).isSome

/-- The signatures of an interface, those that it inherits included, have distinct names. -/
def SignaturesDistinct (t : SymbolTable) : Prop :=
  ∀ i ∈ t.interfaces, ((t.interfaceMethods i).map Signature.name).Nodup

end SymbolTable

namespace Model

variable {m : Model}

/-- The declarations of a model are told apart, all references mean something, and extension of
interfaces is acyclic and does not bring signatures of one name together. -/
structure Valid (m : Model) : Prop where
  distinct : m.Distinct
  parents : (SymbolTable.ofModel m).ParentsDeclared
  implements : (SymbolTable.ofModel m).ImplementsDeclared
  uses : (SymbolTable.ofModel m).UsesDeclared
  traits : (SymbolTable.ofModel m).TraitsDeclared
  deltas : (SymbolTable.ofModel m).DeltasDeclared
  acyclic : (SymbolTable.ofModel m).ExtensionAcyclic
  signatures : (SymbolTable.ofModel m).SignaturesDistinct

/-- References are looked at by the kind of the declaration. -/
theorem forall_resolves_iff :
    (∀ mod ∈ m.modules, ∀ d ∈ mod.decls, d.Resolves (.ofModel m) mod.name) ↔
      let t := SymbolTable.ofModel m
      t.ParentsDeclared ∧ t.ImplementsDeclared ∧ t.UsesDeclared ∧ t.TraitsDeclared ∧
        t.DeltasDeclared := by
  rw [← forall_entries_iff (P := fun module d => d.Resolves (.ofModel m) module)]
  constructor
  · intro all
    exact ⟨fun i mem => all _ (mem_interfaceEntries_iff.1 mem),
      fun c mem => (all _ (mem_classEntries_iff.1 mem)).1,
      fun c mem => (all _ (mem_classEntries_iff.1 mem)).2,
      fun e mem => all _ (mem_traitEntries_iff.1 mem),
      fun e mem => all _ (mem_deltaEntries_iff.1 mem)⟩
  · rintro ⟨parents, implements, uses, traits, deltas⟩ ⟨path, module, name, d⟩ mem
    cases d with
    | interface i => exact parents ⟨path, module, name, i⟩ (mem_interfaceEntries_iff.2 mem)
    | «class» c =>
      exact ⟨implements ⟨path, module, name, c⟩ (mem_classEntries_iff.2 mem),
        uses ⟨path, module, name, c⟩ (mem_classEntries_iff.2 mem)⟩
    | trait d => exact traits ⟨path, module, name, d⟩ (mem_traitEntries_iff.2 mem)
    | delta d => exact deltas ⟨path, module, name, d⟩ (mem_deltaEntries_iff.2 mem)
    | product p => trivial

/-- A model is checked without errors exactly if it is valid. -/
theorem checkModel_clean_iff : (checkModel m).hasErrors = false ↔ m.Valid := by
  have modules : (Check.duplicateModules m).hasErrors = false ↔
      (m.modules.map Module.name).Nodup := by
    rw [Check.duplicateModules, Diagnostics.hasErrors_map_eq_false_iff fun _ => rfl,
      Check.repeated_eq_nil_iff]
    simp
  have decls (mod : Module) : (Check.duplicateDeclarations mod).hasErrors = false ↔
      (mod.decls.map fun d => (d.kind, d.name)).Nodup := by
    rw [Check.duplicateDeclarations, Diagnostics.hasErrors_map_eq_false_iff fun _ => rfl,
      Check.repeated_eq_nil_iff]
    simp
  have references := forall_resolves_iff (m := m)
  simp only [checkModel, Diagnostics.hasErrors_append, Bool.or_eq_false_iff,
    Diagnostics.hasErrors_flatMap_eq_false_iff, modules, decls, Check.references_clean_iff,
    Check.interfaceCycles_clean_iff (SymbolTable.placed_ofModel m),
    Check.interfaceSignatures_clean_iff, forall_and, references]
  constructor
  · rintro ⟨⟨⟨names, kinds, parents, implements, uses, traits, deltas⟩, acyclic⟩, signatures⟩
    exact ⟨⟨names, kinds⟩, parents, implements, uses, traits, deltas, acyclic, signatures⟩
  · rintro ⟨⟨names, kinds⟩, parents, implements, uses, traits, deltas, acyclic, signatures⟩
    exact ⟨⟨⟨names, kinds, parents, implements, uses, traits, deltas⟩, acyclic⟩, signatures⟩

theorem distinct_of_checkModel (checked : (checkModel m).hasErrors = false) : m.Distinct :=
  (checkModel_clean_iff.1 checked).distinct

theorem parentsDeclared_of_checkModel (checked : (checkModel m).hasErrors = false) :
    (SymbolTable.ofModel m).ParentsDeclared := (checkModel_clean_iff.1 checked).parents

end Model

end DeltaLang
