import DeltaLang.Proofs.Delta.Kept
import DeltaLang.Proofs.Program.Phases
import DeltaLang.Proofs.Reading.Names
import DeltaLang.Proofs.Trait.Declared

/-!
# Valid models and the products derived from them

A model is checked before a product is derived from it, and the product is not checked again.
Deriving keeps declarations told apart, and composition reports what traits and `uses` clauses refer
to in vain.  But deltas may remove interfaces that are referred to, add references to interfaces
that are not declared, close cycles of extension and bring signatures of one name together, and none
of this is noticed.  It does not happen where the deltas of the product leave interfaces alone.
-/

namespace DeltaLang

/-- The names mean interfaces in a namespace if they do in one where the same is declared. -/
theorem DeltaDecl.LeavesInterfaces.congr {ns ns' : Namespace InterfaceDecl}
    (same : ns.map Entry.unplaced = ns'.map Entry.unplaced) {d : DeltaDecl}
    (h : d.LeavesInterfaces ns) : d.LeavesInterfaces ns' where
  targets := h.targets
  implements op mem name named module :=
    Namespace.exists_resolve_congr same (h.implements op mem name named module)

namespace Model

variable {m d : Model} {es : List (Entry DeltaDecl)}

/-! ## What deriving establishes -/

/-- The deltas of a model are those of the models derived from it. -/
theorem deltaEntries_derived (applied : m.applyDeltas es = .ok d) :
    m.deltaEntries.map Entry.unplaced =
      d.composeClasses.model.deltaEntries.map Entry.unplaced := by
  have composed : d.composeClasses.model.deltaEntries = d.deltaEntries :=
    narrow_entries_composeClasses (f := Decl.delta?) (fun _ => rfl) d
  rw [composed]
  exact (deltaEntries_applyDeltas applied).symm

/-- The derived model of a valid one, composed without errors, is valid as far as interfaces are not
concerned. -/
theorem Valid.kept (valid : m.Valid) (plain : d.PlainTraits) (applied : m.applyDeltas es = .ok d)
    (clean : d.composeClasses.findings.hasErrors = false) :
    let t := SymbolTable.ofModel d.composeClasses.model
    d.composeClasses.model.Distinct ∧ t.UsesDeclared ∧ t.TraitsDeclared ∧ t.DeltasDeclared := by
  intro t
  have distinct := valid.distinct.applyDeltas applied
  refine ⟨distinct.composeClasses, fun c mem x used => ?_, ?_, ?_⟩
  · have mem : c ∈ d.composeClasses.model.classEntries := mem
    rw [classEntries_composeClasses] at mem
    obtain ⟨c, -, rfl⟩ := List.mem_map.1 mem
    cases used
  · have declared := traitsDeclared_of_composeClasses distinct plain clean
    have traits : t.traits = d.traitEntries :=
      narrow_entries_composeClasses (f := Decl.trait?) (fun _ => rfl) d
    unfold SymbolTable.TraitsDeclared SymbolTable.RefersToDeclared
    rw [traits]
    exact declared
  · have modules := (names_modules_composeClasses d).trans (names_modules_applyDeltas applied)
    exact deltasDeclared_congr (deltaEntries_derived applied) modules.symm valid.deltas

/-! ## Products with the interfaces of the model -/

/-- Deltas that do not target interfaces derive a model of the same interfaces. -/
theorem sameInterfaces_derived (distinct : m.Distinct)
    (leaves : ∀ e ∈ es, ∀ op ∈ e.decl.ops, op.target.1 ≠ .interface)
    (applied : m.applyDeltas es = .ok d) :
    (SymbolTable.ofModel m).SameInterfaces (.ofModel d.composeClasses.model) where
  same := by
    have composed : d.composeClasses.model.interfaceEntries = d.interfaceEntries :=
      narrow_entries_composeClasses (f := Decl.interface?) (fun _ => rfl) d
    exact (interfaceEntries_applyDeltas leaves applied).symm.trans
      (congrArg (List.map Entry.unplaced) composed.symm)
  placed := SymbolTable.placed_ofModel m
  placed' := SymbolTable.placed_ofModel _
  keys := distinct.nodup_keys fun _ => kind_of_interface?

/-- Composition keeps what classes implement. -/
theorem AllDecls.composeClasses {ns : Namespace InterfaceDecl}
    (h : m.AllDecls (Decl.ImplementsIn ns)) :
    m.composeClasses.model.AllDecls (Decl.ImplementsIn ns) := by
  intro mod mem d hd
  rw [modules_composeClasses] at mem
  obtain ⟨mod, hmod, rfl⟩ := List.mem_map.1 mem
  obtain ⟨d', hd', rfl⟩ := List.mem_map.1 hd
  have before := h mod hmod d' hd'
  cases d' with
  | «class» c => exact before
  | _ => trivial

/-- The derived model of a valid one is valid if the deltas leave interfaces alone. -/
theorem Valid.of_leavesInterfaces (valid : m.Valid) (plain : d.PlainTraits)
    (applied : m.applyDeltas es = .ok d) (clean : d.composeClasses.findings.hasErrors = false)
    (leaves : ∀ e ∈ es, e.decl.LeavesInterfaces m.interfaceEntries) :
    d.composeClasses.model.Valid := by
  obtain ⟨distinct, uses, traits, deltas⟩ := valid.kept plain applied clean
  have same := sameInterfaces_derived valid.distinct (fun e mem => (leaves e mem).targets) applied
  have implements : m.AllDecls (Decl.ImplementsIn m.interfaceEntries) :=
    (implementsDeclared_iff rfl).1 valid.implements
  have derived := implements.applyDeltas (fun e mem => (leaves e mem).keeps e.module) applied
  exact ⟨distinct, same.parentsDeclared valid.parents,
    (implementsDeclared_iff same.same).2 derived.composeClasses, uses, traits, deltas,
    same.extensionAcyclic valid.acyclic, same.signaturesDistinct valid.signatures⟩

end Model

/-! ## Compilations -/

/-- The model of a successful compilation is valid as far as interfaces are not concerned: it is
checked without errors exactly if the names of `extends` and `implements` clauses mean interfaces,
extension is acyclic and signatures have distinct names.  So it is if no delta of the product adds,
removes or modifies interfaces or makes a class implement a name that does not mean one. -/
theorem compile_checkModel_iff {sources : List SourceText} {options : CompileOptions}
    {c : Compilation} (compiled : compile sources options = .ok c) (ok : c.succeeded = true)
    {m : Model} (hm : c.model = some m) :
    let t := SymbolTable.ofModel m
    (m.Distinct ∧ t.UsesDeclared ∧ t.TraitsDeclared ∧ t.DeltasDeclared) ∧
      ((checkModel m).hasErrors = false ↔
        t.ParentsDeclared ∧ t.ImplementsDeclared ∧ t.ExtensionAcyclic ∧ t.SignaturesDistinct) ∧
      ((∀ config, c.product = some config → ∀ name ∈ config.deltas, ∀ e,
          t.deltas.resolve none name = .ok e → e.decl.LeavesInterfaces t.interfaces) →
        (checkModel m).hasErrors = false) := by
  intro t
  obtain ⟨model, product, stopped⟩ := derived_of_compileWith compiled
  have finished : c.stoppedAfter = none := by
    rw [Compilation.succeeded, Bool.and_eq_true] at ok
    exact Option.isNone_iff_eq_none.1 ok.1
  obtain ⟨config, f, found, checked, flat, clean, rfl⟩ :=
    exists_flatten_of_derive (model ▸ hm) (stopped ▸ finished)
  obtain ⟨es, d, listed, applied, rfl⟩ := Model.exists_derived_of_flatten flat
  have valid := Model.checkModel_clean_iff.1 checked
  have plain : d.PlainTraits := by
    have base := plainTraits_readUnits sources options.standardLibrary
    refine base.applyDeltas (fun e mem => ?_) applied
    have declared := Model.mem_deltaEntries_of_valid listed mem
    exact base.of_mem_entries (Model.mem_deltaEntries_iff.1 declared)
  obtain ⟨distinct, uses, traits, deltas⟩ := valid.kept plain applied clean
  refine ⟨⟨distinct, uses, traits, deltas⟩, ?_, fun leaves => ?_⟩
  · rw [Model.checkModel_clean_iff]
    exact ⟨fun h => ⟨h.parents, h.implements, h.acyclic, h.signatures⟩,
      fun ⟨parents, implements, acyclic, signatures⟩ =>
        ⟨distinct, parents, implements, uses, traits, deltas, acyclic, signatures⟩⟩
  · have sameDeltas := Model.deltaEntries_derived applied
    -- The names that the product lists mean the same deltas in both models.
    have derived : ∀ e ∈ es, e.decl.LeavesInterfaces t.interfaces := fun e mem => by
      obtain ⟨name, named, before⟩ := (exists_of_forall₂ (Model.resolve_of_valid listed)).2 e mem
      obtain ⟨err, failed, -⟩ | ⟨e₁, e₂, found₁, found₂, same⟩ :=
        Namespace.resolve_congr sameDeltas none name
      · cases failed.symm.trans before
      · obtain rfl : e₁ = e := Except.ok.inj (found₁.symm.trans before)
        have decl : e₁.decl = e₂.decl := (congrArg Entry.decl same :)
        exact decl ▸ leaves config (product.trans found) name named e₂ found₂
    have same := Model.sameInterfaces_derived valid.distinct (fun e mem => (derived e mem).targets)
      applied
    exact Model.checkModel_clean_iff.2 <| valid.of_leavesInterfaces plain applied clean
      fun e mem => (derived e mem).congr same.same.symm

/-- A program with a product whose delta modifies a method. -/
def adjustedProgram : SourceText :=
  ⟨none, "module M; interface I { Int f(); } class C implements I { Int f() { return 1; } } " ++
    "delta D { modifies class C { modifies Int f() { return original() + 1; } } } product P();"⟩

theorem compile_checkModel_iff_adjustedProgram :
    ∃ c m, compile [adjustedProgram] ⟨some "P", true, false, none⟩ = .ok c ∧ c.succeeded = true ∧
      c.model = some m ∧ c.product = some ⟨some "P", ["D"]⟩ ∧
      (checkModel m).hasErrors = false := by
  obtain ⟨c, m, compiled, hm, outcome⟩ : ∃ c m,
      compile [adjustedProgram] ⟨some "P", true, false, none⟩ = .ok c ∧ c.model = some m ∧
        (c.succeeded, c.product, m.deltaEntries.all fun e =>
          e.decl.ops.all fun op => op.target.1 != .interface && op.implements.isEmpty) =
          (true, some ⟨some "P", ["D"]⟩, true) :=
    exists_of_compile (by decide +kernel)
  simp only [Prod.mk.injEq] at outcome
  obtain ⟨ok, product, ops⟩ := outcome
  refine ⟨c, m, compiled, ok, hm, product, (compile_checkModel_iff compiled ok hm).2.2 ?_⟩
  intro config _ name _ e found
  have leaves := List.all_eq_true.1 ops e (Namespace.mem_of_resolve_eq_ok found)
  simp only [List.all_eq_true, Bool.and_eq_true, bne_iff_ne, List.isEmpty_iff] at leaves
  refine ⟨fun op mem => (leaves op mem).1, fun op mem name named => ?_⟩
  rw [(leaves op mem).2] at named
  cases named

/-- A program with a product whose delta removes an interface that a class implements. -/
def orphaningProgram : SourceText :=
  ⟨none, "module M; interface I { Unit m(); } class C implements I { Unit m() { skip; } } " ++
    "delta D { removes interface I; } product P();"⟩

/-- The compilation succeeds, but its model refers to the interface that was removed. -/
theorem compile_checkModel_orphaningProgram :
    ∃ c m, compile [orphaningProgram] ⟨some "P", true, false, none⟩ = .ok c ∧
      c.succeeded = true ∧ c.model = some m ∧ (checkModel m).hasErrors = true := by
  obtain ⟨c, m, compiled, hm, outcome⟩ : ∃ c m,
      compile [orphaningProgram] ⟨some "P", true, false, none⟩ = .ok c ∧ c.model = some m ∧
        (c.succeeded, (checkModel m).hasErrors) = (true, true) :=
    exists_of_compile (by decide +kernel)
  obtain ⟨ok, errors⟩ := Prod.mk.inj outcome
  exact ⟨c, m, compiled, ok, hm, errors⟩

end DeltaLang
