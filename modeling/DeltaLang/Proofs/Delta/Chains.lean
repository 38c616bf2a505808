import DeltaLang.Proofs.Delta.Carried
import DeltaLang.Proofs.Delta.Kept
import DeltaLang.Proofs.Delta.Staged

/-!
# What every product keeps to

In a product the modules and declarations are told apart if they are so in the model.  Its classes
are concrete, whatever is wrong in the model.  The versions of its methods have the name of the
method if this is so of all methods in the model: a version is only put in front of a method of its
name, by deltas as in traits.
-/

namespace DeltaLang

/-! ## Methods of all declarations -/

/-- All methods that the operation brings in have the property. -/
def DeltaOp.Over (P : Method → Prop) : DeltaOp → Prop
  | addClass c => c.Over P fun _ => True
  | addTrait t => t.expr.Over P fun _ => True
  | modifyClass mod => ∀ op ∈ mod.ops, op.Over P fun _ => True
  | modifyTrait _ expr _ => expr.Over P fun _ => True
  | _ => True

/-- All methods of the declaration have the property, those that a delta brings in included. -/
def Decl.Over (P : Method → Prop) : Decl → Prop
  | .class c => c.Over P fun _ => True
  | .trait t => t.expr.Over P fun _ => True
  | .delta d => ∀ op ∈ d.ops, op.Over P
  | .interface _ | .product _ => True

section

variable {P : Method → Prop}

/-- A delta only brings in methods that have the property, and keeps it of those that it changes. -/
theorem DeltaDecl.keeps_over (stacking : Method.Stacks P) {d : DeltaDecl}
    (h : (Decl.delta d).Over P) (module : String) : d.Keeps (fun _ => Decl.Over P) module := by
  refine fun op mem => ⟨fun d adds => ?_, fun _ d d' changed before => ?_⟩
  · have brought := h op mem
    cases op with
    | addInterface i | addClass c | addTrait t =>
      obtain rfl := Option.some.inj adds
      exact brought
    | _ => cases adds
  · cases changed with
    | trait name expr loc t => exact h _ mem
    | interface mod i => trivial
    | «class» mod t module c => exact SymbolTable.over_modifyClass stacking before (h _ mem)

namespace Model

variable {m m' : Model} {es : List (Entry DeltaDecl)}

theorem AllDecls.over_applyDeltas (h : m.AllDecls fun _ => Decl.Over P)
    (stacking : Method.Stacks P) (declared : ∀ e ∈ es, e ∈ m.deltaEntries)
    (applied : m.applyDeltas es = .ok m') : m'.AllDecls fun _ => Decl.Over P := by
  refine AllDecls.applyDeltas (P := fun _ => Decl.Over P) h (fun e mem => ?_) applied
  have own : (Decl.delta e.decl).Over P := AllDecls.of_mem_entries (P := fun _ => Decl.Over P) h
    (mem_deltaEntries_iff.1 (declared e mem))
  exact DeltaDecl.keeps_over stacking own e.module

/-- The methods of composed classes have the property. -/
theorem AllDecls.over_composeClasses (h : m.AllDecls fun _ => Decl.Over P)
    (stacking : Method.Stacks P) :
    ∀ c ∈ m.composeClasses.model.classes, ∀ method ∈ c.methods, P method := by
  intro c mem
  have traits : (SymbolTable.ofModel m).TraitsOver P fun _ => True := fun e mem =>
    AllDecls.of_mem_entries (P := fun _ => Decl.Over P) h (mem_traitEntries_iff.1 mem)
  obtain ⟨mod, hmod, c', declared, rfl⟩ := exists_of_mem_classes_composeClasses mem
  have own : c'.Over P fun _ => True := h mod hmod _ declared
  exact (SymbolTable.over_composeClass stacking traits mod.name own
    (SymbolTable.over_resolveTraits stacking traits)).set

end Model

end

/-! ## Chains of versions -/

/-- The versions behind the method have its name. -/
def Method.Chained (m : Method) : Prop := ∀ v ∈ m.earlier, v.name = m.name

theorem Method.stacks_chained : Method.Stacks Method.Chained := fun m old h h' same v mem => by
  rcases List.mem_append.1 mem with mem | mem
  · exact h v mem
  · rcases List.mem_cons.1 mem with rfl | mem
    · exact same
    · exact (h' v mem).trans same

/-! ## Products -/

namespace Model

/-- Where a product is derived, it tells modules and declarations apart if the model does.  In any
case its classes have no `uses` clauses and no two methods of one name.  Its methods have chains of
versions of one name if the model has no others. -/
theorem flatten_keepsForm {m : Model} {config : ProductConfig} {f : Flattened}
    (derived : m.flatten config = .ok f) :
    (m.Distinct → f.model.Distinct) ∧
    (∀ c ∈ f.model.classes, c.uses = [] ∧ (c.methods.map (·.name)).Nodup) ∧
    (m.AllDecls (fun _ => Decl.Over Method.Chained) →
      ∀ c ∈ f.model.classes, ∀ method ∈ c.methods, ∀ v ∈ method.earlier, v.name = method.name) := by
  obtain ⟨es, d, valid, applied, rfl⟩ := exists_derived_of_flatten derived
  refine ⟨fun distinct => (distinct.applyDeltas applied).composeClasses, fun c mem => ?_,
    fun chained => ?_⟩
  · have concrete := concrete_of_mem_classes mem
    exact ⟨concrete.uses, concrete.distinct⟩
  · have changed := chained.over_applyDeltas Method.stacks_chained
      (fun _ mem => mem_deltaEntries_of_valid valid mem) applied
    exact changed.over_composeClasses Method.stacks_chained

/-- One delta lets a class use a trait, and another puts a version in front of the method that it
gets. -/
theorem flatten_keepsForm_stagedModel :
    ∃ f, stagedModel.flatten ⟨none, ["A", "B"]⟩ = .ok f ∧ f.model.Distinct ∧
      f.model.classes.map (fun c => c.methods.map Method.depth) = [[1]] ∧
      ∀ c ∈ f.model.classes, c.uses = [] ∧ (c.methods.map (·.name)).Nodup ∧
        ∀ method ∈ c.methods, ∀ v ∈ method.earlier, v.name = method.name := by
  obtain ⟨f, derived⟩ : ∃ f, stagedModel.flatten ⟨none, ["A", "B"]⟩ = .ok f :=
    exists_of_isOk (by decide +kernel)
  have depths : (stagedModel.flatten ⟨none, ["A", "B"]⟩).toOption.map
      (·.model.classes.map fun c => c.methods.map Method.depth) = some [[1]] := by decide +kernel
  rw [derived] at depths
  have distinct : stagedModel.Distinct := ⟨by decide, by decide⟩
  have alone : (default : Method).Chained := fun _ mem => absurd mem List.not_mem_nil
  have bare : ClassDecl.Over Method.Chained (fun _ => True)
      { (default : ClassDecl) with name := "C" } :=
    ⟨fun _ mem => absurd mem List.not_mem_nil, fun _ mem => absurd mem List.not_mem_nil⟩
  have chained : stagedModel.AllDecls fun _ => Decl.Over Method.Chained := by
    simp [AllDecls, modules, stagedModel, Decl.Over, DeltaOp.Over, ClassOp.Over, TraitUse.Over,
      TraitExpr.Over, useDelta, modifyDelta, alone, bare]
  obtain ⟨apart, concrete, chains⟩ := flatten_keepsForm derived
  exact ⟨f, derived, apart distinct, Option.some.inj depths, fun c mem =>
    ⟨(concrete c mem).1, (concrete c mem).2, chains chained c mem⟩⟩

end Model

end DeltaLang
