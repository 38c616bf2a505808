import DeltaLang.Proofs.Delta.Composition
import DeltaLang.Proofs.Delta.Locality
import DeltaLang.Proofs.Delta.Related

/-!
# Models with the same declarations in another order

Two models may only differ in the order of the declarations within each module.  If the traits are
declared in the same order, composing the classes of both yields such models again, with the same
findings up to their order.
-/

namespace DeltaLang

/-! ## Rearranged models -/

/-- The same module with its declarations in another order. -/
structure Module.Rearranged (a b : Module) : Prop where
  name : a.name = b.name
  loc : a.loc = b.loc
  decls : a.decls.Perm b.decls

/-- The same units and modules, each with its declarations in another order. -/
def Model.Rearranged (m m' : Model) : Prop := m.Related Module.Rearranged m'

namespace Model

variable {m m' : Model}

/-- Models that agree in two complementary parts are rearranged. -/
theorem rearranged_of_restrict_eq {p : Decl → Bool} (pos : m.restrict p = m'.restrict p)
    (neg : m.restrict (fun d => !p d) = m'.restrict (fun d => !p d)) : m.Rearranged m' := by
  refine forall₂_of_map_eq (Model.mk.inj pos) (Model.mk.inj neg) fun u u' pos neg => ?_
  rw [CompilationUnit.mk.injEq] at pos neg
  refine ⟨pos.1, forall₂_of_map_eq pos.2 neg.2 fun a b pos neg => ?_⟩
  rw [Module.restrict, Module.restrict, Module.mk.injEq] at pos neg
  refine ⟨pos.1, pos.2.2, ?_⟩
  have whole := List.filter_append_perm p a.decls
  rw [pos.2.1, neg.2.1] at whole
  exact whole.symm.trans (List.filter_append_perm p b.decls)

/-! ## Composition of rearranged models -/

/-- The classes of rearranged models, places aside, are those of one another in another order. -/
theorem Rearranged.classEntries (h : m.Rearranged m') :
    (m.classEntries.map Entry.unplaced).Perm (m'.classEntries.map Entry.unplaced) := by
  rw [Model.classEntries, Model.classEntries, unplaced_entries, unplaced_entries]
  refine perm_flatMap_of_forall₂ (Related.modules h) fun a b same => ?_
  rw [same.name]
  exact same.decls.filterMap _

/-- Composing rearranged models, whose traits are in the same order, yields rearranged models and
findings. -/
theorem Rearranged.composeClasses (h : m.Rearranged m')
    (traits : (SymbolTable.ofModel m).SameTraits (.ofModel m')) :
    m.composeClasses.model.Rearranged m'.composeClasses.model ∧
      m.composeClasses.findings.Perm m'.composeClasses.findings := by
  rw [composeClasses_eq_of_sameTraits traits, composeClasses_eq_of_sameTraits rfl]
  constructor
  · refine Related.mapModules h fun a b same => ⟨same.name, same.loc, ?_⟩
    rw [Module.compose, Module.compose, same.name]
    exact same.decls.map _
  · refine List.Perm.append_left _ ?_
    have perm := h.classEntries.flatMap_right fun e =>
      ((SymbolTable.ofModel m').composeClass e.module e.decl m'.resolver).findings
    rw [List.flatMap_map, List.flatMap_map] at perm
    exact perm

end Model

end DeltaLang
