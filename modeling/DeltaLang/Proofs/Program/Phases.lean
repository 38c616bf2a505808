import DeltaLang.Compile

/-!
# Phases of a compilation

A compilation that derives a product has read the texts and checked their model without errors, and
its model is the product that the configuration describes.  Type checking does not change it.
-/

namespace DeltaLang

variable {sources : List SourceText} {options : CompileOptions} {m : Model}

/-- Where no phase has errors, the model that is read has none, and the derived model is the product
of the configuration that is found, composed without errors. -/
theorem exists_flatten_of_derive (hm : (derive sources options).model = some m)
    (finished : (derive sources options).stoppedAfter = none) :
    let base : Model := ⟨(readUnits sources options.standardLibrary).1⟩
    ∃ config f, (derive sources options).product = some config ∧
      (checkModel base).hasErrors = false ∧ base.flatten config = .ok f ∧
      f.findings.hasErrors = false ∧ f.model = m := by
  dsimp only
  simp only [derive] at hm finished ⊢
  generalize Model.mk (readUnits sources options.standardLibrary).1 = base at hm finished ⊢
  split at hm
  · cases hm
  split at hm
  · cases hm
  rename_i read checked
  rw [if_neg read, if_neg checked] at finished ⊢
  rw [Diagnostics.hasErrors_append, Bool.or_eq_true, not_or] at checked
  split at hm
  · cases hm
  rename_i config found
  rw [found] at finished
  dsimp only at finished
  cases flat : base.flatten config with
  | error e =>
    rw [flat] at hm
    cases hm
  | ok f =>
    simp only [flat, Option.some.injEq] at hm finished
    refine ⟨config, f, rfl, eq_false_of_ne_true checked.2, flat, ?_, hm⟩
    split at finished
    · cases finished
    · rename_i clean
      exact eq_false_of_ne_true clean

/-- Type checking adds findings and annotations to what was derived. -/
theorem derived_of_compileWith {σ : Type} {registry : Registry σ} {c : Compilation}
    (compiled : (compileWith sources options registry).1 = .ok c) :
    c.model = (derive sources options).model ∧ c.product = (derive sources options).product ∧
      c.stoppedAfter = (derive sources options).stoppedAfter := by
  unfold compileWith at compiled
  dsimp only at compiled
  split at compiled
  · split at compiled
    · cases compiled
    · split at compiled
      · cases compiled
      · obtain rfl := Except.ok.inj compiled
        exact ⟨rfl, rfl, rfl⟩
  · obtain rfl := Except.ok.inj compiled
    exact ⟨rfl, rfl, rfl⟩

/-- What is computed from the model of a compilation is computed from a model that there is. -/
theorem exists_of_compile {α : Type} {f : Compilation → Model → α} {a : α}
    (computed : ((compile sources options).toOption.bind fun c => c.model.map (f c)) = some a) :
    ∃ c m, compile sources options = .ok c ∧ c.model = some m ∧ f c m = a := by
  rcases compiled : compile sources options with e | c
  · rw [compiled] at computed
    cases computed
  · rw [compiled, Except.toOption, Option.bind_some, Option.map_eq_some_iff] at computed
    obtain ⟨m, hm, eq⟩ := computed
    exact ⟨c, m, rfl, hm, eq⟩

end DeltaLang
