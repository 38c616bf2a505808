import DeltaLang.Proofs.Program.Phases
import DeltaLang.Proofs.Run.Original

/-!
# Runs of compiled programs

A compilation that succeeds with type checking has checked all that running relies on: composition
has reported every oldest version that calls `original(..)`, and type checking every call of it
outside of methods.  So its model is grounded, and no operation on it, whatever was done before,
stops because there is no original.
-/

namespace DeltaLang

/-! ## Compiled models -/

/-- All classes of the model are grounded. -/
def Model.Grounded (m : Model) : Prop := (SymbolTable.ofModel m).Grounded

/-- A derived product is composed without errors. -/
theorem derive_composed {sources : List SourceText} {options : CompileOptions} {m : Model}
    (hm : (derive sources options).model = some m)
    (finished : (derive sources options).stoppedAfter = none) :
    ∃ d : Model, m = d.composeClasses.model ∧ d.composeClasses.findings.hasErrors = false := by
  obtain ⟨config, f, -, -, flat, clean, rfl⟩ := exists_flatten_of_derive hm finished
  obtain ⟨es, d, -, -, rfl⟩ := Model.exists_derived_of_flatten flat
  exact ⟨d, rfl, clean⟩

theorem checked_of_compileWith {σ : Type} {sources : List SourceText} {options : CompileOptions}
    {registry : Registry σ} (checks : options.typeCheck = true) {c : Compilation}
    (compiled : (compileWith sources options registry).1 = .ok c) (ok : c.succeeded = true)
    {m : Model} (hm : c.model = some m) :
    (derive sources options).model = some m ∧ (derive sources options).stoppedAfter = none ∧
      ∃ (r : Registry (LocationState ⊕ σ)) (checked : Checked),
        (typeCheck m r).1 = .ok checked ∧ checked.findings.hasErrors = false := by
  simp only [Compilation.succeeded, Bool.and_eq_true, Option.isNone_iff_eq_none,
    Bool.not_eq_true'] at ok
  obtain ⟨finished, clean⟩ := ok
  unfold compileWith at compiled
  simp only [checks] at compiled
  split at compiled
  · rename_i m' derived finished' _
    split at compiled
    · cases compiled
    · rename_i r _
      split at compiled
      · cases compiled
      · rename_i checked r' result
        obtain rfl := Except.ok.inj compiled
        obtain rfl : m' = m := Option.some.inj (derived.symm.trans hm)
        rw [Diagnostics.hasErrors_append, Bool.or_eq_false_iff] at clean
        exact ⟨derived, finished', r, checked, congrArg Prod.fst result, clean.2⟩
  · obtain rfl := Except.ok.inj compiled
    rename_i none
    exact absurd rfl (none m hm finished)

theorem SymbolTable.composeClass_grounded {t : SymbolTable} {module : String} {c : ClassDecl}
    {r : Resolver} (clean : Diagnostics.hasErrors (t.composeClass module c r).findings = false) :
    ∀ m ∈ (t.composeClass module c r).set.methods, m.Grounded := by
  intro m hm
  simp only [composeClass, Resolved.andThen] at clean hm
  rw [Diagnostics.hasErrors_append, Bool.or_eq_false_iff] at clean
  refine Method.grounded_of_unboundOriginals c.name (List.any_eq_false.2 fun d hd => ?_)
  exact List.any_eq_false.1 clean.2 d (List.mem_flatMap.2 ⟨m, hm, hd⟩)

/-- A class composed without errors is grounded if nothing outside of its methods calls
`original(..)`. -/
theorem Model.composedClass_grounded {d : Model}
    (clean : d.composeClasses.findings.hasErrors = false) {e : Entry ClassDecl}
    (he : e ∈ d.classEntries)
    (inits : (SymbolTable.fieldInits (d.composedClass e)).callsOriginal = false)
    (init : ((d.composedClass e).init.getD []).callsOriginal = false) :
    (d.composedClass e).Grounded := by
  refine ⟨?_, fun f hf v hv => ?_, init⟩
  · refine SymbolTable.composeClass_grounded (List.any_eq_false.2 fun x hx => ?_)
    rw [composeClasses_eq] at clean
    refine List.any_eq_false.1 clean x (List.mem_append_right _ ?_)
    exact List.mem_flatMap.2 ⟨e, he, hx⟩
  · rw [Block.callsOriginal, Stmt.anyCallsOriginal_eq_any, List.any_eq_false] at inits
    refine Bool.not_eq_true _ ▸ inits (.assign (.field f.name) v f.loc) ?_
    exact List.mem_filterMap.2 ⟨f, hf, by rw [hv]; rfl⟩

/-- A model derived and checked without errors is grounded. -/
theorem compileWith_grounded {σ : Type} {sources : List SourceText} {options : CompileOptions}
    {registry : Registry σ} (checks : options.typeCheck = true) {c : Compilation}
    (compiled : (compileWith sources options registry).1 = .ok c) (ok : c.succeeded = true)
    {m : Model} (hm : c.model = some m) : m.Grounded := by
  obtain ⟨derived, finished, r, checked, result, clean⟩ :=
    checked_of_compileWith checks compiled ok hm
  obtain ⟨d, rfl, composed⟩ := derive_composed derived finished
  have traversed := walkModel_clean result clean
  intro e he
  have outside := SymbolTable.original_outside_of_methods traversed he
  have he : e ∈ d.composeClasses.model.classEntries := he
  rw [Model.classEntries_composeClasses] at he
  obtain ⟨e, he', rfl⟩ := List.mem_map.1 he
  exact Model.composedClass_grounded composed he' outside.1 outside.2

/-! ## Sessions -/

namespace Session

/-- Carries out operations one after the other; those that stop do not end the session. -/
def performAll : Session → List Operation → List (Except Stop Value) × Session
  | s, [] => ([], s)
  | s, op :: ops =>
    let (result, s') := s.perform op
    let (results, s'') := s'.performAll ops
    (result :: results, s'')

/-- All classes of the program and all objects created so far are grounded. -/
structure Grounded (s : Session) : Prop where
  symbols : s.symbols.Grounded
  store : s.store.Grounded

theorem start_grounded {m : Model} (h : m.Grounded) (budget depth : Nat) :
    (start m budget depth).Grounded := ⟨h, fun o ho => by simp [start] at ho⟩

theorem safe_request {t : SymbolTable} (classes : t.Grounded) (op : Operation) :
    Run.Safe (request t op) Activation.Grounded := by
  cases op with
  | instantiate cls args =>
    exact (classes.safe_classNamed none cls).bind fun c hc => Run.safe_pure hc
  | call receiver method args => exact Run.safe_dispatch receiver method args

theorem Grounded.perform {s : Session} (h : s.Grounded) (op : Operation) :
    (s.perform op).2.Grounded ∧
      ∀ e, (s.perform op).1 = .error e → e.isNoOriginal = false := by
  have safe := (safe_request h.symbols op).bind (safe_activate h.symbols s.budget s.depth)
  obtain ⟨store, stop⟩ := safe.run h.store
  exact ⟨⟨h.symbols, store⟩, stop⟩

theorem Grounded.performAll {s : Session} (h : s.Grounded) (ops : List Operation) :
    (s.performAll ops).2.Grounded ∧
      ∀ e, .error e ∈ (s.performAll ops).1 → e.isNoOriginal = false := by
  induction ops generalizing s with
  | nil => exact ⟨h, fun e he => by simp [Session.performAll] at he⟩
  | cons op ops ih =>
    obtain ⟨grounded, first⟩ := h.perform op
    obtain ⟨done, rest⟩ := ih grounded
    refine ⟨done, fun e he => ?_⟩
    rcases List.mem_cons.1 he with he | he
    · exact first e he.symm
    · exact rest e he

end Session

/-- No operation on the model of a successful compilation with type checking stops because there
is no original. -/
theorem compile_never_noOriginal {sources : List SourceText} {options : CompileOptions}
    (checks : options.typeCheck = true) {c : Compilation}
    (compiled : compile sources options = .ok c) (ok : c.succeeded = true) {m : Model}
    (hm : c.model = some m) (budget depth : Nat) (ops : List Operation)
    (method : Option String) :
    .error (.fault (.noOriginal method)) ∉ ((Session.start m budget depth).performAll ops).1 := by
  intro h
  have grounded := compileWith_grounded checks compiled ok hm
  cases ((Session.start_grounded grounded budget depth).performAll ops).2 _ h

/-- A program whose class has a method that modifies another one and calls it. -/
def modifyingProgram : SourceText :=
  ⟨none, "module M; trait T = { Int f() { return original(); } } " ++
    "class C { Int f() { return 1; } uses modifies T; }"⟩

theorem compile_never_noOriginal_modifyingProgram :
    ∃ c m, compile [modifyingProgram] ⟨none, true, false, none⟩ = .ok c ∧ c.succeeded = true ∧
      c.model = some m ∧ ∀ method, .error (.fault (.noOriginal method)) ∉
        ((Session.start m 10 10).performAll [.instantiate "C" [], .call 0 "f" []]).1 := by
  have ok : ((compile [modifyingProgram] ⟨none, true, false, none⟩).toOption.map fun c =>
      c.succeeded && c.model.isSome) = some true := by decide +kernel
  rcases compiled : compile [modifyingProgram] ⟨none, true, false, none⟩ with e | c
  · simp [compiled, Except.toOption] at ok
  · simp only [compiled, Except.toOption, Option.map_some, Option.some.injEq, Bool.and_eq_true,
      Option.isSome_iff_exists] at ok
    obtain ⟨succeeded, m, hm⟩ := ok
    exact ⟨c, m, rfl, succeeded, hm, compile_never_noOriginal rfl compiled succeeded hm 10 10 _⟩

end DeltaLang
