import DeltaLang.Proofs.Typing.Occurrences

/-!
# Logs of visits

An extension can keep a log of its visits besides its state.  Nothing else of type checking depends
on the logs, and at the end each of them is the list of all visits of the traversal.
-/

namespace DeltaLang

variable {σ : Type}

/-- The extension with a log of its visits besides its state. -/
def Extension.logged (log : List Event) (e : Extension σ) : Extension (σ × List Event) where
  name := e.name
  state := (e.state, log)
  configure view s := (e.configure view s.1).map fun (x, effects) => ((x, s.2), effects)
  observe view v s :=
    let (x, effects) := e.observe view v s.1
    ((x, s.2 ++ [.visit view.context v]), effects)

/-- The extensions, each with the log. -/
def Registry.logged (log : List Event) (r : Registry σ) : Registry (σ × List Event) :=
  r.map (Extension.logged log)

def Progress.logged (log : List Event) (p : Progress σ) : Progress (σ × List Event) :=
  ⟨p.registry.logged log, p.checked⟩

/-- The visits among some events. -/
def visitsOf (es : List Event) : List Event :=
  es.filter fun
    | .visit .. => true
    | .finding _ => false

theorem sightsOf_visitsOf (es : List Event) : sightsOf (visitsOf es) = sightsOf es := by
  rw [sightsOf, visitsOf, List.filterMap_filter]
  refine List.filterMap_congr fun e _ => ?_
  cases e <;> rfl

section

variable (m : Model) (t : SymbolTable)

theorem configureAll_logged (log : List Event) (r : Registry σ) (c : Checked) :
    configureAll m t (r.logged log) c =
      ((configureAll m t r c).1.logged log, (configureAll m t r c).2) := by
  induction r generalizing c with
  | nil => rfl
  | cons e es ih =>
    have view : (e.logged log).configure ((e.logged log).view m t c none) (e.logged log).state =
        (e.configure (e.view m t c none) e.state).map fun (x, effects) => ((x, log), effects) := rfl
    rw [Registry.logged, List.map_cons, configureAll, configureAll, view]
    cases e.configure (e.view m t c none) e.state with
    | error err => rfl
    | ok result =>
      obtain ⟨x, effects⟩ := result
      dsimp only [Except.map]
      rw [← Registry.logged, ih]
      rfl

theorem observeAll_logged (log : List Event) (cx : Option Context) (v : Visit) (r : Registry σ)
    (c : Checked) :
    observeAll m t cx v (r.logged log) c =
      (observeAll m t cx v r c).logged (log ++ [.visit cx v]) := by
  induction r generalizing c with
  | nil => rfl
  | cons e es ih =>
    have looked : (e.logged log).observe ((e.logged log).view m t c cx) v (e.logged log).state =
        (((e.observe (e.view m t c cx) v e.state).1, log ++ [.visit cx v]),
          (e.observe (e.view m t c cx) v e.state).2) := rfl
    rw [Registry.logged, List.map_cons, observeAll, observeAll, looked, ← Registry.logged]
    dsimp only
    rw [ih]
    rfl

theorem followAll_logged (log : List Event) (es : List Event) (p : Progress σ) :
    es.foldl (Progress.follow m t) (p.logged log) =
      (es.foldl (Progress.follow m t) p).logged (log ++ visitsOf es) := by
  induction es generalizing p log with
  | nil => rw [visitsOf, List.filter_nil, List.append_nil]; rfl
  | cons e es ih =>
    cases e with
    | finding d => exact ih log (p.follow m t (.finding d))
    | visit cx v =>
      have first : (p.logged log).follow m t (.visit cx v) =
          (p.follow m t (.visit cx v)).logged (log ++ [.visit cx v]) :=
        observeAll_logged m t log cx v p.registry p.checked
      rw [List.foldl_cons, List.foldl_cons, first, ih, List.append_assoc]
      rfl

theorem names_configureAll (r : Registry σ) (c : Checked) :
    (configureAll m t r c).1.registry.names = r.names := by
  induction r generalizing c with
  | nil => rfl
  | cons e es ih =>
    rw [configureAll]
    cases e.configure (e.view m t c none) e.state with
    | error err => rfl
    | ok result => exact congrArg (e.name :: ·) (ih _)

theorem names_observeAll (cx : Option Context) (v : Visit) (r : Registry σ) (c : Checked) :
    (observeAll m t cx v r c).registry.names = r.names := by
  induction r generalizing c with
  | nil => rfl
  | cons e es ih => exact congrArg (e.name :: ·) (ih _)

theorem names_followAll (es : List Event) (p : Progress σ) :
    (es.foldl (Progress.follow m t) p).registry.names = p.registry.names := by
  induction es generalizing p with
  | nil => rfl
  | cons e es ih =>
    refine (ih (p.follow m t e)).trans ?_
    cases e with
    | finding d => rfl
    | visit cx v => exact names_observeAll m t cx v p.registry p.checked

end

/-- All extensions are there after type checking. -/
theorem names_typeCheck (m : Model) (r : Registry σ) : (typeCheck m r).2.names = r.names := by
  simp only [typeCheck]
  split
  · exact names_configureAll m _ r _
  · exact (names_followAll m _ _ _).trans (names_configureAll m _ r _)

/-- Type checking with logs is type checking, and each extension logs what the traversal visits. -/
theorem typeCheck_logged {m : Model} {r : Registry σ} {c : Checked}
    (ok : (typeCheck m r).1 = .ok c) :
    typeCheck m (r.logged []) = (.ok c,
      (typeCheck m r).2.logged (visitsOf ((SymbolTable.ofModel m).walkModel m))) := by
  cases failure : (configureAll m (.ofModel m) r .empty).2 with
  | some err => simp [typeCheck, failure] at ok
  | none =>
    simp only [typeCheck, failure, Except.ok.injEq] at ok
    have done := followAll_logged m (.ofModel m) [] ((SymbolTable.ofModel m).walkModel m)
      (configureAll m (.ofModel m) r .empty).1
    simp only [typeCheck, configureAll_logged, failure]
    rw [done, ← ok]
    rfl

end DeltaLang
