import DeltaLang.Typing.Extension

/-!
# Extensions with a wider state

The states of extensions can be put into a wider type, so that extensions with states of several
types fit into one registry.  Where every state put there is found again, type checking does not
tell the difference.
-/

namespace DeltaLang

variable {σ τ : Type} (into : σ → τ) (out? : τ → Option σ)

/-- The extensions, each with its state in the wider type. -/
def Registry.embed (r : Registry σ) : Registry τ := r.map fun e => e.embed into out?

def Progress.embed (p : Progress σ) : Progress τ := ⟨p.registry.embed into out?, p.checked⟩

variable {into out?} (found : ∀ x, out? (into x) = some x) (m : Model) (t : SymbolTable)

include found

theorem Extension.configure_embed (e : Extension σ) (view : View) :
    (e.embed into out?).configure view (e.embed into out?).state =
      (e.configure view e.state).map fun (x, effects) => (into x, effects) := by
  simp only [Extension.embed, found]

theorem Extension.observe_embed (e : Extension σ) (view : View) (v : Visit) :
    (e.embed into out?).observe view v (e.embed into out?).state =
      (into (e.observe view v e.state).1, (e.observe view v e.state).2) := by
  simp only [Extension.embed, found]

theorem configureAll_embed (r : Registry σ) (c : Checked) :
    configureAll m t (r.embed into out?) c =
      ((configureAll m t r c).1.embed into out?, (configureAll m t r c).2) := by
  induction r generalizing c with
  | nil => rfl
  | cons e es ih =>
    have configured := e.configure_embed found (e.view m t c none)
    have view : (e.embed into out?).view m t c none = e.view m t c none := rfl
    rw [Registry.embed, List.map_cons, configureAll, configureAll, view, configured]
    cases e.configure (e.view m t c none) e.state with
    | error err => rfl
    | ok result =>
      obtain ⟨x, effects⟩ := result
      have name : (e.embed into out?).name = e.name := rfl
      dsimp only [Except.map]
      rw [← Registry.embed, name, ih]
      rfl

theorem observeAll_embed (cx : Option Context) (v : Visit) (r : Registry σ) (c : Checked) :
    observeAll m t cx v (r.embed into out?) c = (observeAll m t cx v r c).embed into out? := by
  induction r generalizing c with
  | nil => rfl
  | cons e es ih =>
    have looked := e.observe_embed found (e.view m t c cx) v
    have view : (e.embed into out?).view m t c cx = e.view m t c cx := rfl
    have name : (e.embed into out?).name = e.name := rfl
    rw [Registry.embed, List.map_cons, observeAll, observeAll, view, looked, ← Registry.embed]
    dsimp only
    rw [name, ih]
    rfl

theorem followAll_embed (es : List Event) (p : Progress σ) :
    es.foldl (Progress.follow m t) (p.embed into out?) =
      (es.foldl (Progress.follow m t) p).embed into out? := by
  induction es generalizing p with
  | nil => rfl
  | cons e es ih =>
    have first : (p.embed into out?).follow m t e = (p.follow m t e).embed into out? := by
      cases e with
      | finding d => rfl
      | visit cx v => exact observeAll_embed found m t cx v p.registry p.checked
    rw [List.foldl_cons, List.foldl_cons, first, ih]

/-- Type checking does not tell that states are put into a wider type. -/
theorem typeCheck_embed (r : Registry σ) :
    typeCheck m (r.embed into out?) =
      ((typeCheck m r).1, (typeCheck m r).2.embed into out?) := by
  rw [typeCheck, typeCheck, configureAll_embed found]
  generalize configureAll m (.ofModel m) r .empty = started
  obtain ⟨start, _ | ⟨name, reason⟩⟩ := started
  · dsimp only
    rw [followAll_embed found]
    rfl
  · rfl

end DeltaLang
