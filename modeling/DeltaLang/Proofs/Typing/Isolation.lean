import DeltaLang.Proofs.Typing.RecordOrder

/-!
# Extensions do not interfere

Type checking with some extensions of a registry only is, as far as these extensions and the
checker itself are concerned, type checking with all of them.  The two runs are compared event by
event: they keep agreeing on the findings without an origin, on the findings and annotations of
the selected extensions, and on the states of these extensions.  Alone and without any extension
are special cases.
-/

namespace DeltaLang

/-! ## Agreement of two results -/

/-- Two results have the same findings and annotations, up to those of extensions that are not
selected. -/
structure Checked.AgreeOn (keep : String → Bool) (c d : Checked) : Prop where
  findings : c.findings.filter (·.origin.all keep) = d.findings.filter (·.origin.all keep)
  records : c.annotations.records.filter (keep ·.extension) =
    d.annotations.records.filter (keep ·.extension)

namespace Checked.AgreeOn

variable {keep : String → Bool} {c d : Checked} {name : String}

theorem empty : Checked.empty.AgreeOn keep Checked.empty := ⟨rfl, rfl⟩

theorem get? (h : c.AgreeOn keep d) (selected : keep name = true) :
    c.annotations.get? name = d.annotations.get? name := by
  funext node
  have found (a : Annotations) : a.get? name node =
      ((a.records.filter (keep ·.extension)).find?
        fun r => r.extension == name && r.node == node).map (·.value) := by
    rw [List.find?_filter, Annotations.get?]
    congr 2
    funext r
    by_cases hr : r.extension = name <;> simp [hr, selected, beq_eq_decide]
  rw [found, found, h.records]

theorem finding (h : c.AgreeOn keep d) (f : Diagnostic) :
    AgreeOn keep { c with findings := c.findings ++ [f] }
      { d with findings := d.findings ++ [f] } :=
  ⟨by simp [List.filter_append, h.findings], h.records⟩

/-- Replacing an annotation of an extension that is not selected is not seen. -/
theorem filter_insert_of_ne (a : Annotations) (r : AnnotationRecord)
    (hr : keep r.extension = false) :
    (a.insert r).records.filter (keep ·.extension) = a.records.filter (keep ·.extension) := by
  rw [Annotations.insert, List.filter_cons_of_neg (by simp [hr]), List.filter_filter]
  refine List.filter_congr fun s _ => ?_
  by_cases hs : s.extension = r.extension <;> simp [hs, hr]

theorem filter_insert (a : Annotations) (r : AnnotationRecord) (hr : keep r.extension = true) :
    (a.insert r).records.filter (keep ·.extension) =
      r :: (a.records.filter (keep ·.extension)).filter
        (fun s => !(s.extension == r.extension && s.node == r.node)) := by
  rw [Annotations.insert,
    List.filter_cons_of_pos (p := fun s : AnnotationRecord => keep s.extension) hr,
    List.filter_filter, List.filter_filter]
  simp only [Bool.and_comm]

theorem perform (h : c.AgreeOn keep d) (selected : keep name = true) (e : Effect) :
    (c.perform name e).AgreeOn keep (d.perform name e) := by
  cases e with
  | report f => exact h.finding _
  | annotate node value =>
    refine ⟨h.findings, ?_⟩
    dsimp only [Checked.perform]
    rw [filter_insert _ _ selected, filter_insert _ _ selected, h.records]

theorem perform_left (h : c.AgreeOn keep d) (hidden : keep name = false) (e : Effect) :
    (c.perform name e).AgreeOn keep d := by
  cases e with
  | report f => exact ⟨by simp [Checked.perform, List.filter_append, hidden, h.findings], h.records⟩
  | annotate node value =>
    exact ⟨h.findings, (filter_insert_of_ne _ _ hidden).trans h.records⟩

theorem performAll (h : c.AgreeOn keep d) (selected : keep name = true) (es : List Effect) :
    (es.foldl (Checked.perform name) c).AgreeOn keep (es.foldl (Checked.perform name) d) := by
  induction es generalizing c d with
  | nil => exact h
  | cons e es ih => exact ih (h.perform selected e)

theorem performAll_left (h : c.AgreeOn keep d) (hidden : keep name = false) (es : List Effect) :
    (es.foldl (Checked.perform name) c).AgreeOn keep d := by
  induction es generalizing c with
  | nil => exact h
  | cons e es ih => exact ih (h.perform_left hidden e)

/-- What is said of all selected extensions holds of one of them. -/
theorem ofOrigin (h : c.AgreeOn keep d) {origin : Option String} (ho : origin.all keep = true) :
    c.findings.filter (·.origin = origin) = d.findings.filter (·.origin = origin) := by
  have narrow (ds : Diagnostics) : ds.filter (·.origin = origin) =
      (ds.filter (·.origin.all keep)).filter (·.origin = origin) := by
    rw [List.filter_filter]
    refine List.filter_congr fun f _ => ?_
    by_cases hf : f.origin = origin <;> simp [hf, ho]
  rw [narrow c.findings, narrow d.findings, h.findings]

theorem ofExtension (h : c.AgreeOn keep d) (selected : keep name = true) :
    c.annotations.ofExtension name = d.annotations.ofExtension name := by
  have narrow (a : Annotations) : a.records.filter (·.extension == name) =
      (a.records.filter (keep ·.extension)).filter (·.extension == name) := by
    rw [List.filter_filter]
    refine List.filter_congr fun r _ => ?_
    by_cases hr : r.extension = name <;> simp [hr, selected]
  rw [Annotations.ofExtension_eq, Annotations.ofExtension_eq, narrow c.annotations,
    narrow d.annotations, h.records]

end Checked.AgreeOn

/-! ## Two runs side by side -/

section

variable {σ : Type}

/-- The selected extensions of a registry. -/
def Registry.select (keep : String → Bool) (r : Registry σ) : Registry σ :=
  r.filter fun e => keep e.name

theorem Registry.select_cons_of_pos {keep : String → Bool} {e : Extension σ}
    (selected : keep e.name = true) (r : Registry σ) :
    select keep (e :: r) = e :: select keep r :=
  List.filter_cons_of_pos selected

theorem Registry.select_cons_of_neg {keep : String → Bool} {e : Extension σ}
    (hidden : keep e.name = false) (r : Registry σ) : select keep (e :: r) = select keep r :=
  List.filter_cons_of_neg (by simp [hidden])

/-- The second run is the first one, seen by the selected extensions and the checker. -/
structure Progress.Shows (keep : String → Bool) (p q : Progress σ) : Prop where
  registry : q.registry = p.registry.select keep
  checked : p.checked.AgreeOn keep q.checked

variable (m : Model) (t : SymbolTable) {keep : String → Bool}

theorem Extension.view_eq {c d : Checked} (e : Extension σ) (h : c.AgreeOn keep d)
    (selected : keep e.name = true) (cx : Option Context) :
    e.view m t c cx = e.view m t d cx := by
  rw [Extension.view, Extension.view, h.get? selected]

theorem observeAll_shows (cx : Option Context) (v : Visit) (r : Registry σ) {c d : Checked}
    (h : c.AgreeOn keep d) :
    (observeAll m t cx v r c).Shows keep (observeAll m t cx v (r.select keep) d) := by
  induction r generalizing c d with
  | nil => exact ⟨rfl, h⟩
  | cons e es ih =>
    rw [observeAll]
    generalize looked : e.observe (e.view m t c cx) v e.state = result
    obtain ⟨state, effects⟩ := result
    cases selected : keep e.name with
    | true =>
      obtain ⟨registry, checked⟩ := ih (h.performAll selected effects)
      rw [Registry.select_cons_of_pos selected, observeAll, ← e.view_eq m t h selected, looked]
      refine ⟨?_, checked⟩
      dsimp only
      rw [Registry.select_cons_of_pos (e := { e with state := state }) selected, registry]
    | false =>
      obtain ⟨registry, checked⟩ := ih (h.performAll_left selected effects)
      rw [Registry.select_cons_of_neg selected]
      refine ⟨?_, checked⟩
      dsimp only
      rw [Registry.select_cons_of_neg (e := { e with state := state }) selected, registry]

theorem follow_shows (e : Event) {p q : Progress σ} (h : p.Shows keep q) :
    (p.follow m t e).Shows keep (q.follow m t e) := by
  cases e with
  | finding f => exact ⟨h.registry, h.checked.finding f⟩
  | visit cx v =>
    rw [Progress.follow, Progress.follow, h.registry]
    exact observeAll_shows m t cx v p.registry h.checked

theorem followAll_shows (es : List Event) {p q : Progress σ} (h : p.Shows keep q) :
    (es.foldl (Progress.follow m t) p).Shows keep (es.foldl (Progress.follow m t) q) := by
  induction es generalizing p q with
  | nil => exact h
  | cons e es ih => exact ih (follow_shows m t e h)

theorem configureAll_shows (r : Registry σ) {c d : Checked} (h : c.AgreeOn keep d)
    (ok : (configureAll m t r c).2 = none) :
    (configureAll m t r c).1.Shows keep (configureAll m t (r.select keep) d).1 ∧
      (configureAll m t (r.select keep) d).2 = none := by
  induction r generalizing c d with
  | nil => exact ⟨⟨rfl, h⟩, rfl⟩
  | cons e es ih =>
    cases configured : e.configure (e.view m t c none) e.state with
    | error err => simp [configureAll, configured] at ok
    | ok result =>
      obtain ⟨state, effects⟩ := result
      simp only [configureAll, configured] at ok ⊢
      cases selected : keep e.name with
      | true =>
        obtain ⟨⟨registry, checked⟩, ok'⟩ := ih (h.performAll selected effects) ok
        rw [Registry.select_cons_of_pos selected, configureAll, ← e.view_eq m t h selected,
          configured]
        refine ⟨⟨?_, checked⟩, ok'⟩
        dsimp only
        rw [Registry.select_cons_of_pos (e := { e with state := state }) selected, registry]
      | false =>
        obtain ⟨⟨registry, checked⟩, ok'⟩ := ih (h.performAll_left selected effects) ok
        rw [Registry.select_cons_of_neg selected]
        refine ⟨⟨?_, checked⟩, ok'⟩
        dsimp only
        rw [Registry.select_cons_of_neg (e := { e with state := state }) selected, registry]

/-- Type checking with some of the extensions shows what type checking with all of them does, and
leaves them as they are when all look on. -/
theorem typeCheck_shows {m : Model} {r : Registry σ} {whole : Checked}
    (ok : (typeCheck m r).1 = .ok whole) (keep : String → Bool) :
    ∃ part, typeCheck m (r.select keep) = (.ok part, (typeCheck m r).2.select keep) ∧
      whole.AgreeOn keep part := by
  cases failure : (configureAll m (.ofModel m) r .empty).2 with
  | some err => simp [typeCheck, failure] at ok
  | none =>
    have empty : Checked.empty.AgreeOn keep .empty := .empty
    obtain ⟨shows, failure'⟩ := configureAll_shows m (.ofModel m) r empty failure
    have done := followAll_shows m (.ofModel m) ((SymbolTable.ofModel m).walkModel m) shows
    simp only [typeCheck, failure, Except.ok.injEq] at ok
    subst ok
    refine ⟨_, ?_, done.checked⟩
    simp only [typeCheck, failure, failure']
    rw [done.registry]

theorem typeCheck_select {m : Model} {r : Registry σ} {whole : Checked}
    (ok : (typeCheck m r).1 = .ok whole) (keep : String → Bool) :
    ∃ part, (typeCheck m (r.select keep)).1 = .ok part ∧ whole.AgreeOn keep part := by
  obtain ⟨part, checked, agree⟩ := typeCheck_shows ok keep
  exact ⟨part, congrArg Prod.fst checked, agree⟩

/-! ## Configuration -/

/-- What an extension sees when it is configured: the program and no annotation. -/
def View.initial (m : Model) : View := ⟨m, .ofModel m, none, fun _ => none⟩

theorem get?_performAll_of_ne {name other : String} (h : other ≠ name) (c : Checked)
    (es : List Effect) :
    (es.foldl (Checked.perform other) c).annotations.get? name = c.annotations.get? name := by
  have agree : c.AgreeOn (· == name) c := ⟨rfl, rfl⟩
  exact (agree.performAll_left (by simpa using h) es).get? (by simp)

/-- Extensions of distinct names find no annotations when they are configured. -/
theorem configureAll_isNone {r : Registry σ} (distinct : r.names.Nodup)
    (configures : ∀ e ∈ r, (e.configure (.initial m) e.state).isOk) {c : Checked}
    (blank : ∀ e ∈ r, c.annotations.get? e.name = fun _ => none) :
    (configureAll m (.ofModel m) r c).2 = none := by
  induction r generalizing c with
  | nil => rfl
  | cons e es ih =>
    have view : e.view m (.ofModel m) c none = .initial m := by
      rw [Extension.view, View.initial, blank e List.mem_cons_self]
    have ok := configures e List.mem_cons_self
    rw [Registry.names, List.map_cons, List.nodup_cons] at distinct
    cases configured : e.configure (.initial m) e.state with
    | error err => simp [configured, Except.isOk, Except.toBool] at ok
    | ok result =>
      obtain ⟨state, effects⟩ := result
      simp only [configureAll, view, configured]
      refine ih distinct.2 (fun e' he' => configures e' (List.mem_cons_of_mem _ he')) ?_
      intro e' he'
      have ne : e.name ≠ e'.name := fun eq => distinct.1 (eq ▸ List.mem_map_of_mem he')
      rw [get?_performAll_of_ne ne]
      exact blank e' (List.mem_cons_of_mem _ he')

/-- Type checking ends with a result if every extension accepts its configuration. -/
theorem exists_typeCheck {m : Model} {r : Registry σ} (distinct : r.names.Nodup)
    (configures : ∀ e ∈ r, (e.configure (.initial m) e.state).isOk) :
    ∃ c, (typeCheck m r).1 = .ok c := by
  have started := configureAll_isNone m distinct configures (c := .empty) fun _ _ => rfl
  exact ⟨_, by simp only [typeCheck, started]; rfl⟩

/-! ## Alone, and without extensions -/

theorem Registry.select_eq_singleton {r : Registry σ} (distinct : r.names.Nodup)
    {e : Extension σ} (he : e ∈ r) : r.select (· == e.name) = [e] := by
  induction r with
  | nil => simp at he
  | cons e' es ih =>
    rw [Registry.names, List.map_cons, List.nodup_cons] at distinct
    rcases List.mem_cons.1 he with rfl | he
    · rw [Registry.select_cons_of_pos (by simp), Registry.select, List.filter_eq_nil_iff.2]
      intro e' he' eq
      exact distinct.1 (beq_iff_eq.1 eq ▸ List.mem_map_of_mem he')
    · rw [Registry.select_cons_of_neg, ih distinct.2 he]
      simpa using fun eq : e'.name = e.name => distinct.1 (eq ▸ List.mem_map_of_mem he)

theorem Registry.select_eq_nil (r : Registry σ) : r.select (fun _ => false) = [] := by
  simp [Registry.select]

/-- Extensions do not interfere: with the whole registry each extension makes the annotations and
findings that it makes alone, and the checker itself makes the findings that it makes without
extensions. -/
theorem typeCheck_isolated (m : Model) (r : Registry σ) (distinct : r.names.Nodup)
    (configures : ∀ e ∈ r, (e.configure (.initial m) e.state).isOk) :
    ∃ whole bare, (typeCheck m r).1 = .ok whole ∧ (typeCheck m ([] : Registry σ)).1 = .ok bare ∧
      whole.findings.filter (·.origin = none) = bare.findings.filter (·.origin = none) ∧
      ∀ e ∈ r, ∃ alone, (typeCheck m [e]).1 = .ok alone ∧
        whole.annotations.ofExtension e.name = alone.annotations.ofExtension e.name ∧
        whole.findings.filter (·.origin = some e.name) =
          alone.findings.filter (·.origin = some e.name) ∧
        whole.findings.filter (·.origin = none) = alone.findings.filter (·.origin = none) := by
  obtain ⟨whole, ok⟩ := exists_typeCheck distinct configures
  obtain ⟨bare, bareOk, agree⟩ := typeCheck_select ok fun _ => false
  rw [Registry.select_eq_nil] at bareOk
  refine ⟨whole, bare, ok, bareOk, agree.ofOrigin rfl, fun e he => ?_⟩
  obtain ⟨alone, aloneOk, agree⟩ := typeCheck_select ok (· == e.name)
  rw [Registry.select_eq_singleton distinct he] at aloneOk
  exact ⟨alone, aloneOk, agree.ofExtension (by simp), agree.ofOrigin (by simp),
    agree.ofOrigin rfl⟩

end

/-- Counts expressions, annotates each with its number, and warns at the end if it saw any. -/
def Extension.counter (name : String) : Extension Nat where
  name := name
  state := 0
  configure _ n := .ok (n, [])
  observe view v n :=
    match view.context, v with
    | some cx, .expr e => (n + 1, [.annotate (e.node cx) (.int n)])
    | none, .finish => (n, if n = 0 then [] else [.warn "expressions seen" none])
    | _, _ => (n, [])

/-- A class with a method that adds a number and a truth value. -/
def sumModel : Model :=
  ⟨[⟨none, [⟨"M", [.class ⟨"C", [], [], none, none, [], [],
    [.ofVersion ⟨⟨"f", .named "Int", [], none⟩,
      [.ret (.binary .add (.int 1 none) (.bool true none) none) none]⟩], none⟩], none⟩]⟩]⟩

theorem typeCheck_isolated_counters :
    (Registry.names [Extension.counter "a", .counter "b"]).Nodup ∧
      ∃ whole bare, (typeCheck sumModel [Extension.counter "a", .counter "b"]).1 = .ok whole ∧
        (typeCheck sumModel ([] : Registry Nat)).1 = .ok bare ∧
        whole.findings.filter (·.origin = none) = bare.findings.filter (·.origin = none) ∧
        ∀ e ∈ [Extension.counter "a", .counter "b"], ∃ alone,
          (typeCheck sumModel [e]).1 = .ok alone ∧
          whole.annotations.ofExtension e.name = alone.annotations.ofExtension e.name ∧
          whole.findings.filter (·.origin = some e.name) =
            alone.findings.filter (·.origin = some e.name) ∧
          whole.findings.filter (·.origin = none) = alone.findings.filter (·.origin = none) :=
  ⟨by decide, typeCheck_isolated sumModel _ (by decide) (by
    intro e he
    rcases List.mem_pair.1 he with rfl | rfl <;> rfl)⟩

end DeltaLang
