import DeltaLang.Location.Infer
import DeltaLang.Proofs.Location.Sites

/-!
# What inference records, sites aside

Under any two precisions the inference of location types records the same declarations, flows,
demands and terms, if the sites that values name are forgotten.  This is kept by every visit.
-/

namespace DeltaLang

/-! ## States that are alike -/

theorem none_or_some_of_map_eq {α β : Type} {f : α → β} {x x' : Option α}
    (h : x'.map f = x.map f) :
    (x = none ∧ x' = none) ∨ ∃ a a', x = some a ∧ x' = some a' ∧ f a' = f a := by
  cases x with
  | none => exact .inl ⟨rfl, Option.map_eq_none_iff.1 h⟩
  | some a =>
    obtain ⟨a', eq, same⟩ := Option.map_eq_some_iff.1 h
    exact .inr ⟨a, a', rfl, eq, same⟩

/-- The demand with all sites forgotten in what it is about. -/
def Demand.coarse (d : Demand) : Demand :=
  { d with value := d.value.coarse, guard := d.guard.map LocationTerm.coarse }

namespace LocationState

/-- What is declared and expected names no site, and no statistics are wanted. -/
structure Plain (s : LocationState) : Prop where
  system : s.system.Plain
  expected : ∀ d ∈ s.demands, d.expected.IsCoarse
  returns : ∀ t ∈ s.returns, t.IsCoarse
  quiet : s.options.statistics = false

/-- The states are the same, up to the precision and the sites named in values. -/
structure Alike (s s' : LocationState) : Prop where
  plain : s.Plain
  options : s'.options = { s.options with precision := s'.options.precision }
  decls : s'.decls = s.decls
  flows : s'.flows.map Flow.coarse = s.flows.map Flow.coarse
  demands : s'.demands.map Demand.coarse = s.demands.map Demand.coarse
  terms : s'.terms.map (Prod.map id LocationTerm.coarse) =
    s.terms.map (Prod.map id LocationTerm.coarse)
  returns : s'.returns = s.returns

theorem isCoarse_of_fixedBy {u : TypeUse} {t : LocationType} (h : t ∈ fixedBy u) :
    t.IsCoarse := by
  obtain ⟨a, -, parsed⟩ := List.exists_of_findSome?_eq_some (Option.mem_def.1 h)
  cases written : LocationType.parse a with
  | error e => simp [written, Except.toOption] at parsed
  | ok t' =>
    obtain rfl : t' = t := by simpa [written, Except.toOption] using parsed
    exact LocationType.isCoarse_of_parse written

theorem alike_initial {default : LocationType} (user : default.isUserType = true)
    (p p' : Precision) :
    (initial ⟨default, p, false⟩).Alike (initial ⟨default, p', false⟩) where
  plain :=
    { system := ⟨LocationType.isCoarse_of_isUserType user, by simp [initial, system]⟩
      expected := by simp [initial]
      returns := by simp [initial]
      quiet := rfl }
  options := rfl
  decls := rfl
  flows := rfl
  demands := rfl
  terms := rfl
  returns := rfl

namespace Alike

variable {s s' : LocationState} (h : s.Alike s')

include h

/-! ## What is recorded -/

theorem declared (u : TypeUse) : s'.declared u = s.declared u := by
  rw [LocationState.declared, LocationState.declared, h.options]

theorem isCoarse_declared (u : TypeUse) : (s.declared u).IsCoarse := by
  rw [LocationState.declared]
  cases written : fixedBy u with
  | some t => exact isCoarse_of_fixedBy written
  | none => exact h.plain.system.default

theorem term? (cx : Context) (e : TypedExpr) :
    (s'.term? cx e).map LocationTerm.coarse = (s.term? cx e).map LocationTerm.coarse := by
  rw [LocationState.term?, LocationState.term?, ← lookup_map_snd, ← lookup_map_snd, h.terms]

theorem declare (node : NodeRef) {d : LocationDecl} (coarse : ∀ t ∈ d.fixed, t.IsCoarse) :
    (s.declare node d).Alike (s'.declare node d) :=
  { h with
    plain :=
      { h.plain with
        system := ⟨h.plain.system.default, fun decl mem => by
          rcases List.mem_append.1 mem with mem | mem
          · exact h.plain.system.fixed decl (List.mem_filter.1 mem).1
          · obtain rfl := List.mem_singleton.1 mem
            exact coarse⟩ }
    decls := by rw [LocationState.declare, LocationState.declare, h.decls] }

theorem flow {value value' : Option LocationTerm}
    (same : value'.map LocationTerm.coarse = value.map LocationTerm.coarse)
    (target : Option NodeRef) (loc : Option Location) :
    (s.flow value target loc).Alike (s'.flow value' target loc) := by
  cases target with
  | none => cases value <;> cases value' <;> exact h
  | some node =>
    obtain ⟨rfl, rfl⟩ | ⟨x, x', rfl, rfl, coarse⟩ := none_or_some_of_map_eq same
    · exact h
    · refine { h with
        plain := { h.plain with system := ⟨h.plain.system.default, h.plain.system.fixed⟩ }
        flows := ?_ }
      simp only [LocationState.flow, List.map_append, h.flows, List.map_cons, List.map_nil,
        Flow.coarse, coarse]

theorem demand {d d' : Demand} (same : d'.coarse = d.coarse) (coarse : d.expected.IsCoarse) :
    (s.demand d).Alike (s'.demand d') :=
  { h with
    plain :=
      { h.plain with
        expected := fun d' mem => by
          rcases List.mem_append.1 mem with mem | mem
          · exact h.plain.expected d' mem
          · exact List.mem_singleton.1 mem ▸ coarse }
    demands := by
      rw [LocationState.demand, LocationState.demand, List.map_append, List.map_append, h.demands,
        List.map_singleton, List.map_singleton, same] }

omit h in
/-- A new site is far, and only the number of sites changes. -/
theorem exists_newSite (s : LocationState) :
    ∃ sites, s.newSite.1 = { s with sites := sites } ∧
      s.newSite.2.coarse = .const .far := by
  rw [LocationState.newSite]
  split
  · exact ⟨s.sites, rfl, rfl⟩
  · exact ⟨s.sites + 1, rfl, rfl⟩

theorem newSite :
    s.newSite.1.Alike s'.newSite.1 ∧ s'.newSite.2.coarse = s.newSite.2.coarse := by
  obtain ⟨sites, state, far⟩ := exists_newSite s
  obtain ⟨sites', state', far'⟩ := exists_newSite s'
  rw [state, state', far, far']
  exact ⟨⟨⟨h.plain.system, h.plain.expected, h.plain.returns, h.plain.quiet⟩, h.options, h.decls,
    h.flows, h.demands, h.terms, h.returns⟩, rfl⟩

theorem default : s'.options.default = s.options.default := by rw [h.options]

theorem withTerm (node : NodeRef) {x x' : LocationTerm} (same : x'.coarse = x.coarse) :
    Alike { s with terms := (node, x) :: s.terms } { s' with terms := (node, x') :: s'.terms } where
  plain := ⟨h.plain.system, h.plain.expected, h.plain.returns, h.plain.quiet⟩
  options := h.options
  decls := h.decls
  flows := h.flows
  demands := h.demands
  terms := by
    rw [List.map_cons, List.map_cons, h.terms, Prod.map, Prod.map, same]
  returns := h.returns

theorem withoutTerms : Alike { s with terms := [] } { s' with terms := [] } where
  plain := ⟨h.plain.system, h.plain.expected, h.plain.returns, h.plain.quiet⟩
  options := h.options
  decls := h.decls
  flows := h.flows
  demands := h.demands
  terms := rfl
  returns := h.returns

theorem withReturns (returns : Option LocationType) (coarse : ∀ t ∈ returns, t.IsCoarse) :
    Alike { s with returns := returns } { s' with returns := returns } where
  plain := ⟨h.plain.system, h.plain.expected, coarse, h.plain.quiet⟩
  options := h.options
  decls := h.decls
  flows := h.flows
  demands := h.demands
  terms := h.terms
  returns := rfl

/-! ## Looking on -/

theorem enterClass (cx : Context) : (s.enterClass cx).Alike (s'.enterClass cx) := by
  refine List.foldl_rel h fun b _ s s' h => h.declare b.node fun t fixed => ?_
  obtain ⟨u, -, written⟩ := Option.bind_eq_some_iff.1 fixed
  exact isCoarse_of_fixedBy written

theorem enterBody (cx : Context) : (s.enterBody cx).Alike (s'.enterBody cx) := by
  rw [LocationState.enterBody, LocationState.enterBody]
  cases cx.version? with
  | none => exact h.withReturns none (by simp)
  | some v =>
    have start := h.withReturns (some (s.declared v.sig.ret)) fun t eq =>
      Option.some.inj eq ▸ h.isCoarse_declared _
    dsimp only
    rw [h.declared]
    refine List.foldl_rel start fun p _ s s' h => ?_
    cases (cx.lookup p.name).filter (·.type.isReference) with
    | none => exact h
    | some b =>
      dsimp only
      rw [h.declared]
      exact h.declare b.node fun t eq => Option.some.inj eq ▸ h.isCoarse_declared _

theorem demandCall (cx : Context) (method : String) (async : Bool) (loc : Option Location)
    (e receiver : TypedExpr) (args : List TypedExpr) :
    (s.demandCall cx method async loc e receiver args).Alike
      (s'.demandCall cx method async loc e receiver args) := by
  have target := h.term? cx receiver
  simp only [LocationState.demandCall]
  generalize s.term? cx receiver = guard, s'.term? cx receiver = guard' at target
  refine List.foldl_rel ?_ fun ⟨arg, p⟩ _ s s' h => ?_
  · obtain ⟨rfl, rfl⟩ | ⟨x, x', rfl, rfl, coarse⟩ := none_or_some_of_map_eq target
    · exact h
    · dsimp only
      split
      · exact h
      · exact h.demand (by simp [Demand.coarse, coarse]) rfl
  · have value := h.term? cx arg
    dsimp only
    generalize s.term? cx arg = x, s'.term? cx arg = x' at value
    obtain ⟨rfl, rfl⟩ | ⟨x, x', rfl, rfl, coarse⟩ := none_or_some_of_map_eq value
    · exact h
    · dsimp only
      rw [h.declared]
      exact h.demand (by simp [Demand.coarse, coarse, target]) (h.isCoarse_declared _)

theorem flowNew (t : SymbolTable) (cx : Context) (loc : Option Location) (e : TypedExpr) :
    (s.flowNew t cx loc e).Alike (s'.flowNew t cx loc e) := by
  rw [LocationState.flowNew, LocationState.flowNew]
  cases e.type with
  | «class» name =>
    dsimp only
    cases t.classes.resolve none name with
    | ok c =>
      exact List.foldl_rel h fun ⟨arg, p⟩ _ s s' h => h.flow (h.term? cx arg) _ loc
    | error err => exact h
  | _ => exact h

theorem termOf (cx : Context) (e : TypedExpr) :
    (s.termOf cx e).1.Alike (s'.termOf cx e).1 ∧
      (s'.termOf cx e).2.map LocationTerm.coarse =
        (s.termOf cx e).2.map LocationTerm.coarse := by
  rw [LocationState.termOf, LocationState.termOf]
  generalize e.expr = x, e.parts = parts
  cases x with
  | new cls args near loc =>
    cases near with
    | true => exact ⟨h, rfl⟩
    | false => exact h.newSite.imp_right (congrArg some)
  | call receiver method args async loc =>
    cases parts with
    | nil => exact ⟨h, rfl⟩
    | cons receiver args =>
      have target := h.term? cx receiver
      simp only [h.declared, h.default]
      generalize s.term? cx receiver = x, s'.term? cx receiver = x' at target
      obtain ⟨rfl, rfl⟩ | ⟨x, x', rfl, rfl, coarse⟩ := none_or_some_of_map_eq target
      · exact ⟨h, rfl⟩
      · refine ⟨h, ?_⟩
        simp only [Option.map_some, LocationTerm.coarse, coarse]
  | get future loc =>
    cases parts with
    | nil => exact ⟨h, rfl⟩
    | cons future rest => exact ⟨h, h.term? cx future⟩
  | original args loc =>
    dsimp only
    rw [h.returns, h.default]
    exact ⟨h, rfl⟩
  | _ => exact ⟨h, rfl⟩

/-- The term of an expression that yields a reference is noted in both states or in neither. -/
theorem noteTerm (cx : Context) (e : TypedExpr) :
    Alike
      (match s.termOf cx e with
        | (s, some term) => { s with terms := (e.node cx, term) :: s.terms }
        | (s, none) => s)
      (match s'.termOf cx e with
        | (s, some term) => { s with terms := (e.node cx, term) :: s.terms }
        | (s, none) => s) := by
  have noted := h.termOf cx e
  generalize s.termOf cx e = r, s'.termOf cx e = r' at noted
  obtain ⟨u, x⟩ := r
  obtain ⟨u', x'⟩ := r'
  obtain ⟨alike, term⟩ := noted
  dsimp only at alike term
  obtain ⟨rfl, rfl⟩ | ⟨x, x', rfl, rfl, coarse⟩ := none_or_some_of_map_eq term
  · exact alike
  · exact alike.withTerm (e.node cx) coarse

/-- What is recorded about a call or a creation, apart from its term. -/
theorem recordStored (t : SymbolTable) (cx : Context) (e : TypedExpr) :
    Alike
      (match e.expr, e.parts with
        | .call _ method _ async loc, receiver :: args =>
          s.demandCall cx method async loc e receiver args
        | .new _ _ _ loc, _ => s.flowNew t cx loc e
        | _, _ => s)
      (match e.expr, e.parts with
        | .call _ method _ async loc, receiver :: args =>
          s'.demandCall cx method async loc e receiver args
        | .new _ _ _ loc, _ => s'.flowNew t cx loc e
        | _, _ => s') := by
  generalize e.expr = x, e.parts = parts
  cases x with
  | call receiver method args async loc =>
    cases parts with
    | nil => exact h
    | cons receiver args => exact h.demandCall cx method async loc e receiver args
  | new cls args near loc => exact h.flowNew t cx loc e
  | _ => exact h

theorem visitExpr (t : SymbolTable) (cx : Context) (e : TypedExpr) :
    (s.visitExpr t cx e).Alike (s'.visitExpr t cx e) := by
  have recorded := h.recordStored t cx e
  simp only [LocationState.visitExpr]
  split
  · exact recorded.noteTerm cx e
  · exact recorded

theorem visitStmt (cx : Context) (stmt : Stmt) (value : Option TypedExpr) :
    (s.visitStmt cx stmt value).Alike (s'.visitStmt cx stmt value) := by
  have term : (value.bind (s'.term? cx)).map LocationTerm.coarse =
      (value.bind (s.term? cx)).map LocationTerm.coarse := by
    cases value with
    | none => rfl
    | some e => exact h.term? cx e
  cases stmt with
  | decl type name init loc =>
    simp only [LocationState.visitStmt]
    cases (cx.lookup name).filter (·.type.isReference) with
    | none => exact h
    | some b => exact (h.declare b.node fun t fixed => isCoarse_of_fixedBy fixed).flow term _ loc
  | assign target init loc => exact h.flow term _ loc
  | ret init loc =>
    simp only [LocationState.visitStmt]
    rw [h.returns]
    generalize value.bind (s.term? cx) = x, value.bind (s'.term? cx) = x' at term
    obtain ⟨rfl, rfl⟩ | ⟨x, x', rfl, rfl, coarse⟩ := none_or_some_of_map_eq term
    · exact h
    · cases returns : s.returns with
      | none => exact h
      | some expected =>
        exact h.demand (by simp [Demand.coarse, coarse]) (h.plain.returns expected returns)
  | _ => exact h

end Alike

end LocationState

end DeltaLang
