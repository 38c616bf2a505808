import DeltaLang.Proofs.Location.Alike
import Mathlib.Data.List.Forall2

/-!
# Precision only names sites

The inference of location types is run with two precisions, and the runs are compared visit by
visit.  They stay in states that are alike, so they solve systems that are the same once sites are
forgotten, and what is annotated or expected at the end names no site on its own.  Both runs
therefore annotate the same nodes with the same types, and make the same findings, up to sites.
-/

namespace DeltaLang

/-! ## Results that are the same up to sites -/

/-- The effects are the same, or differ in the site of the location type they tell. -/
inductive Effect.UpToSites : Effect → Effect → Prop
  | warn (before after : String) (loc : Option Location) {t t' : LocationType}
      (same : t'.coarse = t.coarse) :
      UpToSites (.warn (before ++ t.text ++ after) loc) (.warn (before ++ t'.text ++ after) loc)
  | annotate (node : NodeRef) {t t' : LocationType} (same : t'.coarse = t.coarse) :
      UpToSites (.annotate node (.text t.text)) (.annotate node (.text t'.text))

/-- The findings are the same, or are warnings of the inference that differ in the site of the
location type they tell. -/
inductive Diagnostic.UpToSites : Diagnostic → Diagnostic → Prop
  | same (d : Diagnostic) : UpToSites d d
  | warning (before after : String) (loc : Option Location) {t t' : LocationType}
      (same : t'.coarse = t.coarse) :
      UpToSites
        ⟨.fromExtension, .warning, before ++ t.text ++ after, loc, some locationExtensionName⟩
        ⟨.fromExtension, .warning, before ++ t'.text ++ after, loc, some locationExtensionName⟩

/-- Both annotate a node with a location type, and the types differ in their sites only. -/
inductive AnnotationRecord.UpToSites : AnnotationRecord → AnnotationRecord → Prop
  | text (extension : String) (node : NodeRef) {t t' : LocationType}
      (same : t'.coarse = t.coarse) :
      UpToSites ⟨extension, node, .text t.text⟩ ⟨extension, node, .text t'.text⟩

/-- The same findings and annotations in the same order, up to sites. -/
structure Checked.UpToSites (c c' : Checked) : Prop where
  findings : List.Forall₂ Diagnostic.UpToSites c.findings c'.findings
  records : List.Forall₂ AnnotationRecord.UpToSites c.annotations.records c'.annotations.records

theorem forall₂_of_map_eq_map {α β : Type} {f : α → β} {l l' : List α}
    (h : l'.map f = l.map f) : List.Forall₂ (fun a a' => f a' = f a) l l' := by
  have same : List.Forall₂ (fun b b' => b' = b) (l.map f) (l'.map f) :=
    h ▸ List.forall₂_same.2 fun _ _ => rfl
  rwa [List.forall₂_map_left_iff, List.forall₂_map_right_iff] at same

namespace LocationState.Alike

variable {s s' : LocationState} (h : s.Alike s')

include h

/-! ## At the end -/

theorem coarse_system : s'.system.coarse = s.system.coarse := by
  rw [system, system, FlowSystem.coarse, FlowSystem.coarse, FlowSystem.mk.injEq]
  exact ⟨by rw [h.options], h.decls, h.flows⟩

theorem plain_system : s'.system.Plain where
  default := by
    have default : s'.system.options.default = s.options.default := h.default
    exact default ▸ h.plain.system.default
  fixed := by
    have decls : s'.system.decls = s.decls := h.decls
    exact decls ▸ h.plain.system.fixed

/-- Where both are solved, what is alike has the same location type, up to its site. -/
theorem coarse_eval {value value' : LocationTerm} (same : value'.coarse = value.coarse) :
    (s'.system.eval s'.system.solve value').coarse =
      (s.system.eval s.system.solve value).coarse := by
  rw [← FlowSystem.eval_coarse h.plain_system, ← FlowSystem.eval_coarse h.plain.system,
    ← FlowSystem.solve_coarse h.plain_system, ← FlowSystem.solve_coarse h.plain.system,
    h.coarse_system, same]

/-- What names no site admits a value in both states or in neither. -/
theorem isSubtypeOf_eval {value value' : LocationTerm} (same : value'.coarse = value.coarse)
    {t : LocationType} (coarse : t.IsCoarse) :
    (s'.system.eval s'.system.solve value').isSubtypeOf t =
      (s.system.eval s.system.solve value).isSubtypeOf t := by
  rw [← LocationType.isSubtypeOf_coarse _ coarse, h.coarse_eval same,
    LocationType.isSubtypeOf_coarse _ coarse]

theorem flowWarnings :
    List.Forall₂ Effect.UpToSites (s.flowWarnings s.system.solve)
      (s'.flowWarnings s'.system.solve) := by
  refine List.rel_filterMap (fun f f' same => ?_) (forall₂_of_map_eq_map h.flows)
  have target : f'.target = f.target := (congrArg Flow.target same :)
  have loc : f'.loc = f.loc := (congrArg Flow.loc same :)
  have value : f'.value.coarse = f.value.coarse := (congrArg Flow.value same :)
  have fixed : s'.system.fixed? f'.target = s.system.fixed? f.target := by
    simp only [FlowSystem.fixed?, system, h.decls, target]
  rw [fixed]
  cases known : s.system.fixed? f.target with
  | none => exact .none
  | some expected =>
    have admits := h.isSubtypeOf_eval value (h.plain.system.fixed? known)
    simp only [Option.bind_some, admits]
    split
    · exact .none
    · have warning := Effect.UpToSites.warn ""
        (" value stored into " ++ f.target.text ++ " declared " ++ expected.text) f.loc
        (h.coarse_eval value)
      simp only [String.empty_append, ← String.append_assoc] at warning
      rw [target, loc]
      exact .some warning

theorem demandWarnings :
    List.Forall₂ Effect.UpToSites (s.demandWarnings s.system.solve)
      (s'.demandWarnings s'.system.solve) := by
  have demands := (List.forall₂_and_left _ _).2
    ⟨h.plain.expected, forall₂_of_map_eq_map h.demands⟩
  refine List.rel_filterMap (fun d d' ⟨coarse, same⟩ => ?_) demands
  have expected : d'.expected = d.expected := (congrArg Demand.expected same :)
  have message : d'.message = d.message := (congrArg Demand.message same :)
  have loc : d'.loc = d.loc := (congrArg Demand.loc same :)
  have value : d'.value.coarse = d.value.coarse := (congrArg Demand.value same :)
  have guard : d'.guard.map LocationTerm.coarse = d.guard.map LocationTerm.coarse :=
    (congrArg Demand.guard same :)
  have applies : (d'.guard.all fun g => (s'.system.eval s'.system.solve g).isSubtypeOf .near) =
      d.guard.all fun g => (s.system.eval s.system.solve g).isSubtypeOf .near := by
    generalize d.guard = x, d'.guard = x' at guard
    obtain ⟨rfl, rfl⟩ | ⟨x, x', rfl, rfl, same⟩ := none_or_some_of_map_eq guard
    · rfl
    · exact h.isSubtypeOf_eval same rfl
  have admits := h.isSubtypeOf_eval value coarse
  simp only [applies, expected, admits]
  split
  · have warning := Effect.UpToSites.warn (d.message ++ ": found ")
      (", expected " ++ d.expected.text) d.loc (h.coarse_eval value)
    simp only [← String.append_assoc] at warning
    rw [message, loc]
    exact .some warning
  · exact .none

theorem conclude : List.Forall₂ Effect.UpToSites s.conclude s'.conclude := by
  have annotations : List.Forall₂ Effect.UpToSites
      (s.decls.map fun d =>
        .annotate d.1 (.text (s.system.eval s.system.solve (.var d.1)).text))
      (s'.decls.map fun d =>
        .annotate d.1 (.text (s'.system.eval s'.system.solve (.var d.1)).text)) := by
    rw [h.decls, List.forall₂_map_left_iff, List.forall₂_map_right_iff, List.forall₂_same]
    exact fun decl _ => .annotate decl.1 (h.coarse_eval rfl)
  have quiet : s'.options.statistics = false := by
    rw [h.options]
    exact h.plain.quiet
  simp only [LocationState.conclude, h.plain.quiet, quiet, Bool.false_eq_true, if_false,
    List.map_map]
  exact List.rel_append (List.rel_append (List.rel_append h.flowWarnings h.demandWarnings)
    annotations) .nil

/-- The states stay alike at every visit, and what is done is the same up to sites. -/
theorem observe {view view' : View} (context : view'.context = view.context)
    (symbols : view'.symbols = view.symbols) (v : Visit) :
    (LocationState.observe view v s).1.Alike (LocationState.observe view' v s').1 ∧
      List.Forall₂ Effect.UpToSites (LocationState.observe view v s).2
        (LocationState.observe view' v s').2 := by
  obtain ⟨model, t, cx, annotation?⟩ := view
  obtain ⟨model', t', cx', annotation?'⟩ := view'
  obtain rfl : cx' = cx := context
  obtain rfl : t' = t := symbols
  cases v with
  | afterBody block => exact ⟨h.withoutTerms, .nil⟩
  | finish => exact ⟨h, h.conclude⟩
  | afterClass => exact ⟨h, .nil⟩
  | beforeClass =>
    cases cx' with
    | none => exact ⟨h, .nil⟩
    | some cx => exact ⟨h.enterClass cx, .nil⟩
  | beforeBody block =>
    cases cx' with
    | none => exact ⟨h, .nil⟩
    | some cx => exact ⟨h.enterBody cx, .nil⟩
  | expr e =>
    cases cx' with
    | none => exact ⟨h, .nil⟩
    | some cx => exact ⟨h.visitExpr t' cx e, .nil⟩
  | stmt stmt value =>
    cases cx' with
    | none => exact ⟨h, .nil⟩
    | some cx => exact ⟨h.visitStmt cx stmt value, .nil⟩

end LocationState.Alike

/-! ## Two runs side by side -/

theorem Effect.UpToSites.perform {c c' : Checked} (h : c.UpToSites c') {e e' : Effect}
    (same : e.UpToSites e') :
    (c.perform locationExtensionName e).UpToSites (c'.perform locationExtensionName e') := by
  cases same with
  | warn before after loc same =>
    exact ⟨List.rel_append h.findings (.cons (.warning before after loc same) .nil), h.records⟩
  | annotate node same =>
    -- An annotation takes the place of the same earlier ones, since records agree on their nodes.
    refine ⟨h.findings, .cons (.text _ node same) (List.rel_filter ?_ h.records)⟩
    rintro _ _ ⟨extension, node', _⟩
    exact Iff.rfl

theorem Checked.UpToSites.performAll {c c' : Checked} (h : c.UpToSites c')
    {es es' : List Effect} (same : List.Forall₂ Effect.UpToSites es es') :
    (es.foldl (Checked.perform locationExtensionName) c).UpToSites
      (es'.foldl (Checked.perform locationExtensionName) c') := by
  induction same generalizing c c' with
  | nil => exact h
  | cons head _ ih => exact ih (head.perform h)

/-- The inference of location types, as it is at some point of a run. -/
def inferring (s : LocationState) : Extension LocationState :=
  { locationExtension s.options with state := s }

/-- Two runs in which only the inference looks on, and in alike states. -/
inductive Progress.Alike : Progress LocationState → Progress LocationState → Prop
  | inferring {s s' : LocationState} (alike : s.Alike s') {c c' : Checked}
      (checked : c.UpToSites c') : Alike ⟨[inferring s], c⟩ ⟨[inferring s'], c'⟩

namespace Progress.Alike

variable {m : Model} {t : SymbolTable} {p p' : Progress LocationState}

theorem checked (h : p.Alike p') : p.checked.UpToSites p'.checked := by
  obtain ⟨-, checked⟩ := h
  exact checked

theorem follow (h : p.Alike p') (event : Event) :
    (p.follow m t event).Alike (p'.follow m t event) := by
  obtain ⟨alike, checked⟩ := h
  cases event with
  | finding d =>
    exact ⟨alike, ⟨List.rel_append checked.findings (.cons (.same d) .nil), checked.records⟩⟩
  | visit cx v =>
    obtain ⟨state, effects⟩ := alike.observe rfl rfl v
    exact ⟨state, checked.performAll effects⟩

theorem followAll (h : p.Alike p') (events : List Event) :
    (events.foldl (Progress.follow m t) p).Alike (events.foldl (Progress.follow m t) p') :=
  List.foldl_rel h fun event _ _ _ h => h.follow event

end Progress.Alike

/-- A configuration with a default type that users may write is accepted without any effect. -/
theorem configureAll_locationExtension (m : Model) (t : SymbolTable) {options : LocationOptions}
    (user : options.default.isUserType = true) :
    configureAll m t [locationExtension options] .empty =
      (⟨[inferring (.initial options)], .empty⟩, none) := by
  have accepted : (LocationState.initial options).configure =
      .ok (.initial options, []) := by
    rw [LocationState.configure, LocationState.initial, if_pos user]
  simp only [configureAll, locationExtension, accepted, List.foldl_nil]
  rfl

theorem typeCheck_locationExtension (m : Model) {options : LocationOptions}
    (user : options.default.isUserType = true) :
    (typeCheck m [locationExtension options]).1 =
      .ok (((SymbolTable.ofModel m).walkModel m).foldl (Progress.follow m (.ofModel m))
        ⟨[inferring (.initial options)], .empty⟩).checked := by
  rw [typeCheck, configureAll_locationExtension m _ user]

/-- Under any two precisions the inference of location types annotates the same nodes with the
same types, and type checking makes the same findings at the same places in the same order, once
the sites that types name are forgotten. -/
theorem typeCheck_precision (m : Model) {default : LocationType}
    (user : default.isUserType = true) (p p' : Precision) :
    ∃ c c', (typeCheck m [locationExtension ⟨default, p, false⟩]).1 = .ok c ∧
      (typeCheck m [locationExtension ⟨default, p', false⟩]).1 = .ok c' ∧ c.UpToSites c' := by
  have start : Progress.Alike
      ⟨[inferring (.initial ⟨default, p, false⟩)], .empty⟩
      ⟨[inferring (.initial ⟨default, p', false⟩)], .empty⟩ :=
    ⟨LocationState.alike_initial user p p', ⟨.nil, .nil⟩⟩
  exact ⟨_, _, typeCheck_locationExtension m user, typeCheck_locationExtension m user,
    (start.followAll ((SymbolTable.ofModel m).walkModel m)).checked⟩

/-- A class whose method keeps a new object in a variable and calls it synchronously. -/
def farCallModel : Model :=
  let sig : Signature := { (default : Signature) with name := "m", ret := ⟨"Unit", [], []⟩ }
  let m : Method := .ofVersion {
    sig := sig
    body := [.decl ⟨"I", [], []⟩ "x" (some (.new "C" [] false none)) none,
      .eval (.call (.var "x" none) "m" [] false none) none] }
  ⟨[⟨none, [⟨"M", [.interface ⟨"I", [], [sig], none⟩,
    .class { (default : ClassDecl) with name := "C", implements := ["I"], methods := [m] }],
    none⟩]⟩]⟩

theorem typeCheck_precision_farCallModel :
    ∃ c c', (typeCheck farCallModel [locationExtension ⟨.somewhere, .basic, false⟩]).1 = .ok c ∧
      (typeCheck farCallModel [locationExtension ⟨.somewhere, .global, false⟩]).1 = .ok c' ∧
      c.UpToSites c' ∧ c.findings.length = 1 ∧
      c.annotations.records.map (·.value) = [.text "Far"] ∧
      c'.annotations.records.map (·.value) = [.text "Far(1)"] := by
  obtain ⟨c, c', basic, global, same⟩ :=
    typeCheck_precision farCallModel (show LocationType.somewhere.isUserType = true from rfl)
      .basic .global
  have shown : ((typeCheck farCallModel [locationExtension ⟨.somewhere, .basic, false⟩]).1.map
      fun c => (c.findings.length, c.annotations.records.map (·.value))) =
        .ok (1, [.text "Far"]) := by decide +kernel
  have shown' : ((typeCheck farCallModel [locationExtension ⟨.somewhere, .global, false⟩]).1.map
      fun c => c.annotations.records.map (·.value)) = .ok [.text "Far(1)"] := by decide +kernel
  rw [basic] at shown
  rw [global] at shown'
  obtain ⟨one, far⟩ := Prod.mk.inj (Except.ok.inj shown)
  exact ⟨c, c', basic, global, same, one, far, Except.ok.inj shown'⟩

end DeltaLang
