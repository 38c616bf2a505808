import DeltaLang.Proofs.Location.Precision
import DeltaLang.Proofs.Location.References
import DeltaLang.Proofs.Typing.Conservative
import DeltaLang.Proofs.Typing.Isolation
import DeltaLang.Proofs.Typing.Widened

/-!
# What is annotated with location types

The inference of location types records along the traversal and does nothing else, until it
concludes at the end.  It records just the declarations that come into scope and hold references,
and annotates what it recorded.  So it annotates the declarations of the model that hold references,
and no other node.
-/

namespace DeltaLang

/-! ## The end of the traversal -/

/-- Whether the event is the visit at the end. -/
def Event.isFinish : Event → Bool
  | .visit _ .finish => true
  | _ => false

theorem any_isFinish_findings (ds : Diagnostics) :
    (ds.map Event.finding).any Event.isFinish = false := by
  rw [List.any_map]
  exact List.any_eq_false.2 fun _ _ => Bool.false_ne_true

mutual

theorem any_isFinish_events (cx : Context) :
    (e : TypedExpr) → (e.events cx).any Event.isFinish = false
  | .mk _ _ _ _ ds parts => by
    rw [TypedExpr.events, List.any_append, List.any_append, any_isFinish_findings,
      any_isFinish_eventsOfAll cx parts]
    rfl

theorem any_isFinish_eventsOfAll (cx : Context) :
    (es : List TypedExpr) → (TypedExpr.eventsOfAll cx es).any Event.isFinish = false
  | [] => rfl
  | e :: es => by
    rw [TypedExpr.eventsOfAll, List.any_append, any_isFinish_events cx e,
      any_isFinish_eventsOfAll cx es]
    rfl

end

namespace SymbolTable

variable {t : SymbolTable}

theorem any_isFinish_evaluated (cx : Context) (st : BodyState) (e : TypedExpr) (ds : Diagnostics) :
    (evaluated cx st e ds).any Event.isFinish = false := by
  rw [evaluated, List.any_append, any_isFinish_events, any_isFinish_findings]
  rfl

theorem any_isFinish_visited (cx : Context) (st : BodyState) (s : Stmt)
    (value : Option TypedExpr) : [visited cx st s value].any Event.isFinish = false := rfl

mutual

/-- The traversal does not end in a statement. -/
theorem any_isFinish_walkStmt (t : SymbolTable) (cx : Context) (ret : Ty) (st : BodyState) :
    (s : Stmt) → (t.walkStmt cx ret st s).2.any Event.isFinish = false
  | .skip _ => rfl
  | .ret .. | .eval .. | .assign .. | .decl _ _ none _ | .decl _ _ (some _) _ => by
    simp only [walkStmt, List.any_append, any_isFinish_findings, any_isFinish_evaluated,
      any_isFinish_visited, Bool.or_false]
  | .ite _ yes none _ => by
    simp only [walkStmt, List.any_append, any_isFinish_evaluated, any_isFinish_visited,
      any_isFinish_walkStmts t cx ret _ yes, Bool.or_false]
  | .ite _ yes (some no) _ => by
    simp only [walkStmt, List.any_append, any_isFinish_evaluated, any_isFinish_visited,
      any_isFinish_walkStmts t cx ret _ yes, any_isFinish_walkStmts t cx ret _ no, Bool.or_false]
  | .loop _ body _ => by
    simp only [walkStmt, List.any_append, any_isFinish_evaluated, any_isFinish_visited,
      any_isFinish_walkStmts t cx ret _ body, Bool.or_false]

theorem any_isFinish_walkStmts (t : SymbolTable) (cx : Context) (ret : Ty) (st : BodyState) :
    (ss : List Stmt) → (t.walkStmts cx ret st ss).2.any Event.isFinish = false
  | [] => rfl
  | s :: ss => by
    rw [walkStmts, List.any_append, any_isFinish_walkStmt t cx ret st s,
      any_isFinish_walkStmts t cx ret _ ss]
    rfl

end

theorem any_isFinish_walkBody (cx : Context) (name : String) (version : Option Version) (ret : Ty)
    (params : List Binding) (prelude block : Block) :
    (t.walkBody cx name version ret params prelude block).any Event.isFinish = false := by
  simp only [walkBody, List.any_append, List.any_cons, List.any_nil, any_isFinish_walkStmts,
    Event.isFinish, Bool.or_false]

theorem any_isFinish_walkClass (c : Entry ClassDecl) :
    (t.walkClass c).any Event.isFinish = false := by
  simp only [walkClass, walkVersion, List.any_append, List.any_cons, List.any_nil, List.any_flatMap,
    any_isFinish_findings, any_isFinish_walkBody, Event.isFinish, Bool.or_false]
  simp

/-- The traversal of a model, up to its end. -/
def walkClasses (t : SymbolTable) (m : Model) : List Event := m.units.zipIdx.flatMap t.walkUnit

theorem any_isFinish_walkClasses (m : Model) : (t.walkClasses m).any Event.isFinish = false := by
  simp only [walkClasses, walkUnit, List.any_flatMap, List.any_append, any_isFinish_walkClass,
    walkInterface, any_isFinish_findings]
  simp

end SymbolTable

/-! ## Annotations of nodes -/

namespace Annotations

variable {a : Annotations} {name : String} {node : NodeRef}

theorem isSome_get?_iff :
    (a.get? name node).isSome = true ↔ ∃ r ∈ a.records, r.extension = name ∧ r.node = node := by
  rw [get?, Option.isSome_map, List.find?_isSome]
  simp only [Bool.and_eq_true, beq_iff_eq]

theorem isSome_get?_insert {n : NodeRef} {value : AnnotationValue} :
    ((a.insert ⟨name, n, value⟩).get? name node).isSome = true ↔
      node = n ∨ (a.get? name node).isSome = true := by
  simp only [isSome_get?_iff, insert, List.mem_cons, List.mem_filter]
  constructor
  · rintro ⟨r, rfl | ⟨mem, -⟩, named, rfl⟩
    · exact .inl rfl
    · exact .inr ⟨r, mem, named, rfl⟩
  · rintro (rfl | ⟨r, mem, rfl, rfl⟩)
    · exact ⟨_, .inl rfl, rfl, rfl⟩
    · by_cases same : r.node = n
      · exact ⟨_, .inl rfl, rfl, same.symm⟩
      · exact ⟨r, .inr ⟨mem, by simp [same]⟩, rfl, rfl⟩

end Annotations

/-- The node that an effect annotates, if it annotates one. -/
def Effect.annotated? : Effect → Option NodeRef
  | .report _ => none
  | .annotate node _ => some node

/-- Nodes are annotated that were before, or that an effect annotates. -/
theorem Checked.isSome_get?_performAll {name : String} {c : Checked} {es : List Effect}
    {node : NodeRef} :
    ((es.foldl (Checked.perform name) c).annotations.get? name node).isSome = true ↔
      (c.annotations.get? name node).isSome = true ∨ node ∈ es.filterMap Effect.annotated? := by
  induction es generalizing c with
  | nil => simp
  | cons e es ih =>
    rw [List.foldl_cons, ih]
    cases e with
    | report d => exact Iff.rfl
    | annotate n value =>
      change ((c.annotations.insert ⟨name, n, value⟩).get? name node).isSome = true ∨ _ ↔ _
      rw [Annotations.isSome_get?_insert, List.filterMap_cons]
      simp only [Effect.annotated?, List.mem_cons]
      tauto

namespace LocationState

/-! ## Declarations that are recorded -/

/-- The nodes whose declarations are recorded. -/
def nodes (s : LocationState) : List NodeRef := s.decls.map Prod.fst

/-- The second state has the options of the first and, besides the declarations recorded in the
first, those of some nodes. -/
structure Adds (s : LocationState) (ns : List NodeRef) (s' : LocationState) : Prop where
  options : s'.options = s.options
  mem_nodes : ∀ node, node ∈ s'.nodes ↔ node ∈ s.nodes ∨ node ∈ ns

namespace Adds

variable {s s' s'' : LocationState} {ns ns' : List NodeRef}

theorem of_decls_eq (options : s'.options = s.options) (decls : s'.decls = s.decls) :
    s.Adds [] s' := ⟨options, fun node => by simp [nodes, decls]⟩

theorem refl (s : LocationState) : s.Adds [] s := of_decls_eq rfl rfl

theorem trans (h : s.Adds ns s') (h' : s'.Adds ns' s'') : s.Adds (ns ++ ns') s'' where
  options := h'.options.trans h.options
  mem_nodes node := by rw [h'.mem_nodes, h.mem_nodes, List.mem_append, or_assoc]

/-- What every step records, all steps together do. -/
theorem foldl {α : Type} {f : LocationState → α → LocationState} {g : α → List NodeRef}
    (step : ∀ s a, Adds s (g a) (f s a)) (l : List α) (s : LocationState) :
    s.Adds (l.flatMap g) (l.foldl f s) := by
  induction l generalizing s with
  | nil => exact refl s
  | cons a l ih => exact (step s a).trans (ih _)

/-- Steps that record no declarations record none together. -/
theorem foldl_nil {α : Type} {f : LocationState → α → LocationState}
    (step : ∀ s a, Adds s [] (f s a)) (l : List α) (s : LocationState) :
    s.Adds [] (l.foldl f s) := by
  have all := foldl step l s
  rwa [List.flatMap_eq_nil_iff.2 fun _ _ => rfl] at all

end Adds

variable (s : LocationState)

theorem adds_declare (node : NodeRef) (d : LocationDecl) : s.Adds [node] (s.declare node d) where
  options := rfl
  mem_nodes n := by
    simp only [nodes, declare, List.map_append, List.map_cons, List.map_nil, List.mem_append,
      List.mem_singleton, List.mem_map, List.mem_filter, decide_eq_true_eq]
    constructor
    · rintro (⟨p, ⟨mem, -⟩, rfl⟩ | rfl)
      · exact .inl ⟨p, mem, rfl⟩
      · exact .inr rfl
    · rintro (⟨p, mem, rfl⟩ | rfl)
      · by_cases same : p.1 = node
        · exact .inr same
        · exact .inl ⟨p, ⟨mem, same⟩, rfl⟩
      · exact .inr rfl

theorem adds_flow (value : Option LocationTerm) (target : Option NodeRef)
    (loc : Option Location) : s.Adds [] (s.flow value target loc) := by
  unfold flow
  split <;> exact .of_decls_eq rfl rfl

theorem adds_demand (d : Demand) : s.Adds [] (s.demand d) := .of_decls_eq rfl rfl

theorem adds_newSite : s.Adds [] s.newSite.1 := by
  unfold newSite
  split <;> exact .of_decls_eq rfl rfl

theorem map_node_filter (b : Option Binding) :
    (b.filter (·.type.isReference)).map (·.node) = b.bind Binding.reference? := by
  cases b with
  | none => rfl
  | some b =>
    rw [Option.bind_some, Binding.reference?, Option.filter_some]
    split <;> rfl

/-- On entering a class its parameters and fields that hold references are recorded. -/
theorem adds_enterClass (cx : Context) :
    s.Adds (Visit.beforeClass.declared cx) (s.enterClass cx) := by
  have nodes (bs : List Binding) : bs.filterMap Binding.reference? =
      (bs.filter (·.type.isReference)).flatMap fun b => [b.node] := by
    induction bs with
    | nil => rfl
    | cons b bs ih =>
      by_cases refers : b.type.isReference = true
      · simp only [List.filterMap_cons, List.filter_cons, Binding.reference?, refers, if_true,
          List.flatMap_cons, ih, List.singleton_append]
      · simp only [List.filterMap_cons, List.filter_cons, Binding.reference?, refers,
          Bool.false_eq_true, if_false, ih]
  rw [Visit.declared, nodes]
  exact Adds.foldl (fun s b => s.adds_declare b.node _) _ s

/-- On entering a body its parameters that hold references are recorded. -/
theorem adds_enterBody (cx : Context) (block : Block) :
    s.Adds ((Visit.beforeBody block).declared cx) (s.enterBody cx) := by
  rw [Visit.declared, enterBody]
  cases cx.version? with
  | none => exact .of_decls_eq rfl rfl
  | some v =>
    rw [Option.toList_some, List.flatMap_singleton, List.filterMap_eq_flatMap_toList]
    have start : s.Adds [] { s with returns := some (s.declared v.sig.ret) } :=
      .of_decls_eq rfl rfl
    refine start.trans (Adds.foldl (fun s p => ?_) v.sig.params _)
    rw [← map_node_filter]
    cases (cx.lookup p.name).filter (·.type.isReference) with
    | none => exact .refl s
    | some b => exact s.adds_declare b.node _

theorem adds_demandCall (cx : Context) (method : String) (async : Bool) (loc : Option Location)
    (e receiver : TypedExpr) (args : List TypedExpr) :
    s.Adds [] (s.demandCall cx method async loc e receiver args) := by
  unfold demandCall
  refine Adds.trans (?_ : s.Adds [] _) (Adds.foldl_nil (fun s ⟨arg, p⟩ => ?_) _ _)
  · split
    · split
      · exact .refl s
      · exact s.adds_demand _
    · exact .refl s
  · dsimp only
    split
    · exact s.adds_demand _
    · exact .refl s

theorem adds_flowNew (t : SymbolTable) (cx : Context) (loc : Option Location) (e : TypedExpr) :
    s.Adds [] (s.flowNew t cx loc e) := by
  unfold flowNew
  split
  · split
    · exact Adds.foldl_nil (fun s ⟨arg, p⟩ => s.adds_flow _ _ _) _ s
    · exact .refl s
  · exact .refl s

theorem adds_termOf (cx : Context) (e : TypedExpr) : s.Adds [] (s.termOf cx e).1 := by
  unfold termOf
  split
  case h_6 => exact s.adds_newSite
  case h_7 =>
    dsimp only
    split <;> exact .refl s
  all_goals exact .refl s

theorem adds_noteTerm (cx : Context) (e : TypedExpr) :
    s.Adds [] (match s.termOf cx e with
      | (s, some term) => { s with terms := (e.node cx, term) :: s.terms }
      | (s, none) => s) := by
  have term := s.adds_termOf cx e
  generalize s.termOf cx e = r at term
  obtain ⟨u, _ | x⟩ := r
  · exact term
  · exact term.trans (.of_decls_eq rfl rfl)

theorem adds_recordStored (t : SymbolTable) (cx : Context) (e : TypedExpr) :
    s.Adds [] (match e.expr, e.parts with
      | .call _ method _ async loc, receiver :: args =>
        s.demandCall cx method async loc e receiver args
      | .new _ _ _ loc, _ => s.flowNew t cx loc e
      | _, _ => s) := by
  split
  · exact s.adds_demandCall _ _ _ _ _ _ _
  · exact s.adds_flowNew _ _ _ _
  · exact .refl s

/-- Expressions declare nothing. -/
theorem adds_visitExpr (t : SymbolTable) (cx : Context) (e : TypedExpr) :
    s.Adds [] (s.visitExpr t cx e) := by
  have stored := s.adds_recordStored t cx e
  simp only [visitExpr]
  split
  · exact stored.trans (adds_noteTerm _ cx e)
  · exact stored

/-- At the declaration of a local variable that holds references it is recorded. -/
theorem adds_visitStmt (cx : Context) (stmt : Stmt) (value : Option TypedExpr) :
    s.Adds ((Visit.stmt stmt value).declared cx) (s.visitStmt cx stmt value) := by
  cases stmt with
  | decl type name init loc =>
    rw [Visit.declared, visitStmt, ← map_node_filter]
    cases (cx.lookup name).filter (·.type.isReference) with
    | none => exact .refl s
    | some b => exact (s.adds_declare b.node _).trans (adds_flow _ _ _ _)
  | assign target value' loc => exact s.adds_flow _ _ _
  | ret value' loc =>
    simp only [visitStmt]
    split
    · exact s.adds_demand _
    · exact .refl s
  | _ => exact .refl s

/-! ## Recording along the traversal -/

/-- What is recorded after an event of the traversal of a model. -/
def follow (m : Model) (s : LocationState) : Event → LocationState
  | .finding _ => s
  | .visit cx v => (observe ⟨m, .ofModel m, cx, fun _ => none⟩ v s).1

/-- What is recorded after the traversal of a model. -/
def after (s : LocationState) (m : Model) : LocationState :=
  ((SymbolTable.ofModel m).walkModel m).foldl (follow m) s

/-- An event adds the declarations that come into scope. -/
theorem adds_follow (m : Model) (e : Event) : s.Adds e.declared (s.follow m e) := by
  cases e with
  | finding d => exact .refl s
  | visit cx v =>
    cases cx with
    | none => cases v <;> exact .of_decls_eq rfl rfl
    | some cx =>
      cases v with
      | beforeClass => exact s.adds_enterClass cx
      | beforeBody block => exact s.adds_enterBody cx block
      | stmt stmt value => exact s.adds_visitStmt cx stmt value
      | expr e => exact s.adds_visitExpr _ cx e
      | afterClass | afterBody _ | finish => exact .of_decls_eq rfl rfl

/-- The traversal of a model adds the declarations of the model that hold references. -/
theorem adds_after (m : Model) : s.Adds m.references (s.after m) := by
  rw [← declaredIn_walkModel]
  exact Adds.foldl (fun s e => s.adds_follow m e) _ s

theorem annotated?_of_mem_flowWarnings (values : Valuation) {e : Effect}
    (mem : e ∈ s.flowWarnings values) : e.annotated? = none := by
  obtain ⟨f, -, warning⟩ := List.mem_filterMap.1 mem
  obtain ⟨expected, -, warning⟩ := Option.bind_eq_some_iff.1 warning
  dsimp only at warning
  split at warning
  · cases warning
  · cases warning
    rfl

theorem annotated?_of_mem_demandWarnings (values : Valuation) {e : Effect}
    (mem : e ∈ s.demandWarnings values) : e.annotated? = none := by
  obtain ⟨d, -, warning⟩ := List.mem_filterMap.1 mem
  dsimp only at warning
  split at warning
  · cases warning
    rfl
  · cases warning

/-- At the end, what was recorded is annotated. -/
theorem filterMap_annotated?_conclude : s.conclude.filterMap Effect.annotated? = s.nodes := by
  have flows := List.filterMap_eq_nil_iff.2 fun _ mem =>
    s.annotated?_of_mem_flowWarnings s.system.solve mem
  have demands := List.filterMap_eq_nil_iff.2 fun _ mem =>
    s.annotated?_of_mem_demandWarnings s.system.solve mem
  simp only [conclude, List.filterMap_append, flows, demands, List.nil_append, List.map_map,
    List.filterMap_map]
  have annotations : s.decls.filterMap (Effect.annotated? ∘ (fun (p : NodeRef × LocationType) =>
      Effect.annotate p.1 (.text p.2.text)) ∘ fun (p : NodeRef × LocationDecl) =>
        (p.1, s.system.eval s.system.solve (.var p.1))) = s.nodes :=
    List.filterMap_eq_map_iff_forall_eq_some.2 fun _ _ => rfl
  have statistics (types : List LocationType) : (if s.options.statistics then
      [Effect.report ⟨.fromExtension, .info, summary types, none, none⟩] else []).filterMap
        Effect.annotated? = [] := by
    split <;> rfl
  rw [statistics, List.append_nil]
  exact annotations

end LocationState

/-! ## Type checking -/

/-- Until the end of the traversal the inference only records. -/
theorem followAll_inferring (m : Model) {es : List Event} (early : es.any Event.isFinish = false)
    (s : LocationState) (c : Checked) :
    es.foldl (Progress.follow m (.ofModel m)) ⟨[inferring s], c⟩ =
      ⟨[inferring (es.foldl (LocationState.follow m) s)],
        { c with findings := c.findings ++ findingsOf es }⟩ := by
  induction es generalizing s c with
  | nil => simp [findingsOf]
  | cons e es ih =>
    rw [List.any_cons, Bool.or_eq_false_iff] at early
    rw [List.foldl_cons, List.foldl_cons]
    cases e with
    | finding d =>
      refine (ih early.2 s _).trans ?_
      rw [List.append_assoc]
      rfl
    | visit cx v =>
      have quiet : (Progress.mk [inferring s] c).follow m (.ofModel m) (.visit cx v) =
          ⟨[inferring (s.follow m (.visit cx v))], c⟩ := by
        cases v with
        | finish => cases (early.1 : true = false)
        | _ => cases cx <;> rfl
      rw [quiet]
      exact ih early.2 _ c

/-- Type checking with the inference in any state yields the findings of the checker, and what the
inference concludes from all it has recorded. -/
theorem typeCheck_inferring (m : Model) {s : LocationState}
    (user : s.options.default.isUserType = true) :
    typeCheck m [inferring s] =
      (.ok ((s.after m).conclude.foldl (Checked.perform locationExtensionName)
        ⟨findingsOf ((SymbolTable.ofModel m).walkModel m), .empty⟩), [inferring (s.after m)]) := by
  have accepted : s.configure = .ok (s, []) := by
    rw [LocationState.configure, if_pos user]
  have configured : configureAll m (.ofModel m) [inferring s] .empty =
      (⟨[inferring s], .empty⟩, none) := by
    simp only [configureAll, inferring, locationExtension, accepted, List.foldl_nil]
  have early := SymbolTable.any_isFinish_walkClasses (t := .ofModel m) m
  have done : ((SymbolTable.ofModel m).walkModel m).foldl (Progress.follow m (.ofModel m))
      ⟨[inferring s], .empty⟩ =
        ⟨[inferring (s.after m)], (s.after m).conclude.foldl
          (Checked.perform locationExtensionName)
          ⟨findingsOf ((SymbolTable.ofModel m).walkModel m), .empty⟩⟩ := by
    have last : findingsOf [.visit none .finish] = [] := rfl
    rw [LocationState.after, SymbolTable.walkModel_eq, ← SymbolTable.walkClasses,
      List.foldl_append, List.foldl_append, followAll_inferring m early, findingsOf_append, last,
      List.append_nil]
    rfl
  rw [typeCheck, configured]
  dsimp only
  rw [done]

/-! ## Annotated nodes -/

/-- The nodes annotated by the inference in any state are those recorded before, and those of the
declarations of the model that hold references. -/
theorem isSome_annotation_inferring (m : Model) (s : LocationState) (ds : Diagnostics)
    (node : NodeRef) :
    ((((s.after m).conclude.foldl (Checked.perform locationExtensionName)
      ⟨ds, .empty⟩).annotations.get? locationExtensionName node).isSome = true) ↔
      node ∈ s.nodes ∨ node ∈ m.references := by
  rw [Checked.isSome_get?_performAll, LocationState.filterMap_annotated?_conclude,
    (s.adds_after m).mem_nodes]
  exact or_iff_right (by simp [Annotations.get?, Annotations.empty])

section

variable {σ : Type} {m : Model} {r : Registry σ} {options : LocationOptions}
  {into : LocationState → σ} {out? : σ → Option LocationState}

/-- What the inference concludes, it concludes whatever extensions look on besides it. -/
theorem agreeOn_inferring {s : LocationState} (user : s.options.default.isUserType = true)
    (found : ∀ s, out? (into s) = some s)
    (alone : Registry.select (· == locationExtensionName) r =
      Registry.embed into out? [inferring s])
    {c : Checked} (checked : (typeCheck m r).1 = .ok c) :
    c.AgreeOn (· == locationExtensionName)
      ((s.after m).conclude.foldl (Checked.perform locationExtensionName)
        ⟨findingsOf ((SymbolTable.ofModel m).walkModel m), .empty⟩) := by
  obtain ⟨part, checkedAlone, agree⟩ := typeCheck_select checked (· == locationExtensionName)
  rw [alone, typeCheck_embed found, typeCheck_inferring m user] at checkedAlone
  rw [Except.ok.inj checkedAlone]
  exact agree

/-- The selected extensions are the inference, where it is registered. -/
theorem select_locationExtension (distinct : r.names.Nodup)
    (registered : (locationExtension options).embed into out? ∈ r) :
    Registry.select (· == locationExtensionName) r =
      Registry.embed into out? [inferring (.initial options)] :=
  Registry.select_eq_singleton distinct registered

/-- The inference of location types annotates the declarations of the model that hold references,
and no other node, whatever extensions look on besides it. -/
theorem locationExtension_annotates_references (distinct : r.names.Nodup)
    (configures : ∀ e ∈ r, (e.configure (.initial m) e.state).isOk)
    (found : ∀ s, out? (into s) = some s)
    (registered : (locationExtension options).embed into out? ∈ r) :
    ∃ c, (typeCheck m r).1 = .ok c ∧ ∀ node,
      (c.annotations.get? locationExtensionName node).isSome = true ↔ node ∈ m.references := by
  have user : options.default.isUserType = true := by
    have ok := configures _ registered
    rw [Extension.configure_embed found] at ok
    by_contra refused
    simp [locationExtension, LocationState.configure, LocationState.initial, refused, Except.map,
      Except.isOk, Except.toBool] at ok
  obtain ⟨c, checked⟩ := exists_typeCheck distinct configures
  have agree := agreeOn_inferring (s := .initial options) user found
    (select_locationExtension distinct registered) checked
  refine ⟨c, checked, fun node => ?_⟩
  rw [agree.get? (beq_self_eq_true _), isSome_annotation_inferring]
  exact or_iff_right List.not_mem_nil

end

/-- A class in which names are declared again: in inner blocks, among the parameters of a method and
those of its earlier version, with types of references and with others. -/
def redeclaringModel : Model :=
  let ref : TypeUse := .named "I"
  let int : TypeUse := .named "Int"
  let version (params : List TypeUse) (body : Block) : Version :=
    ⟨⟨"m", .named "Unit", params.map fun type => ⟨"a", type, none⟩, none⟩, body⟩
  ⟨[⟨none, [⟨"M", [.interface ⟨"I", [], [], none⟩,
    .class { (default : ClassDecl) with
      name := "C"
      params := [⟨"p", ref, none⟩, ⟨"q", int, none⟩]
      fields := [⟨"f", ref, some (.null none), none⟩, ⟨"n", int, none, none⟩]
      init := some [.decl ref "x" (some (.var "p" none)) none,
        .ite (.bool true none) [.decl ref "x" none none] (some [.decl int "x" none none]) none]
      methods := [⟨version [int, ref] [.decl ⟨"Fut", [ref], []⟩ "y" none none],
        [version [ref, int] [.decl int "y" none none]]⟩]
      recover := some [.decl ref "z" none none] }], none⟩]⟩]⟩

theorem locationExtension_annotates_redeclaringModel :
    ∃ c, (typeCheck redeclaringModel [(Extension.counter "counter").embed .inr Sum.getRight?,
        (locationExtension .standard).embed .inl Sum.getLeft?]).1 = .ok c ∧
      ∀ node, (c.annotations.get? locationExtensionName node).isSome = true ↔
        node ∈ [.classParam "M.C" "p", .field "M.C" "f", .local "M.C" "<init>" "x" 0,
          .local "M.C" "<init>" "x" 1, .param "M.C" "m" "a", .local "M.C" "m" "y" 0,
          .local "M.C" "<recover>" "z" 0] := by
  obtain ⟨c, checked, annotated⟩ := locationExtension_annotates_references
    (m := redeclaringModel)
    (r := [(Extension.counter "counter").embed Sum.inr Sum.getRight?,
      (locationExtension .standard).embed Sum.inl Sum.getLeft?])
    (by decide +kernel)
    (by
      intro e mem
      rcases List.mem_pair.1 mem with rfl | rfl <;> rfl)
    (fun _ => rfl) (List.mem_cons_of_mem _ (List.mem_singleton_self _))
  refine ⟨c, checked, fun node => (annotated node).trans ?_⟩
  have references : redeclaringModel.references = [.classParam "M.C" "p", .field "M.C" "f",
      .local "M.C" "<init>" "x" 0, .local "M.C" "<init>" "x" 1, .param "M.C" "m" "a",
      .param "M.C" "m" "a", .local "M.C" "m" "y" 0, .local "M.C" "<recover>" "z" 0] := by
    decide +kernel
  rw [references]
  simp only [List.mem_cons]
  tauto

end DeltaLang
