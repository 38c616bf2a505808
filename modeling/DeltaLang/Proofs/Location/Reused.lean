import DeltaLang.Proofs.Location.Concluded

/-!
# Registries that are used again

The states of extensions outlive the traversal.  When models are type checked one after another with
one registry, the inference of location types keeps what it recorded in earlier ones, and concludes
from all of it: it annotates the references of earlier models too, and warns again.  Only what it
expects the present method to return is forgotten, with every body.  So nothing is carried over from
models without references, and from others at least their nodes are.
-/

namespace DeltaLang

/-- Whether an expression that yields a reference is visited. -/
def Event.yieldsReference : Event → Bool
  | .visit _ (.expr e) => e.type.isReference
  | _ => false

/-- Nothing that holds references is declared in the model, and no expression yields one. -/
structure Model.Unreferring (m : Model) : Prop where
  references : m.references = []
  plain : ((SymbolTable.ofModel m).walkModel m).any Event.yieldsReference = false

namespace LocationState

variable {m : Model} {s : LocationState} {cx : Context}

/-! ## Models without references -/

/-- No expression of the present body has a term. -/
theorem term?_eq_none (blank : s.terms = []) (e : TypedExpr) : s.term? cx e = none := by
  rw [term?, blank]
  rfl

theorem flow_none (target : Option NodeRef) (loc : Option Location) :
    s.flow none target loc = s := rfl

theorem foldl_eq_self {α β : Type} {f : β → α → β} {b : β} {l : List α}
    (same : ∀ a ∈ l, f b a = b) : l.foldl f b = b := by
  induction l with
  | nil => rfl
  | cons a l ih =>
    obtain ⟨first, rest⟩ := List.forall_mem_cons.1 same
    rw [List.foldl_cons, first, ih rest]

theorem filter_eq_none_of_reference? {b : Option Binding}
    (none : b.bind Binding.reference? = none) : b.filter (·.type.isReference) = .none := by
  rw [← map_node_filter] at none
  exact Option.map_eq_none_iff.1 none

theorem enterClass_eq_self (none : Visit.beforeClass.declared cx = []) : s.enterClass cx = s := by
  have refers : cx.fields.filter (·.type.isReference) = [] := by
    refine List.filter_eq_nil_iff.2 fun b mem holds => ?_
    have plain := List.filterMap_eq_nil_iff.1 none b mem
    rw [Binding.reference?, if_pos holds] at plain
    cases plain
  rw [enterClass, refers]
  rfl

/-- Entering a body without parameters that hold references changes what is to be returned only. -/
theorem exists_enterBody_eq (block : Block) (none : (Visit.beforeBody block).declared cx = []) :
    ∃ returns, s.enterBody cx = { s with returns := returns } := by
  rw [Visit.declared] at none
  rw [enterBody]
  cases version : cx.version? with
  | none => exact ⟨.none, rfl⟩
  | some v =>
    rw [version, Option.toList_some, List.flatMap_singleton] at none
    refine ⟨_, foldl_eq_self fun p mem => ?_⟩
    rw [filter_eq_none_of_reference? (List.filterMap_eq_nil_iff.1 none p mem)]

theorem demandCall_eq_self (blank : s.terms = []) (method : String) (async : Bool)
    (loc : Option Location) (e receiver : TypedExpr) (args : List TypedExpr) :
    s.demandCall cx method async loc e receiver args = s := by
  simp only [demandCall, term?_eq_none blank]
  refine foldl_eq_self ?_
  rintro ⟨arg, p⟩ -
  simp only [term?_eq_none blank]

theorem flowNew_eq_self (blank : s.terms = []) (t : SymbolTable) (loc : Option Location)
    (e : TypedExpr) : s.flowNew t cx loc e = s := by
  unfold flowNew
  split
  · split
    · refine foldl_eq_self ?_
      rintro ⟨arg, p⟩ -
      simp only [term?_eq_none blank, flow_none]
    · rfl
  · rfl

theorem visitExpr_eq_self (blank : s.terms = []) (t : SymbolTable) {e : TypedExpr}
    (plain : e.type.isReference = false) : s.visitExpr t cx e = s := by
  simp only [visitExpr, plain, Bool.false_eq_true, if_false]
  split
  · exact demandCall_eq_self blank _ _ _ _ _ _
  · exact flowNew_eq_self blank t _ e
  · rfl

theorem visitStmt_eq_self (blank : s.terms = []) {stmt : Stmt} {value : Option TypedExpr}
    (none : (Visit.stmt stmt value).declared cx = []) : s.visitStmt cx stmt value = s := by
  have term : value.bind (s.term? cx) = .none := by
    cases value with
    | none => rfl
    | some e => exact term?_eq_none blank e
  cases stmt with
  | decl type name init loc =>
    rw [Visit.declared, Option.toList_eq_nil_iff] at none
    rw [visitStmt, filter_eq_none_of_reference? none]
  | assign target init loc => rw [visitStmt, term, flow_none]
  | ret init loc =>
    rw [visitStmt, term]
  | _ => rfl

/-- Where nothing that holds references is declared and nothing yields a reference, what the present
method is expected to return is all that an event changes. -/
theorem exists_follow_eq (blank : s.terms = []) {e : Event} (none : e.declared = [])
    (plain : e.yieldsReference = false) :
    ∃ returns, s.follow m e = { s with returns := returns } := by
  cases e with
  | finding d => exact ⟨s.returns, rfl⟩
  | visit cx v =>
    have cleared : { s with terms := [] } = s := by rw [← blank]
    cases cx with
    | none =>
      cases v with
      | afterBody block => exact ⟨s.returns, cleared⟩
      | _ => exact ⟨s.returns, rfl⟩
    | some cx =>
      cases v with
      | beforeClass => exact ⟨s.returns, enterClass_eq_self none⟩
      | beforeBody block => exact exists_enterBody_eq block none
      | afterBody block => exact ⟨s.returns, cleared⟩
      | stmt stmt value => exact ⟨s.returns, visitStmt_eq_self blank none⟩
      | expr e => exact ⟨s.returns, visitExpr_eq_self blank _ plain⟩
      | afterClass | finish => exact ⟨s.returns, rfl⟩

theorem exists_followAll_eq (blank : s.terms = []) {es : List Event} (none : declaredIn es = [])
    (plain : es.any Event.yieldsReference = false) :
    ∃ returns, es.foldl (follow m) s = { s with returns := returns } := by
  induction es generalizing s with
  | nil => exact ⟨s.returns, rfl⟩
  | cons e es ih =>
    rw [declaredIn, List.flatMap_cons, List.append_eq_nil_iff] at none
    rw [List.any_cons, Bool.or_eq_false_iff] at plain
    obtain ⟨returns, first⟩ := exists_follow_eq (m := m) blank none.1 plain.1
    obtain ⟨returns', rest⟩ := ih (s := { s with returns := returns }) blank none.2 plain.2
    exact ⟨returns', by rw [List.foldl_cons, first, rest]⟩

/-! ## What a body forgets -/

/-- Following the events forgets what was expected to be returned, or does not depend on it. -/
def Forgets (m : Model) (es : List Event) : Prop :=
  ∀ s returns, ∃ returns', es.foldl (follow m) { s with returns := returns } =
    { es.foldl (follow m) s with returns := returns' }

namespace Forgets

variable {es es' : List Event}

theorem append (h : Forgets m es) (h' : Forgets m es') : Forgets m (es ++ es') := by
  intro s returns
  obtain ⟨returns, first⟩ := h s returns
  obtain ⟨returns, second⟩ := h' (es.foldl (follow m) s) returns
  exact ⟨returns, by rw [List.foldl_append, List.foldl_append, first, second]⟩

theorem nil : Forgets m [] := fun _ returns => ⟨returns, rfl⟩

theorem flatMap {α : Type} {l : List α} {f : α → List Event} (each : ∀ a ∈ l, Forgets m (f a)) :
    Forgets m (l.flatMap f) := by
  induction l with
  | nil => exact .nil
  | cons a l ih =>
    obtain ⟨first, rest⟩ := List.forall_mem_cons.1 each
    exact first.append (ih rest)

theorem findings (ds : Diagnostics) : Forgets m (ds.map .finding) := by
  induction ds with
  | nil => exact .nil
  | cons d ds ih => exact ih

theorem beforeClass (cx : Context) : Forgets m [.visit cx .beforeClass] := fun s returns => by
  refine ⟨returns, ?_⟩
  change LocationState.enterClass _ cx = { LocationState.enterClass s cx with returns := returns }
  rw [LocationState.enterClass, LocationState.enterClass]
  induction cx.fields.filter (·.type.isReference) generalizing s with
  | nil => rfl
  | cons b bs ih => exact ih (s.declare b.node _)

theorem plainVisit (cx : Option Context) {v : Visit}
    (same : ∀ s, follow m s (.visit cx v) = s) : Forgets m [.visit cx v] := fun s returns =>
  ⟨returns, by rw [List.foldl_cons, List.foldl_cons, same, same]; rfl⟩

/-- A body sets anew what its method is expected to return. -/
theorem walkBody (t : SymbolTable) (cx : Context) (name : String) (version : Option Version)
    (ret : Ty) (params : List Binding) (prelude block : Block) :
    Forgets m (t.walkBody cx name version ret params prelude block) := fun s returns => by
  have entered (cx : Context) : enterBody { s with returns := returns } cx = s.enterBody cx := by
    rw [enterBody, enterBody]
    cases cx.version? <;> rfl
  refine ⟨(List.foldl (follow m) s (t.walkBody cx name version ret params prelude block)).returns,
    ?_⟩
  simp only [SymbolTable.walkBody, List.cons_append, List.foldl_cons]
  change List.foldl _ (enterBody _ _) _ = _
  rw [entered]
  rfl

theorem walkClass (t : SymbolTable) (c : Entry ClassDecl) : Forgets m (t.walkClass c) := by
  have methods : Forgets m (c.decl.methods.flatMap fun method =>
      method.versions.zipIdx.flatMap fun x => t.walkVersion (t.classContext c) x.1 x.2) :=
    .flatMap fun method _ => .flatMap fun x _ =>
      (Forgets.findings _).append (walkBody _ _ _ _ _ _ _ _)
  have recover : Forgets m (c.decl.recover.toList.flatMap fun block =>
      t.walkBody (t.classContext c) SymbolTable.recoverBody none .unit [] [] block) :=
    .flatMap fun block _ => walkBody _ _ _ _ _ _ _ _
  exact ((((((Forgets.findings _).append (beforeClass _)).append (.findings _)).append
    (walkBody _ _ _ _ _ _ _ _)).append methods).append recover).append
      (plainVisit _ fun _ => rfl)

theorem walkModel (m : Model) : Forgets m ((SymbolTable.ofModel m).walkModel m) := by
  refine Forgets.append (.flatMap fun unit _ => .flatMap fun i _ => ?_) (plainVisit _ fun _ => rfl)
  exact (Forgets.flatMap fun i _ => .findings _).append (.flatMap fun c _ => walkClass _ c)

end Forgets

/-! ## One model after another -/

/-- What the present method is expected to return does not matter for another model. -/
theorem conclude_after (s : LocationState) (returns : Option LocationType) :
    (LocationState.after { s with returns := returns } m).conclude = (s.after m).conclude := by
  obtain ⟨returns', forgets⟩ := Forgets.walkModel m s returns
  rw [after, forgets]
  rfl

/-- Models without references leave nothing behind but what is expected to be returned. -/
theorem exists_afterAll_eq (blank : s.terms = []) {ms : List Model}
    (plain : ∀ m ∈ ms, m.Unreferring) :
    ∃ returns, ms.foldl after s = { s with returns := returns } := by
  induction ms generalizing s with
  | nil => exact ⟨s.returns, rfl⟩
  | cons m ms ih =>
    obtain ⟨now, later⟩ := List.forall_mem_cons.1 plain
    obtain ⟨returns, first⟩ := exists_followAll_eq (m := m) blank
      ((declaredIn_walkModel m).trans now.references) now.plain
    obtain ⟨returns', rest⟩ := ih (s := { s with returns := returns }) blank later
    refine ⟨returns', ?_⟩
    rw [List.foldl_cons, after, first, rest]

theorem mem_nodes_afterAll (options : LocationOptions) (ms : List Model) (node : NodeRef) :
    node ∈ (ms.foldl after (initial options)).nodes ↔ ∃ m ∈ ms, node ∈ m.references := by
  have all := Adds.foldl (fun s m => s.adds_after m) ms (initial options)
  rw [all.mem_nodes, List.mem_flatMap]
  exact or_iff_right List.not_mem_nil

end LocationState

/-! ## Registries -/

/-- With the registry models are type checked, one after another, which leaves the extensions as
they are in another registry. -/
inductive Registry.Used {σ : Type} : Registry σ → List Model → Registry σ → Prop
  | unused (r : Registry σ) : Used r [] r
  | next {r r' : Registry σ} {m : Model} {ms : List Model} {c : Checked}
      (checked : (typeCheck m r).1 = .ok c) (rest : Used (typeCheck m r).2 ms r') :
      Used r (m :: ms) r'

section

variable {σ : Type} {m : Model} {ms : List Model} {r r' : Registry σ} {options : LocationOptions}
  {into : LocationState → σ} {out? : σ → Option LocationState}

/-- The inference has recorded all models afterwards. -/
theorem Registry.Used.select (used : r.Used ms r') (found : ∀ s, out? (into s) = some s)
    {s : LocationState} (user : s.options.default.isUserType = true)
    (alone : Registry.select (· == locationExtensionName) r =
      Registry.embed into out? [inferring s]) :
    Registry.select (· == locationExtensionName) r' =
      Registry.embed into out? [inferring (ms.foldl LocationState.after s)] := by
  induction used generalizing s with
  | unused r => exact alone
  | @next r r' m ms c checked _ ih =>
    refine ih (s := s.after m) ((s.adds_after m).options ▸ user) ?_
    obtain ⟨part, shown, -⟩ := typeCheck_shows checked (· == locationExtensionName)
    rw [alone, typeCheck_embed found, typeCheck_inferring m user] at shown
    exact (congrArg Prod.snd shown).symm

/-- After other models were type checked with the same registry, type checking a model yields the
findings of the checker as before.  The inference of location types annotates the references of all
these models, so only those of the model if the others have no more; and where the others have no
references at all, it makes the annotations and findings that it makes in a fresh registry. -/
theorem typeCheck_reused (distinct : r.names.Nodup) (found : ∀ s, out? (into s) = some s)
    (registered : (locationExtension options).embed into out? ∈ r)
    (user : options.default.isUserType = true) (used : r.Used ms r') {c fresh : Checked}
    (again : (typeCheck m r').1 = .ok c) (first : (typeCheck m r).1 = .ok fresh) :
    c.findings.filter (·.origin = none) = fresh.findings.filter (·.origin = none) ∧
      (∀ node, (c.annotations.get? locationExtensionName node).isSome = true ↔
        node ∈ m.references ∨ ∃ m' ∈ ms, node ∈ m'.references) ∧
      ((∀ node, (c.annotations.get? locationExtensionName node).isSome = true ↔
          (fresh.annotations.get? locationExtensionName node).isSome = true) ↔
        ∀ m' ∈ ms, m'.references ⊆ m.references) ∧
      ((∀ m' ∈ ms, m'.Unreferring) →
        c.annotations.ofExtension locationExtensionName =
            fresh.annotations.ofExtension locationExtensionName ∧
          c.findings.filter (·.origin = some locationExtensionName) =
            fresh.findings.filter (·.origin = some locationExtensionName)) := by
  have alone := select_locationExtension distinct registered
  have left := used.select found (s := .initial options) user alone
  have user' : (ms.foldl LocationState.after (.initial options)).options.default.isUserType := by
    rw [(LocationState.Adds.foldl (fun s m => s.adds_after m) ms (.initial options)).options]
    exact user
  have agree := agreeOn_inferring user' found left again
  have agreeFresh := agreeOn_inferring (s := .initial options) user found alone first
  have annotated (node : NodeRef) :
      (c.annotations.get? locationExtensionName node).isSome = true ↔
        node ∈ m.references ∨ ∃ m' ∈ ms, node ∈ m'.references := by
    rw [agree.get? (beq_self_eq_true _), isSome_annotation_inferring,
      LocationState.mem_nodes_afterAll, or_comm]
  have annotatedFresh (node : NodeRef) :
      (fresh.annotations.get? locationExtensionName node).isSome = true ↔
        node ∈ m.references := by
    rw [agreeFresh.get? (beq_self_eq_true _), isSome_annotation_inferring]
    exact or_iff_right List.not_mem_nil
  refine ⟨?_, annotated, ?_, fun plain => ?_⟩
  · obtain ⟨bare, bareOk, agreeBare⟩ := typeCheck_select again fun _ => false
    obtain ⟨bare', bareOk', agreeBare'⟩ := typeCheck_select first fun _ => false
    rw [Registry.select_eq_nil] at bareOk bareOk'
    obtain rfl := Except.ok.inj (bareOk.symm.trans bareOk')
    exact (agreeBare.ofOrigin rfl).trans (agreeBare'.ofOrigin rfl).symm
  · simp only [annotated, annotatedFresh]
    constructor
    · exact fun same m' mem node here => (same node).1 (.inr ⟨m', mem, here⟩)
    · exact fun sub node => or_iff_left_of_imp fun ⟨m', mem, here⟩ => sub m' mem here
  · obtain ⟨returns, eq⟩ := LocationState.exists_afterAll_eq (s := .initial options) rfl plain
    rw [eq, LocationState.conclude_after] at agree
    exact ⟨(agree.ofExtension (beq_self_eq_true _)).trans
        (agreeFresh.ofExtension (beq_self_eq_true _)).symm,
      (agree.ofOrigin (beq_self_eq_true _)).trans (agreeFresh.ofOrigin (beq_self_eq_true _)).symm⟩

end

/-- The inference of location types with usual options, besides an extension that counts. -/
def countingRegistry : Registry (LocationState ⊕ Nat) :=
  [(Extension.counter "counter").embed .inr Sum.getRight?,
    (locationExtension .standard).embed .inl Sum.getLeft?]

theorem typeCheck_reused_countingRegistry :
    sumModel.Unreferring ∧ ∃ r' c fresh, countingRegistry.Used [sumModel] r' ∧
      (typeCheck farCallModel r').1 = .ok c ∧
      (typeCheck farCallModel countingRegistry).1 = .ok fresh ∧
      c.annotations.ofExtension locationExtensionName =
        fresh.annotations.ofExtension locationExtensionName ∧
      c.findings.filter (·.origin = some locationExtensionName) =
        fresh.findings.filter (·.origin = some locationExtensionName) := by
  have plain : sumModel.Unreferring := ⟨by decide +kernel, by decide +kernel⟩
  obtain ⟨c₀, checked, -⟩ : ∃ c₀, (typeCheck sumModel countingRegistry).1 = .ok c₀ ∧ () = () :=
    exists_of_map_toOption (by decide +kernel)
  obtain ⟨c, again, -⟩ : ∃ c,
      (typeCheck farCallModel (typeCheck sumModel countingRegistry).2).1 = .ok c ∧ () = () :=
    exists_of_map_toOption (by decide +kernel)
  obtain ⟨fresh, first, -⟩ : ∃ c, (typeCheck farCallModel countingRegistry).1 = .ok c ∧ () = () :=
    exists_of_map_toOption (by decide +kernel)
  have used : countingRegistry.Used [sumModel] (typeCheck sumModel countingRegistry).2 :=
    .next checked (.unused _)
  have found (s : LocationState) : Sum.getLeft? (Sum.inl s : LocationState ⊕ Nat) = some s := rfl
  have registered : (locationExtension .standard).embed .inl Sum.getLeft? ∈ countingRegistry :=
    List.mem_cons_of_mem _ (List.mem_singleton_self _)
  obtain ⟨-, -, -, same⟩ :=
    typeCheck_reused (by decide +kernel) found registered rfl used again first
  exact ⟨plain, _, c, fresh, used, again, first,
    same fun m mem => List.mem_singleton.1 mem ▸ plain⟩

/-- Type checking a model again with the same registry warns again, and finds another location
type. -/
theorem typeCheck_again_farCallModel :
    let r : Registry LocationState := [locationExtension .standard]
    let warning (found : String) : String := "synchronous call of m on a receiver that may " ++
      "not be near: found " ++ found ++ ", expected Near"
    let shown (c : Checked) := (c.findings.map (·.message), c.annotations.records.map (·.value))
    (typeCheck farCallModel r).1.map shown = .ok ([warning "Far(1)"], [.text "Far(1)"]) ∧
      (typeCheck farCallModel (typeCheck farCallModel r).2).1.map shown =
        .ok ([warning "Far", warning "Far"], [.text "Far"]) := by
  decide +kernel

end DeltaLang
