import DeltaLang.Proofs.Typing.Reported
import Mathlib.Data.List.Forall2

/-!
# What a quiet traversal makes known

A traversal is quiet if it reports nothing that matters: never that a variable, a field or a class
is not found, and, where it is strict, no error at all.  So names mean something at every place of
a quiet traversal, and in a strict one types fit where values go.
-/

namespace DeltaLang

/-! ## Findings that matter -/

/-- Whether the finding is about a variable, a field or a class that is not found. -/
def DiagnosticKind.isScoping : DiagnosticKind → Bool
  | unknownVariable | unknownField | unknownClass | ambiguousName => true
  | _ => false

/-- The finding is no error, or an error about types where these do not matter. -/
def Diagnostic.Tolerated (strict : Prop) (d : Diagnostic) : Prop :=
  d.isError = true → ¬strict ∧ d.kind.isScoping = false

def Event.Tolerated (strict : Prop) : Event → Prop
  | .finding d => d.Tolerated strict
  | .visit .. => True

/-- No finding matters. -/
def Quiet (strict : Prop) (es : List Event) : Prop := ∀ e ∈ es, e.Tolerated strict

section

variable {strict : Prop} {es es' : List Event}

theorem not_tolerated_of_isScoping {kind : DiagnosticKind} {message : String}
    {loc : Option Location} (scoping : kind.isScoping = true) :
    ¬(Diagnostic.errorAt kind message loc).Tolerated strict := fun h => by
  have none := (h rfl).2
  simp [Diagnostic.errorAt, scoping] at none

theorem not_tolerated_of_strict {kind : DiagnosticKind} {message : String}
    {loc : Option Location} (h : strict) :
    ¬(Diagnostic.errorAt kind message loc).Tolerated strict := fun tolerated =>
  (tolerated rfl).1 h

theorem quiet_append : Quiet strict (es ++ es') ↔ Quiet strict es ∧ Quiet strict es' :=
  List.forall_mem_append

theorem quiet_flatMap {α : Type} {l : List α} {f : α → List Event} :
    Quiet strict (l.flatMap f) ↔ ∀ a ∈ l, Quiet strict (f a) := by
  simp only [Quiet, List.mem_flatMap]
  exact ⟨fun h a ha e he => h e ⟨a, ha, he⟩, fun h e ⟨a, ha, he⟩ => h a ha e he⟩

theorem quiet_findings {ds : Diagnostics} :
    Quiet strict (ds.map Event.finding) ↔ ∀ d ∈ ds, d.Tolerated strict := List.forall_mem_map

theorem Quiet.subset (h : Quiet strict es') (sub : es ⊆ es') : Quiet strict es :=
  fun e mem => h e (sub mem)

/-- The traversal of a model is quiet if all findings of type checking are tolerated. -/
theorem quiet_walkModel {σ : Type} {m : Model} {r : Registry σ} {c : Checked}
    (checked : (typeCheck m r).1 = .ok c) (tolerated : ∀ d ∈ c.findings, d.Tolerated strict) :
    Quiet strict ((SymbolTable.ofModel m).walkModel m) := by
  intro e mem
  cases e with
  | visit cx v => trivial
  | finding d => exact tolerated d (mem_findings_of_typeCheck checked mem)

end

/-! ## Contexts -/

/-- Types that say something about their values. -/
def Ty.known : Ty → Bool
  | unknown => false
  | fut value => known value
  | _ => true

namespace Context

/-- The scopes of the body, innermost first. -/
def scopes (cx : Context) : List (List Binding) :=
  match cx.body with
  | some b => b.scopes
  | none => []

theorem lookup_eq (cx : Context) (name : String) :
    cx.lookup name = (cx.scopes.flatten.find? (·.name == name)).or (cx.field? name) := rfl

/-- The binding of what an assignment writes to. -/
def target? (cx : Context) : Target → Option Binding
  | .var name => cx.lookup name
  | .field name => cx.field? name

variable {cx : Context} {inner : List (List Binding)}

theorem withScopes_withScopes (cx : Context) (outer inner : List (List Binding)) :
    (cx.withScopes outer).withScopes inner = cx.withScopes inner := by
  obtain ⟨cls, fields, _ | body⟩ := cx <;> rfl

theorem scopes_withScopes (inBody : cx.body.isSome) : (cx.withScopes inner).scopes = inner := by
  obtain ⟨body, eq⟩ := Option.isSome_iff_exists.1 inBody
  simp [Context.scopes, withScopes, eq]

end Context

namespace SymbolTable

variable {t : SymbolTable} {strict : Prop} {cx : Context} {loc : Option Location}

/-! ## Types -/

theorem known_of_builtin? {name : String} {ty : Ty} (h : Ty.builtin? name = some ty) :
    ty.known = true := by
  unfold Ty.builtin? at h
  repeat' split at h
  all_goals cases h
  all_goals rfl

theorem known_of_resolveType {module : Option String} {u : TypeUse} {ty : Ty}
    (h : t.resolveType module u = .ok ty) : ty.known = true := by
  fun_induction t.resolveType module u generalizing ty with
  | case1 annotations arg ih =>
    cases resolved : t.resolveType module arg with
    | error err => simp [resolved, Except.map] at h
    | ok value =>
      rw [resolved] at h
      obtain rfl := Except.ok.inj h
      have inner : value.known = true := ih resolved
      exact inner
  | case4 name args annotations other plain ty' builtin =>
    exact known_of_builtin? (builtin.trans (congrArg some (Except.ok.inj h)))
  | case5 =>
    obtain rfl := Except.ok.inj h
    rfl
  | case2 | case3 | case6 | case7 => cases h

theorem fst_checkType (t : SymbolTable) (module : String) (u : TypeUse) (loc : Option Location) :
    (t.checkType module u loc).1 = t.typeOr module u := by
  unfold checkType typeOr
  split <;> simp_all

theorem known_typeOr_of_tolerated {module : String} {u : TypeUse} (h : strict)
    (tolerated : ∀ d ∈ (t.checkType module u loc).2, d.Tolerated strict) :
    (t.typeOr module u).known = true := by
  unfold checkType at tolerated
  unfold typeOr
  split at tolerated
  · rename_i found
    rw [found]
    exact known_of_resolveType found
  · exact absurd (tolerated _ (List.mem_singleton_self _)) (not_tolerated_of_strict h)
  · exact absurd (tolerated _ (List.mem_singleton_self _)) (not_tolerated_of_strict h)

theorem isAssignable_of_tolerated {found expected : Ty} {what : String} (h : strict)
    (tolerated : ∀ d ∈ t.expectAssignable found expected what loc, d.Tolerated strict) :
    t.isAssignable found expected = true := by
  unfold expectAssignable at tolerated
  split at tolerated
  · assumption
  · exact absurd (tolerated _ (List.mem_singleton_self _)) (not_tolerated_of_strict h)

/-- The types of parameters that are written in a module. -/
def paramTypes (t : SymbolTable) (module : String) (params : List Param) : List Ty :=
  params.map fun p => t.typeOr module p.type

/-- Arguments fit the parameters. -/
theorem checkArgs_of_tolerated {what : String} {params : List Param} {module : String}
    {found : List Ty} (h : strict)
    (tolerated : ∀ d ∈ t.checkArgs what params module found loc, d.Tolerated strict) :
    List.Forall₂ (fun ty ty' => t.isAssignable ty ty' = true) found
      (t.paramTypes module params) := by
  unfold checkArgs at tolerated
  split at tolerated
  · exact absurd (tolerated _ (List.mem_singleton_self _)) (not_tolerated_of_strict h)
  · rename_i same
    rw [not_not] at same
    refine List.forall₂_map_right_iff.2 (List.Forall₂.flip ?_)
    refine List.forall₂_iff_zip.2 ⟨same, fun {p ty} mem => ?_⟩
    have fits : ∀ d ∈ t.expectAssignable ty (t.typeOr module p.type)
        ("argument " ++ p.name ++ " of " ++ what) loc, d.Tolerated strict := fun d hd =>
      tolerated d (List.mem_flatMap.2 ⟨(p, ty), mem, hd⟩)
    exact isAssignable_of_tolerated h fits

/-! ## Names -/

theorem exists_of_typeVar {name : String}
    (tolerated : ∀ d ∈ (typeVar cx name loc).findings, d.Tolerated strict) :
    ∃ b, cx.lookup name = some b ∧ (typeVar cx name loc).type = b.type := by
  unfold typeVar at tolerated ⊢
  split at tolerated
  · rename_i b found
    exact ⟨b, found, rfl⟩
  · exact absurd (tolerated _ (List.mem_singleton_self _)) (not_tolerated_of_isScoping rfl)

theorem exists_of_typeField {name : String}
    (tolerated : ∀ d ∈ (typeField cx name loc).findings, d.Tolerated strict) :
    ∃ b, cx.field? name = some b ∧ (typeField cx name loc).type = b.type := by
  unfold typeField at tolerated ⊢
  split at tolerated
  · rename_i b found
    exact ⟨b, found, rfl⟩
  · exact absurd (tolerated _ (List.mem_singleton_self _)) (not_tolerated_of_isScoping rfl)

theorem exists_of_typeNew {module cls : String} {args : List Ty}
    (tolerated : ∀ d ∈ (t.typeNew module cls args loc).findings, d.Tolerated strict) :
    ∃ c, t.classes.resolve (some module) cls = .ok c ∧
      (t.typeNew module cls args loc).type = .class c.qualifiedName ∧
      ∀ d ∈ t.checkArgs ("class " ++ cls) c.decl.params c.module args loc, d.Tolerated strict := by
  unfold typeNew at tolerated ⊢
  split at tolerated
  · rename_i c found
    exact ⟨c, found, rfl, tolerated⟩
  · exact absurd (tolerated _ (List.mem_singleton_self _)) (not_tolerated_of_isScoping rfl)
  · exact absurd (tolerated _ (List.mem_singleton_self _)) (not_tolerated_of_isScoping rfl)

/-- What an assignment writes to is bound. -/
theorem exists_of_targetType {target : Target}
    (tolerated : ∀ d ∈ (targetType cx loc target).2, d.Tolerated strict) :
    ∃ b, cx.target? target = some b ∧ targetType cx loc target = (some b.type, []) := by
  unfold targetType at tolerated ⊢
  split at tolerated
  all_goals
    split at tolerated
    · rename_i b found
      exact ⟨b, found, rfl⟩
    · exact absurd (tolerated _ (List.mem_singleton_self _)) (not_tolerated_of_isScoping rfl)

/-! ## Expressions -/

theorem quiet_events {e : Expr} {ty : Typing} {parts : List TypedExpr} {n : Nat} :
    Quiet strict ((typed e ty parts n).events cx) ↔
      Quiet strict (TypedExpr.eventsOfAll cx parts) ∧ ∀ d ∈ ty.findings, d.Tolerated strict := by
  rw [typed, TypedExpr.events, quiet_append, quiet_append, quiet_findings]
  simp [Quiet, Event.Tolerated]

theorem quiet_eventsOfAll_cons {e : TypedExpr} {es : List TypedExpr} :
    Quiet strict (TypedExpr.eventsOfAll cx (e :: es)) ↔
      Quiet strict (e.events cx) ∧ Quiet strict (TypedExpr.eventsOfAll cx es) := by
  rw [TypedExpr.eventsOfAll, quiet_append]

theorem quiet_evaluated {st : BodyState} {e : TypedExpr} {ds : Diagnostics} :
    Quiet strict (evaluated cx st e ds) ↔
      Quiet strict (e.events (cx.withScopes st.scopes)) ∧ ∀ d ∈ ds, d.Tolerated strict := by
  rw [evaluated, quiet_append, quiet_findings]

/-! ## Statements -/

theorem scopes_typeIn (t : SymbolTable) (cx : Context) (st : BodyState) (e : Expr) :
    (t.typeIn cx st e).2.scopes = st.scopes := rfl

mutual

/-- A statement only adds to the innermost scope. -/
theorem tail_scopes_walkStmt (t : SymbolTable) (cx : Context) (ret : Ty) (st : BodyState) :
    (s : Stmt) → (t.walkStmt cx ret st s).1.scopes.tail = st.scopes.tail
  | .skip _ | .ret .. | .assign .. | .eval .. => by simp only [walkStmt, scopes_typeIn]
  | .decl _ _ none _ | .decl _ _ (some _) _ => by
    simp only [walkStmt, BodyState.bind, scopes_typeIn]
    split <;> simp_all
  | .ite _ yes none _ => by
    simp only [walkStmt, BodyState.leave]
    rw [tail_scopes_walkStmts]
    rfl
  | .ite _ yes (some no) _ => by
    simp only [walkStmt, BodyState.leave]
    rw [tail_scopes_walkStmts]
    simp only [BodyState.enter, List.tail_cons]
    rw [tail_scopes_walkStmts]
    rfl
  | .loop _ body _ => by
    simp only [walkStmt, BodyState.leave]
    rw [tail_scopes_walkStmts]
    rfl

theorem tail_scopes_walkStmts (t : SymbolTable) (cx : Context) (ret : Ty) (st : BodyState) :
    (ss : List Stmt) → (t.walkStmts cx ret st ss).1.scopes.tail = st.scopes.tail
  | [] => rfl
  | s :: ss => by
    simp only [walkStmts]
    rw [tail_scopes_walkStmts, tail_scopes_walkStmt]

end

end SymbolTable

end DeltaLang
