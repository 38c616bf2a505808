import DeltaLang.Compile
import DeltaLang.Proofs.Program.Entries

/-!
# What the traversal reports

Findings of the traversal reach the result of type checking, whoever looks on.  One of them is that
`original(..)` is called where no method version is under traversal: in the initial values of
fields, in initial blocks and in recovery blocks.
-/

namespace DeltaLang

/-! ## Findings stay -/

/-- Whether the event is an error of the checker. -/
def Event.isError : Event → Bool
  | .finding d => d.isError
  | .visit .. => false

section

variable {σ : Type} {m : Model} {t : SymbolTable}

theorem Checked.findings_prefix_perform (name : String) (c : Checked) (e : Effect) :
    c.findings <+: (c.perform name e).findings := by
  cases e with
  | report d => exact List.prefix_append _ _
  | annotate node value => exact List.prefix_rfl

theorem Checked.findings_prefix_performAll (name : String) (c : Checked) (es : List Effect) :
    c.findings <+: (es.foldl (Checked.perform name) c).findings := by
  induction es generalizing c with
  | nil => exact List.prefix_rfl
  | cons e es ih => exact (findings_prefix_perform name c e).trans (ih _)

theorem findings_prefix_observeAll (cx : Option Context) (v : Visit) (r : Registry σ)
    (c : Checked) : c.findings <+: (observeAll m t cx v r c).checked.findings := by
  induction r generalizing c with
  | nil => exact List.prefix_rfl
  | cons e es ih => exact (c.findings_prefix_performAll e.name _).trans (ih _)

theorem findings_prefix_follow (p : Progress σ) (e : Event) :
    p.checked.findings <+: (p.follow m t e).checked.findings := by
  cases e with
  | finding d => exact List.prefix_append _ _
  | visit cx v => exact findings_prefix_observeAll cx v _ _

theorem findings_prefix_followAll (p : Progress σ) (es : List Event) :
    p.checked.findings <+: (es.foldl (Progress.follow m t) p).checked.findings := by
  induction es generalizing p with
  | nil => exact List.prefix_rfl
  | cons e es ih => exact (findings_prefix_follow p e).trans (ih _)

/-- Every finding of the traversal is one of the result. -/
theorem mem_findings_followAll {es : List Event} {d : Diagnostic} (h : .finding d ∈ es)
    (p : Progress σ) : d ∈ (es.foldl (Progress.follow m t) p).checked.findings := by
  induction es generalizing p with
  | nil => simp at h
  | cons e es ih =>
    rcases List.mem_cons.1 h with rfl | h
    · refine (findings_prefix_followAll (p.follow m t (.finding d)) es).subset ?_
      simp [Progress.follow]
    · exact ih h _

/-- Type checking reports every finding of the traversal. -/
theorem mem_findings_of_typeCheck {m : Model} {r : Registry σ} {c : Checked}
    (h : (typeCheck m r).1 = .ok c) {d : Diagnostic}
    (mem : .finding d ∈ (SymbolTable.ofModel m).walkModel m) : d ∈ c.findings := by
  cases failure : (configureAll m (.ofModel m) r .empty).2 with
  | some err => simp [typeCheck, failure] at h
  | none =>
    simp only [typeCheck, failure, Except.ok.injEq] at h
    exact h ▸ mem_findings_followAll mem _

/-- A model that is checked without errors has none in its traversal. -/
theorem walkModel_clean {m : Model} {r : Registry σ} {c : Checked}
    (h : (typeCheck m r).1 = .ok c) (clean : c.findings.hasErrors = false) :
    ((SymbolTable.ofModel m).walkModel m).any Event.isError = false := by
  rw [List.any_eq_false]
  intro e he error
  cases e with
  | visit cx v => simp [Event.isError] at error
  | finding d =>
    rw [Diagnostics.hasErrors, List.any_eq_false] at clean
    exact clean d (mem_findings_of_typeCheck h he) error

end

namespace SymbolTable

variable (t : SymbolTable)

/-! ## Calls of the original outside of methods -/

theorem any_isError_findings (ds : Diagnostics) :
    (ds.map Event.finding).any Event.isError = ds.any Diagnostic.isError := by
  rw [List.any_map]
  rfl

theorem any_isError_events (cx : Context) (e : Expr) (ty : Typing) (parts : List TypedExpr)
    (n : Nat) :
    ((typed e ty parts n).events cx).any Event.isError =
      ((TypedExpr.eventsOfAll cx parts).any Event.isError ||
        ty.findings.any Diagnostic.isError) := by
  rw [typed, TypedExpr.events, List.any_append, List.any_append, any_isError_findings]
  simp [Event.isError]

theorem typeOriginal_isError {cx : Context} (outside : cx.version? = none) (args : List Ty)
    (loc : Option Location) :
    (t.typeOriginal cx args loc).findings.any Diagnostic.isError = true := by
  simp [typeOriginal, outside, Typing.error, Diagnostic.errorAt, Diagnostic.isError]

mutual

/-- Outside of methods, an expression that calls `original(..)` is reported. -/
theorem typeExpr_isError {cx : Context} (outside : cx.version? = none) (at' : Context) (n : Nat) :
    (e : Expr) → e.callsOriginal = true →
      ((t.typeExpr cx n e).events at').any Event.isError = true
  | .bool .., h | .int .., h | .str .., h | .null .., h | .this .., h | .var .., h
  | .field .., h => by simp [Expr.callsOriginal] at h
  | .unary op operand loc, h => by
    have inner := typeExpr_isError outside at' n operand h
    simp [typeExpr, any_isError_events, TypedExpr.eventsOfAll, inner]
  | .binary op lhs rhs loc, h => by
    simp only [Expr.callsOriginal, Bool.or_eq_true] at h
    simp only [typeExpr, any_isError_events, TypedExpr.eventsOfAll, List.any_append, List.any_nil,
      Bool.or_false, Bool.or_eq_true]
    exact .inl (h.imp (typeExpr_isError outside at' _ lhs) (typeExpr_isError outside at' _ rhs))
  | .call target method args async loc, h => by
    simp only [Expr.callsOriginal, Bool.or_eq_true] at h
    simp only [typeExpr, any_isError_events, TypedExpr.eventsOfAll, List.any_append,
      Bool.or_eq_true]
    exact .inl (h.imp (typeExpr_isError outside at' _ target)
      (typeExprs_isError outside at' _ args))
  | .get future loc, h => by
    have inner := typeExpr_isError outside at' n future h
    simp [typeExpr, any_isError_events, TypedExpr.eventsOfAll, inner]
  | .new cls args isLocal loc, h => by
    have inner := typeExprs_isError outside at' n args h
    simp [typeExpr, any_isError_events, inner]
  | .original args loc, _ => by
    simp [typeExpr, any_isError_events, t.typeOriginal_isError outside]

theorem typeExprs_isError {cx : Context} (outside : cx.version? = none) (at' : Context) (n : Nat) :
    (es : List Expr) → Expr.anyCallsOriginal es = true →
      (TypedExpr.eventsOfAll at' (t.typeExprs cx n es).1).any Event.isError = true
  | [], h => by simp [Expr.anyCallsOriginal] at h
  | e :: es, h => by
    simp only [Expr.anyCallsOriginal, Bool.or_eq_true] at h
    simp only [typeExprs, TypedExpr.eventsOfAll, List.any_append, Bool.or_eq_true]
    exact h.imp (typeExpr_isError outside at' _ e) (typeExprs_isError outside at' _ es)

end

theorem version?_withScopes (cx : Context) (scopes : List (List Binding)) :
    (cx.withScopes scopes).version? = cx.version? := by
  obtain ⟨cls, fields, _ | body⟩ := cx <;> rfl

theorem evaluated_isError {cx : Context} (outside : cx.version? = none) (st st' : BodyState)
    {e : Expr} (h : e.callsOriginal = true) (ds : Diagnostics) :
    (evaluated cx st' (t.typeIn cx st e).1 ds).any Event.isError = true := by
  rw [evaluated, List.any_append, Bool.or_eq_true]
  exact .inl (t.typeExpr_isError (by rw [version?_withScopes, outside]) _ _ e h)

mutual

/-- Outside of methods, a statement that calls `original(..)` is reported. -/
theorem walkStmt_isError {cx : Context} (outside : cx.version? = none) (ret : Ty)
    (st : BodyState) : (s : Stmt) → s.callsOriginal = true →
      (t.walkStmt cx ret st s).2.any Event.isError = true
  | .skip _, h | .decl _ _ none _, h => by simp [Stmt.callsOriginal] at h
  | .ret value loc, h | .eval value loc, h | .assign target value loc, h
  | .decl type name (some value) loc, h => by
    simp [walkStmt, List.any_append, t.evaluated_isError outside st _ h]
  | .ite cond yes none loc, h => by
    simp only [Stmt.callsOriginal, Bool.or_eq_true] at h
    simp only [walkStmt, List.any_append, Bool.or_eq_true]
    exact .inl (h.imp (t.evaluated_isError outside st _ · _) (walkStmts_isError outside ret _ yes))
  | .ite cond yes (some no) loc, h => by
    simp only [Stmt.callsOriginal, Bool.or_eq_true] at h
    simp only [walkStmt, List.any_append, Bool.or_eq_true]
    exact .inl (h.imp (Or.imp (t.evaluated_isError outside st _ · _)
      (walkStmts_isError outside ret _ yes)) (walkStmts_isError outside ret _ no))
  | .loop cond body loc, h => by
    simp only [Stmt.callsOriginal, Bool.or_eq_true] at h
    simp only [walkStmt, List.any_append, Bool.or_eq_true]
    exact .inl (h.imp (t.evaluated_isError outside st _ · _)
      (walkStmts_isError outside ret _ body))

theorem walkStmts_isError {cx : Context} (outside : cx.version? = none) (ret : Ty)
    (st : BodyState) : (ss : List Stmt) → Stmt.anyCallsOriginal ss = true →
      (t.walkStmts cx ret st ss).2.any Event.isError = true
  | [], h => by simp [Stmt.anyCallsOriginal] at h
  | s :: ss, h => by
    simp only [Stmt.anyCallsOriginal, Bool.or_eq_true] at h
    simp only [walkStmts, List.any_append, Bool.or_eq_true]
    exact h.imp (walkStmt_isError outside ret st s) (walkStmts_isError outside ret _ ss)

end

/-- A body outside of methods whose traversal is clean calls no `original(..)`. -/
theorem walkBody_clean {cx : Context} {name : String} {ret : Ty} {params : List Binding}
    {before block : Block}
    (clean : (t.walkBody cx name none ret params before block).any Event.isError = false) :
    before.callsOriginal = false ∧ block.callsOriginal = false := by
  simp only [walkBody, List.any_cons, List.any_append, Bool.or_eq_false_iff] at clean
  obtain ⟨⟨⟨-, outer⟩, inner⟩, -⟩ := clean
  constructor
  · by_contra h
    rw [Bool.not_eq_false] at h
    rw [t.walkStmts_isError rfl _ _ before h] at outer
    cases outer
  · by_contra h
    rw [Bool.not_eq_false] at h
    rw [t.walkStmts_isError rfl _ _ block h] at inner
    cases inner

/-! ## Every class is traversed -/

theorem exists_unit_of_mem_entries {m : Model} {e : Entry Decl} (h : e ∈ m.entries) :
    ∃ unit, (unit, e.path.unit) ∈ m.units.zipIdx ∧
      e.path.module ∈ List.range unit.modules.length := by
  have found := Model.mem_entries_iff.1 h
  simp only [ Model.entry?, Option.bind_eq_bind, Option.bind_eq_some_iff] at found
  obtain ⟨unit, hu, module, hm, -⟩ := found
  exact ⟨unit, List.mem_zipIdx_iff_getElem?.2 hu,
    List.mem_range.2 (List.getElem?_eq_some_iff.1 hm).1⟩

theorem walkClass_subset_walkModel {m : Model} {c : Entry ClassDecl} (hc : c ∈ m.classEntries) :
    (SymbolTable.ofModel m).walkClass c ⊆ (SymbolTable.ofModel m).walkModel m := by
  obtain ⟨unit, inModel, inUnit⟩ := exists_unit_of_mem_entries (Model.mem_classEntries_iff.1 hc)
  have place : c ∈ ofModule (SymbolTable.ofModel m).classes c.path.unit c.path.module :=
    List.mem_filter.2 ⟨hc, by simp⟩
  intro e he
  rw [walkModel, List.mem_append, List.mem_flatMap]
  refine .inl ⟨(unit, c.path.unit), inModel, ?_⟩
  refine List.mem_flatMap.2 ⟨c.path.module, inUnit, List.mem_append_right _ ?_⟩
  exact List.mem_flatMap.2 ⟨c, place, he⟩

theorem walkInterface_subset_walkModel {m : Model} {i : Entry InterfaceDecl}
    (hi : i ∈ m.interfaceEntries) :
    (SymbolTable.ofModel m).walkInterface i ⊆ (SymbolTable.ofModel m).walkModel m := by
  obtain ⟨d, -, mem⟩ := Model.mem_narrow_iff.1 hi
  obtain ⟨unit, inModel, inUnit⟩ := exists_unit_of_mem_entries mem
  have place : i ∈ ofModule (SymbolTable.ofModel m).interfaces i.path.unit i.path.module :=
    List.mem_filter.2 ⟨hi, by simp⟩
  intro e he
  rw [walkModel, List.mem_append, List.mem_flatMap]
  refine .inl ⟨(unit, i.path.unit), inModel, ?_⟩
  refine List.mem_flatMap.2 ⟨i.path.module, inUnit, List.mem_append_left _ ?_⟩
  exact List.mem_flatMap.2 ⟨i, place, he⟩

/-- In a model whose traversal is clean, neither the initial values of fields nor initial blocks
call `original(..)`. -/
theorem original_outside_of_methods {m : Model}
    (clean : ((SymbolTable.ofModel m).walkModel m).any Event.isError = false)
    {c : Entry ClassDecl} (hc : c ∈ m.classEntries) :
    (fieldInits c.decl).callsOriginal = false ∧ (c.decl.init.getD []).callsOriginal = false := by
  have quiet : ((SymbolTable.ofModel m).walkBody
      ⟨c, ((SymbolTable.ofModel m).bindFields c).1, none⟩ initBody none .unit [] (fieldInits c.decl)
      (c.decl.init.getD [])).any Event.isError = false := by
    refine List.any_eq_false.2 fun e he => ?_
    refine List.any_eq_false.1 clean e (walkClass_subset_walkModel hc ?_)
    simp only [walkClass, List.mem_append]
    exact .inl (.inl (.inl (.inr he)))
  exact walkBody_clean _ quiet

end SymbolTable

end DeltaLang
