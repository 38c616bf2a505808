import DeltaLang.Proofs.Typing.Conservative
import DeltaLang.Proofs.Typing.Occurrences

/-!
# Methods that a class must have

A class must have a method for every name of a signature in an interface that it implements, or that
such an interface extends, however far.  Type checking reports each name that it has no method for,
once, while the class is traversed, and reports no other.  The same name may be required in many
ways, but reports are told apart by the name.
-/

namespace DeltaLang

/-! ## Lists without repeated keys -/

section

variable {α : Type} (key : α → String)

theorem map_eraseDupsBy (l : List α) :
    (l.eraseDupsBy fun a b => key a == key b).map key = (l.map key).eraseDups := by
  induction len : l.length using Nat.strong_induction_on generalizing l with
  | _ n ih =>
    subst len
    cases l with
    | nil => rfl
    | cons a l =>
      rw [List.eraseDupsBy_cons, List.map_cons, List.map_cons, List.eraseDups_cons,
        List.filter_map, ih _ (Nat.lt_succ_of_le (List.length_filter_le _ l)) _ rfl]
      have same : (fun b => decide ((key b == key a) = false)) = (! key · == key a) := by
        funext b
        cases key b == key a <;> rfl
      rw [same]
      rfl

theorem nodup_eraseDups (l : List String) : l.eraseDups.Nodup := by
  induction len : l.length using Nat.strong_induction_on generalizing l with
  | _ n ih =>
    subst len
    cases l with
    | nil => exact List.nodup_nil
    | cons a l =>
      rw [List.eraseDups_cons, List.nodup_cons]
      exact ⟨by simp, ih _ (Nat.lt_succ_of_le (List.length_filter_le _ l)) _ rfl⟩

theorem eraseDupsBy_subset {r : α → α → Bool} (l : List α) : l.eraseDupsBy r ⊆ l := by
  induction len : l.length using Nat.strong_induction_on generalizing l with
  | _ n ih =>
    subst len
    cases l with
    | nil => exact List.Subset.refl _
    | cons a l =>
      rw [List.eraseDupsBy_cons]
      refine List.cons_subset_cons a fun b mem => ?_
      exact (List.mem_filter.1
        (ih _ (Nat.lt_succ_of_le (List.length_filter_le _ l)) _ rfl mem)).1

end

/-! ## Findings about missing methods -/

/-- Whether the finding is that a class has no method of a required name. -/
def Diagnostic.isMissing (d : Diagnostic) : Bool := d.kind == .missingInterfaceMethod

/-- The findings about missing methods among the events. -/
def missingIn (es : List Event) : Diagnostics := (findingsOf es).filter Diagnostic.isMissing

section

variable {es es' : List Event}

theorem missingIn_append (es es' : List Event) :
    missingIn (es ++ es') = missingIn es ++ missingIn es' := by
  rw [missingIn, findingsOf_append, List.filter_append]
  rfl

theorem missingIn_findings (ds : Diagnostics) :
    missingIn (ds.map .finding) = ds.filter Diagnostic.isMissing := by
  have all : findingsOf (ds.map .finding) = ds := by
    rw [findingsOf, List.filterMap_map]
    exact List.filterMap_some
  rw [missingIn, all]

theorem missingIn_flatMap {α : Type} (l : List α) (f : α → List Event) :
    missingIn (l.flatMap f) = l.flatMap fun a => missingIn (f a) := by
  simp only [missingIn, findingsOf, List.filterMap_flatMap, List.filter_flatMap]

theorem missingIn_visit (cx : Option Context) (v : Visit) : missingIn [.visit cx v] = [] := rfl

end

/-! ## Whoever looks on -/

section

variable {σ : Type} {m : Model} {t : SymbolTable}

/-- Extensions report no missing methods. -/
theorem Checked.missing_performAll (name : String) (c : Checked) (es : List Effect) :
    (es.foldl (Checked.perform name) c).findings.filter Diagnostic.isMissing =
      c.findings.filter Diagnostic.isMissing := by
  induction es generalizing c with
  | nil => rfl
  | cons e es ih =>
    rw [List.foldl_cons, ih]
    cases e with
    | report d => exact (List.filter_append _ _).trans (List.append_nil _)
    | annotate node value => rfl

theorem missing_observeAll (cx : Option Context) (v : Visit) (r : Registry σ) (c : Checked) :
    (observeAll m t cx v r c).checked.findings.filter Diagnostic.isMissing =
      c.findings.filter Diagnostic.isMissing := by
  induction r generalizing c with
  | nil => rfl
  | cons e es ih => exact (ih _).trans (c.missing_performAll e.name _)

theorem missing_configureAll (r : Registry σ) (c : Checked) :
    (configureAll m t r c).1.checked.findings.filter Diagnostic.isMissing =
      c.findings.filter Diagnostic.isMissing := by
  induction r generalizing c with
  | nil => rfl
  | cons e es ih =>
    rw [configureAll]
    cases e.configure (e.view m t c none) e.state with
    | error err => rfl
    | ok result => exact (ih _).trans (c.missing_performAll e.name _)

/-- Following events adds the findings about missing methods among them. -/
theorem missing_followAll (es : List Event) (p : Progress σ) :
    (es.foldl (Progress.follow m t) p).checked.findings.filter Diagnostic.isMissing =
      p.checked.findings.filter Diagnostic.isMissing ++ missingIn es := by
  induction es generalizing p with
  | nil => exact (List.append_nil _).symm
  | cons e es ih =>
    rw [List.foldl_cons, ih, ← List.singleton_append, missingIn_append, ← List.append_assoc]
    refine congrArg (· ++ missingIn es) ?_
    cases e with
    | finding d => exact List.filter_append _ _
    | visit cx v =>
      rw [missingIn_visit, List.append_nil]
      exact missing_observeAll cx v p.registry p.checked

/-- Type checking reports the missing methods that the traversal reports. -/
theorem missing_typeCheck {r : Registry σ} {out : Checked} (checked : (typeCheck m r).1 = .ok out) :
    out.findings.filter Diagnostic.isMissing = missingIn ((SymbolTable.ofModel m).walkModel m) := by
  cases failure : (configureAll m (.ofModel m) r .empty).2 with
  | some err => simp [typeCheck, failure] at checked
  | none =>
    simp only [typeCheck, failure, Except.ok.injEq] at checked
    rw [← checked, missing_followAll, missing_configureAll]
    rfl

end

/-! ## Findings about anything else -/

namespace SymbolTable

variable {t : SymbolTable}

theorem missing_checkType (module : String) (u : TypeUse) (loc : Option Location) :
    (t.checkType module u loc).2.filter Diagnostic.isMissing = [] := by
  rw [checkType]
  split <;> rfl

theorem missing_expectAssignable (found expected : Ty) (what : String) (loc : Option Location) :
    (t.expectAssignable found expected what loc).filter Diagnostic.isMissing = [] := by
  rw [expectAssignable]
  split <;> rfl

theorem missing_checkArgs (what : String) (params : List Param) (module : String)
    (found : List Ty) (loc : Option Location) :
    (t.checkArgs what params module found loc).filter Diagnostic.isMissing = [] := by
  rw [checkArgs]
  split
  · rfl
  · rw [List.filter_flatMap]
    exact List.flatMap_eq_nil_iff.2 fun _ _ => missing_expectAssignable _ _ _ _

theorem missing_lookupMethod (receiver : Ty) (method : String) (loc : Option Location) :
    (t.lookupMethod receiver method loc).2.filter Diagnostic.isMissing = [] := by
  unfold lookupMethod
  split
  · rfl
  · split
    · rfl
    · split <;> rfl
  · split
    · rfl
    · dsimp only
      split <;> rfl
  · rfl

theorem missing_targetType (cx : Context) (loc : Option Location) (target : Target) :
    (targetType cx loc target).2.filter Diagnostic.isMissing = [] := by
  cases target <;> rw [targetType] <;> split <;> rfl

/-! ## Expressions -/

theorem missing_typeVar (cx : Context) (name : String) (loc : Option Location) :
    (typeVar cx name loc).findings.filter Diagnostic.isMissing = [] := by
  rw [typeVar]
  split <;> rfl

theorem missing_typeField (cx : Context) (name : String) (loc : Option Location) :
    (typeField cx name loc).findings.filter Diagnostic.isMissing = [] := by
  rw [typeField]
  split <;> rfl

theorem missing_typeUnary (op : UnaryOp) (found : Ty) (loc : Option Location) :
    (t.typeUnary op found loc).findings.filter Diagnostic.isMissing = [] :=
  missing_expectAssignable _ _ _ _

theorem missing_typeOperands (op : BinaryOp) (l r operand result : Ty) (loc : Option Location) :
    (t.typeOperands op l r operand result loc).findings.filter Diagnostic.isMissing = [] := by
  simp only [typeOperands, List.filter_append, missing_expectAssignable, List.append_nil]

theorem missing_typeBinary (op : BinaryOp) (l r : Ty) (loc : Option Location) :
    (t.typeBinary op l r loc).findings.filter Diagnostic.isMissing = [] := by
  unfold typeBinary
  split
  case h_3 | h_4 =>
    split <;> rfl
  all_goals
    try split
    all_goals exact missing_typeOperands _ _ _ _ _ _

theorem missing_typeCall (receiver : Ty) (method : String) (args : List Ty) (async : Bool)
    (loc : Option Location) :
    (t.typeCall receiver method args async loc).findings.filter Diagnostic.isMissing = [] := by
  have callee := missing_lookupMethod (t := t) receiver method loc
  unfold typeCall
  split
  · rename_i found
    rw [found] at callee
    exact callee
  · rename_i found
    rw [found] at callee
    rw [List.filter_append, callee, missing_checkArgs, List.append_nil]

theorem missing_typeGet (future : Ty) (loc : Option Location) :
    (typeGet future loc).findings.filter Diagnostic.isMissing = [] := by
  unfold typeGet
  split <;> rfl

theorem missing_typeNew (module cls : String) (args : List Ty) (loc : Option Location) :
    (t.typeNew module cls args loc).findings.filter Diagnostic.isMissing = [] := by
  rw [typeNew]
  split
  · exact missing_checkArgs _ _ _ _ _
  · rfl
  · rfl

theorem missing_typeOriginal (cx : Context) (args : List Ty) (loc : Option Location) :
    (t.typeOriginal cx args loc).findings.filter Diagnostic.isMissing = [] := by
  rw [typeOriginal]
  split
  · exact missing_checkArgs _ _ _ _ _
  · rfl

theorem missingIn_typed {cx : Context} {e : Expr} {ty : Typing} {parts : List TypedExpr} {n : Nat}
    (inner : missingIn (TypedExpr.eventsOfAll cx parts) = [])
    (own : ty.findings.filter Diagnostic.isMissing = []) :
    missingIn ((typed e ty parts n).events cx) = [] := by
  rw [typed, TypedExpr.events, missingIn_append, missingIn_append, missingIn_findings, inner, own]
  rfl

mutual

/-- The findings about an expression are not about missing methods. -/
theorem missingIn_typeExpr (t : SymbolTable) (cx at' : Context) (n : Nat) :
    (e : Expr) → missingIn ((t.typeExpr cx n e).events at') = []
  | .bool .. | .int .. | .str .. | .null _ | .this _ => by
    rw [typeExpr]
    exact missingIn_typed rfl rfl
  | .var .. => by
    rw [typeExpr]
    exact missingIn_typed rfl (missing_typeVar _ _ _)
  | .field .. => by
    rw [typeExpr]
    exact missingIn_typed rfl (missing_typeField _ _ _)
  | .unary _ operand _ => by
    rw [typeExpr]
    refine missingIn_typed ?_ (missing_typeUnary _ _ _)
    rw [eventsOfAll_singleton, missingIn_typeExpr t cx at' n operand]
  | .binary _ lhs rhs _ => by
    rw [typeExpr]
    refine missingIn_typed ?_ (missing_typeBinary _ _ _ _)
    rw [TypedExpr.eventsOfAll, eventsOfAll_singleton, missingIn_append,
      missingIn_typeExpr t cx at' _ lhs, missingIn_typeExpr t cx at' _ rhs]
    rfl
  | .call target _ args _ _ => by
    rw [typeExpr]
    refine missingIn_typed ?_ (missing_typeCall _ _ _ _ _)
    rw [TypedExpr.eventsOfAll, missingIn_append, missingIn_typeExpr t cx at' _ target,
      missingIn_typeExprs t cx at' _ args]
    rfl
  | .get future _ => by
    rw [typeExpr]
    refine missingIn_typed ?_ (missing_typeGet _ _)
    rw [eventsOfAll_singleton, missingIn_typeExpr t cx at' n future]
  | .new _ args _ _ => by
    rw [typeExpr]
    exact missingIn_typed (missingIn_typeExprs t cx at' n args) (missing_typeNew _ _ _ _)
  | .original args _ => by
    rw [typeExpr]
    exact missingIn_typed (missingIn_typeExprs t cx at' n args) (missing_typeOriginal _ _ _)

theorem missingIn_typeExprs (t : SymbolTable) (cx at' : Context) (n : Nat) :
    (es : List Expr) → missingIn (TypedExpr.eventsOfAll at' (t.typeExprs cx n es).1) = []
  | [] => rfl
  | e :: es => by
    rw [typeExprs, TypedExpr.eventsOfAll, missingIn_append, missingIn_typeExpr t cx at' n e,
      missingIn_typeExprs t cx at' _ es]
    rfl

end

/-! ## Statements -/

theorem missingIn_evaluated (cx : Context) (st st' : BodyState) (e : Expr) {ds : Diagnostics}
    (own : ds.filter Diagnostic.isMissing = []) :
    missingIn (evaluated cx st' (t.typeIn cx st e).1 ds) = [] := by
  rw [evaluated, missingIn_append, missingIn_findings, own, typeIn, missingIn_typeExpr]
  rfl

theorem missingIn_visited (cx : Context) (st : BodyState) (s : Stmt) (value : Option TypedExpr) :
    missingIn [visited cx st s value] = [] := rfl

mutual

/-- The findings about a statement are not about missing methods. -/
theorem missingIn_walkStmt (t : SymbolTable) (cx : Context) (ret : Ty) (st : BodyState) :
    (s : Stmt) → missingIn (t.walkStmt cx ret st s).2 = []
  | .skip _ => rfl
  | .decl _ _ none _ => by
    simp only [walkStmt, missingIn_append, missingIn_findings, missing_checkType,
      missingIn_visited, List.append_nil]
  | .ret .. => by
    simp only [walkStmt, missingIn_append, missingIn_visited, missingIn_evaluated,
      missing_expectAssignable, List.append_nil]
  | .eval value _ => by
    simp only [walkStmt, missingIn_append, missingIn_visited, List.append_nil]
    exact missingIn_evaluated cx st _ value rfl
  | .decl _ _ (some _) _ => by
    simp only [walkStmt, missingIn_append, missingIn_findings, missing_checkType,
      missingIn_visited, missingIn_evaluated, missing_expectAssignable, List.append_nil]
  | .assign target value loc => by
    simp only [walkStmt, missingIn_append, missingIn_visited, List.append_nil]
    refine missingIn_evaluated cx st _ value ?_
    rw [List.filter_append, missing_targetType, List.nil_append]
    split
    · exact missing_expectAssignable _ _ _ _
    · rfl
  | .ite cond yes none _ => by
    simp only [walkStmt, missingIn_append, missingIn_visited, missingIn_evaluated,
      missing_expectAssignable, missingIn_walkStmts t cx ret _ yes, List.append_nil]
  | .ite cond yes (some no) _ => by
    simp only [walkStmt, missingIn_append, missingIn_visited, missingIn_evaluated,
      missing_expectAssignable, missingIn_walkStmts t cx ret _ yes,
      missingIn_walkStmts t cx ret _ no, List.append_nil]
  | .loop cond body _ => by
    simp only [walkStmt, missingIn_append, missingIn_visited, missingIn_evaluated,
      missing_expectAssignable, missingIn_walkStmts t cx ret _ body, List.append_nil]

theorem missingIn_walkStmts (t : SymbolTable) (cx : Context) (ret : Ty) (st : BodyState) :
    (ss : List Stmt) → missingIn (t.walkStmts cx ret st ss).2 = []
  | [] => rfl
  | s :: ss => by
    rw [walkStmts, missingIn_append, missingIn_walkStmt t cx ret st s,
      missingIn_walkStmts t cx ret _ ss]
    rfl

end

/-! ## Classes and interfaces -/

theorem missingIn_walkBody (cx : Context) (name : String) (version : Option Version) (ret : Ty)
    (params : List Binding) (prelude block : Block) :
    missingIn (t.walkBody cx name version ret params prelude block) = [] := by
  let cx' : Context := { cx with body := some ⟨name, version, ret, [params]⟩ }
  change missingIn ([.visit cx' (.beforeBody block)] ++
    (t.walkStmts cx' ret ⟨[params], 0, 0⟩ prelude).2 ++ _ ++ [.visit cx' (.afterBody block)]) = []
  simp only [missingIn_append, missingIn_visit, missingIn_walkStmts, List.append_nil]

theorem missingIn_walkVersion (cx : Context) (v : Version) (i : Nat) :
    missingIn (t.walkVersion cx v i) = [] := by
  simp only [walkVersion, missingIn_append, missingIn_findings, missingIn_walkBody, bindParams_eq,
    List.filter_append, List.filter_flatMap, missing_checkType, List.append_nil]
  exact List.flatMap_eq_nil_iff.2 fun _ _ => rfl

theorem missingIn_walkInterface (i : Entry InterfaceDecl) : missingIn (t.walkInterface i) = [] := by
  simp only [walkInterface, missingIn_findings, List.filter_flatMap, List.filter_append,
    missing_checkType, List.nil_append]
  exact List.flatMap_eq_nil_iff.2 fun _ _ => List.flatMap_eq_nil_iff.2 fun _ _ => rfl

theorem isMissing_of_mem_missingMethods {cx : Context} {d : Diagnostic}
    (mem : d ∈ t.missingMethods cx) : d.isMissing = true := by
  obtain ⟨_, -, rfl⟩ := List.mem_map.1 mem
  rfl

/-- The traversal of a class reports the missing methods of the class. -/
theorem missingIn_walkClass (c : Entry ClassDecl) :
    missingIn (t.walkClass c) = t.missingMethods (t.classContext c) := by
  have fields : (t.bindFields c).2.filter Diagnostic.isMissing = [] := by
    simp only [snd_bindFields, List.filter_append, List.filter_flatMap, missing_checkType,
      List.append_eq_nil_iff]
    exact ⟨List.flatMap_eq_nil_iff.2 fun _ _ => rfl, List.flatMap_eq_nil_iff.2 fun _ _ => rfl⟩
  have own : (t.missingMethods (t.classContext c)).filter Diagnostic.isMissing =
      t.missingMethods (t.classContext c) :=
    List.filter_eq_self.2 fun _ mem => isMissing_of_mem_missingMethods mem
  have nothing {α : Type} (l : List α) : l.flatMap (fun _ => ([] : Diagnostics)) = [] :=
    List.flatMap_eq_nil_iff.2 fun _ _ => rfl
  rw [walkClass]
  simp only [missingIn_append, missingIn_findings, missingIn_visit, missingIn_flatMap,
    missingIn_walkBody, missingIn_walkVersion, fields, nothing, List.nil_append, List.append_nil]
  exact own

/-- The traversal of a model reports the missing methods of its classes, in order. -/
theorem missingIn_walkModel (m : Model) :
    missingIn ((ofModel m).walkModel m) =
      m.classEntries.flatMap fun c => missingIn ((ofModel m).walkClass c) := by
  have nothing (is : List (Entry InterfaceDecl)) :
      is.flatMap (fun _ => ([] : Diagnostics)) = [] :=
    List.flatMap_eq_nil_iff.2 fun _ _ => rfl
  simp only [walkModel, missingIn_append, missingIn_flatMap, missingIn_visit,
    missingIn_walkInterface, nothing, List.nil_append, List.append_nil]
  exact flatMap_ofModule m Decl.class? _

/-! ## Required names -/

/-- An interface that the class names reaches one that has a signature of the name. -/
def RequiresBy (t : SymbolTable) (c : Entry ClassDecl) (j : Entry InterfaceDecl) (name : String) :
    Prop :=
  (∃ i ∈ t.implemented c, t.Reaches i j) ∧ name ∈ j.decl.methods.map (·.name)

/-- The class must have a method of the name. -/
def Requires (t : SymbolTable) (c : Entry ClassDecl) (name : String) : Prop :=
  ∃ j, t.RequiresBy c j name

/-- The finding is that the class has no method of the name, which an interface requires. -/
def ReportsMissing (t : SymbolTable) (c : Entry ClassDecl) (name : String) (d : Diagnostic) :
    Prop :=
  ∃ j, t.RequiresBy c j name ∧ d = .errorAt .missingInterfaceMethod
    ("class " ++ c.qualifiedName ++ " does not implement method " ++ name ++ " of interface " ++
      j.name) c.decl.loc

end SymbolTable

theorem ClassDecl.method?_isNone_iff {c : ClassDecl} {name : String} :
    (c.method? name).isNone = true ↔ name ∉ c.methods.map (·.name) := by
  simp [ClassDecl.method?]

namespace SymbolTable

variable {t : SymbolTable} {c : Entry ClassDecl}

/-- The names that interfaces require of a class, each with the name of an interface that does. -/
def required (t : SymbolTable) (c : Entry ClassDecl) : List (String × String) :=
  (t.implementedInterfaces c).flatMap fun i => i.decl.methods.map fun sig => (sig.name, i.name)

theorem mem_required_iff (placed : t.Placed) {name interface : String} :
    (name, interface) ∈ t.required c ↔ ∃ j, t.RequiresBy c j name ∧ j.name = interface := by
  have reached {j : Entry InterfaceDecl} :
      j ∈ t.implementedInterfaces c ↔ ∃ i ∈ t.implemented c, t.Reaches i j :=
    mem_closure_iff placed fun _ mem => mem_interfaces_of_mem_implemented mem
  simp only [required, List.mem_flatMap, List.mem_map, Prod.mk.injEq, reached, RequiresBy]
  constructor
  · rintro ⟨j, reaches, sig, declared, rfl, rfl⟩
    exact ⟨j, ⟨reaches, sig, declared, rfl⟩, rfl⟩
  · rintro ⟨j, ⟨reaches, sig, declared, rfl⟩, rfl⟩
    exact ⟨j, reaches, sig, declared, rfl, rfl⟩

/-- The names that are required of a class and that it has no method for, each once. -/
theorem exists_missing (placed : t.Placed) (c : Entry ClassDecl) :
    ∃ names : List String, names.Nodup ∧
      (∀ name, name ∈ names ↔ t.Requires c name ∧ name ∉ c.decl.methods.map (·.name)) ∧
      List.Forall₂ (t.ReportsMissing c) names (t.missingMethods (t.classContext c)) := by
  let missing := (t.required c).filter fun x => (c.decl.method? x.1).isNone
  let firsts := missing.eraseDupsBy fun a b => a.1 == b.1
  have names : firsts.map Prod.fst = (missing.map Prod.fst).eraseDups := map_eraseDupsBy _ _
  have mem_missing {name interface : String} : (name, interface) ∈ missing ↔
      (name, interface) ∈ t.required c ∧ name ∉ c.decl.methods.map (·.name) := by
    rw [List.mem_filter]
    exact and_congr_right fun _ => ClassDecl.method?_isNone_iff
  refine ⟨firsts.map Prod.fst, names ▸ nodup_eraseDups _, fun name => ?_, ?_⟩
  · rw [names, List.mem_eraseDups]
    constructor
    · intro named
      obtain ⟨⟨_, interface⟩, mem, rfl⟩ := List.mem_map.1 named
      obtain ⟨needed, absent⟩ := mem_missing.1 mem
      obtain ⟨j, requires, -⟩ := (mem_required_iff placed).1 needed
      exact ⟨⟨j, requires⟩, absent⟩
    · rintro ⟨⟨j, requires⟩, absent⟩
      have needed := (mem_required_iff placed).2 ⟨j, requires, rfl⟩
      exact List.mem_map.2 ⟨(name, j.name), mem_missing.2 ⟨needed, absent⟩, rfl⟩
  · change List.Forall₂ _ _ (firsts.map _)
    rw [List.forall₂_map_left_iff, List.forall₂_map_right_iff, List.forall₂_same]
    rintro ⟨name, interface⟩ mem
    obtain ⟨j, requires, rfl⟩ :=
      (mem_required_iff placed).1 (mem_missing.1 (eraseDupsBy_subset _ mem)).1
    exact ⟨j, requires, rfl⟩

end SymbolTable

/-! ## Type checking -/

namespace Model

open SymbolTable

/-- Type checking reports the methods that classes miss class by class.  What it reports while it
traverses a class matches the names that are required of the class and that it has no method for,
name by name, so it reports nothing just if the class has a method for every name required. -/
theorem missing_methods_reported_once {σ : Type} {m : Model} {r : Registry σ} {out : Checked}
    (checked : (typeCheck m r).1 = .ok out) :
    ∃ found : Entry ClassDecl → Diagnostics,
      out.findings.filter Diagnostic.isMissing = m.classEntries.flatMap found ∧
      ∀ c ∈ m.classEntries,
        (∀ p : Progress σ,
          let after := ((ofModel m).walkClass c).foldl (Progress.follow m (ofModel m)) p
          after.checked.findings.filter Diagnostic.isMissing =
            p.checked.findings.filter Diagnostic.isMissing ++ found c) ∧
        (∃ names : List String, names.Nodup ∧
          (∀ name, name ∈ names ↔
            (ofModel m).Requires c name ∧ name ∉ c.decl.methods.map (·.name)) ∧
          List.Forall₂ ((ofModel m).ReportsMissing c) names (found c)) ∧
        (found c = [] ↔
          ∀ name, (ofModel m).Requires c name → name ∈ c.decl.methods.map (·.name)) := by
  refine ⟨fun c => missingIn ((ofModel m).walkClass c),
    (missing_typeCheck checked).trans (missingIn_walkModel m), fun c _ => ?_⟩
  obtain ⟨names, nodup, mem_names, reports⟩ := exists_missing (placed_ofModel m) c
  rw [← missingIn_walkClass] at reports
  refine ⟨fun p => missing_followAll _ p, ⟨names, nodup, mem_names, reports⟩, ?_⟩
  have none : missingIn ((ofModel m).walkClass c) = [] ↔ names = [] := by
    rw [← List.length_eq_zero_iff, ← reports.length_eq, List.length_eq_zero_iff]
  rw [none, List.eq_nil_iff_forall_not_mem]
  constructor
  · intro empty name requires
    by_contra absent
    exact empty name ((mem_names name).2 ⟨requires, absent⟩)
  · intro complete name mem
    obtain ⟨requires, absent⟩ := (mem_names name).1 mem
    exact absent (complete name requires)

/-- Two interfaces extend one that extends the first again, all three have signatures of one name,
and one class that implements both lacks that method while another one has all methods. -/
def halfImplementedModel : Model :=
  let sig (name : String) : Signature := { (default : Signature) with name := name }
  let method (name : String) : Method := .ofVersion ⟨sig name, []⟩
  ⟨[⟨none, [⟨"M", [.interface ⟨"I", ["Base"], [sig "run", sig "get"], none⟩,
    .interface ⟨"J", ["Nowhere", "Base"], [sig "get", sig "get"], none⟩,
    .interface ⟨"Base", ["I"], [sig "get", sig "close"], none⟩,
    .class { (default : ClassDecl) with
      name := "Half", implements := ["I", "J", "I"], methods := [method "run"] },
    .class { (default : ClassDecl) with
      name := "Whole", implements := ["J"], methods := ["run", "get", "close"].map method }],
    none⟩]⟩]⟩

theorem missing_methods_halfImplementedModel :
    ∃ out, (typeCheck halfImplementedModel ([] : Registry Unit)).1 = .ok out ∧
      ((out.findings.filter Diagnostic.isMissing).map (·.message)) =
        ["class M.Half does not implement method get of interface I",
          "class M.Half does not implement method close of interface Base"] ∧
      ∃ found : Entry ClassDecl → Diagnostics,
        out.findings.filter Diagnostic.isMissing =
          halfImplementedModel.classEntries.flatMap found ∧
        ∃ c ∈ halfImplementedModel.classEntries, c.name = "Whole" ∧ found c = [] := by
  obtain ⟨out, checked, messages⟩ : ∃ out,
      (typeCheck halfImplementedModel ([] : Registry Unit)).1 = .ok out ∧
        ((out.findings.filter Diagnostic.isMissing).map (·.message)) =
          ["class M.Half does not implement method get of interface I",
            "class M.Half does not implement method close of interface Base"] :=
    exists_of_map_toOption (by decide +kernel)
  obtain ⟨found, all, each⟩ := missing_methods_reported_once checked
  obtain ⟨c, mem, named, complete⟩ : ∃ c ∈ halfImplementedModel.classEntries, c.name = "Whole" ∧
      ∀ p ∈ (ofModel halfImplementedModel).required c, p.1 ∈ c.decl.methods.map (·.name) := by
    decide +kernel
  refine ⟨out, checked, messages, found, all, c, mem, named, (each c mem).2.2.2 ?_⟩
  rintro name ⟨j, requires⟩
  exact complete (name, j.name) ((mem_required_iff (placed_ofModel _)).2 ⟨j, requires, rfl⟩)

end Model

end DeltaLang
