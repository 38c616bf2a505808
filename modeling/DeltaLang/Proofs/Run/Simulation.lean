import DeltaLang.Proofs.Run.Calls

/-!
# Runs follow the traversal

Where the traversal of a body is quiet, running the body keeps to what is checked: expressions are
evaluated in frames that fit the contexts they are typed in, and statements lead from frames that
fit the scopes before to frames that fit the scopes after, unless they return.  So an activation
keeps to what is checked if those within it do.
-/

namespace DeltaLang

/-- After statements, the frame fits the scopes if nothing is returned, and a value that is returned
is of the type. -/
def Ends (t : SymbolTable) (strict : Prop) (cx : Context) (ret : Ty)
    (scopes : List (List Binding)) (classes : List (Entry ClassDecl))
    (r : Frame × Option Value) : Prop :=
  match r.2 with
  | none => r.1.Fits t strict classes (cx.withScopes scopes)
  | some v => strict → v.HasType t classes ret

theorem ends_of_fits {t : SymbolTable} {strict : Prop} {cx : Context} {ret : Ty}
    {scopes scopes' : List (List Binding)} {classes : List (Entry ClassDecl)} {fr : Frame}
    (fits : fr.Fits t strict classes (cx.withScopes scopes)) (same : scopes' = scopes) :
    Ends t strict cx ret scopes' classes (fr, none) := same ▸ fits

/-- Activations that fit keep to what is checked, and what they yield is of their type. -/
def Run.SoundActivations (t : SymbolTable) (strict : Prop) (activate : Activation → Run Value) :
    Prop :=
  ∀ classes a, a.Fits t strict classes →
    Sound t strict classes (activate a) fun classes' v => strict → v.HasType t classes' (a.type t)

section

open Run

variable {t : SymbolTable} {strict : Prop} {classes : List (Entry ClassDecl)} {budget : Nat}
  {activate : Activation → Run Value} {cx : Context} {fr : Frame} {name : String} {b : Binding}

/-! ## Names -/

/-- The object that the frame is of has the fields of its class. -/
theorem sound_this (fits : fr.Fits t strict classes cx) (bound : cx.field? name = some b) :
    Sound t strict classes (object fr.this) fun classes' o =>
      ∃ v, o.field? name = some v ∧ b.Admits t strict classes' v := by
  refine (sound_object fr.this).mono fun o classes' grown ⟨here, fitting⟩ => ?_
  have same : o.cls = cx.cls :=
    Option.some.inj (here.symm.trans (getElem?_of_grown fits.this grown))
  rw [Context.field?, fits.fields, ← same] at bound
  exact fitting.fields.exists_of_find? bound

theorem sound_evalVar (fits : fr.Fits t strict classes cx) (bound : cx.lookup name = some b) :
    Sound t strict classes (evalVar fr name) fun classes' v => b.Admits t strict classes' v := by
  rw [Context.lookup_eq] at bound
  have related := Matches.flatten fits.scopes
  unfold evalVar
  cases local? : cx.scopes.flatten.find? (·.name == name) with
  | some b' =>
    obtain ⟨v, value, admits⟩ := related.exists_of_find? local?
    rw [local?, Option.some_or] at bound
    obtain rfl := Option.some.inj bound
    rw [Frame.lookup, value]
    exact sound_pure fun classes' grown => admits.mono grown
  | none =>
    rw [local?, Option.none_or] at bound
    rw [Frame.lookup, related.lookup_eq_none local?]
    refine (sound_this fits bound).bind fun o classes' grown ⟨v, value, admits⟩ => ?_
    rw [value]
    exact sound_pure fun classes'' grown' => admits.mono grown'

theorem sound_evalField (fits : fr.Fits t strict classes cx) (bound : cx.field? name = some b) :
    Sound t strict classes (evalField fr name) fun classes' v => b.Admits t strict classes' v := by
  refine (sound_this fits bound).bind fun o classes' grown ⟨v, value, admits⟩ => ?_
  rw [value]
  exact sound_pure fun classes'' grown' => admits.mono grown'

/-! ## Expressions -/

theorem type_typed (e : Expr) (ty : Typing) (parts : List TypedExpr) (n : Nat) :
    (SymbolTable.typed e ty parts n).type = ty.type := rfl

mutual

theorem sound_evalExpr (traversed : t.Traversed strict)
    (within : SoundActivations t strict activate) {classes : List (Entry ClassDecl)}
    (fits : fr.Fits t strict classes cx) (n : Nat) :
    (e : Expr) → Quiet strict ((t.typeExpr cx n e).events cx) →
      Sound t strict classes (evalExpr t activate fr e) fun classes' v =>
        strict → v.HasType t classes' (t.typeExpr cx n e).type
  | .bool .., _ | .int .., _ | .str .., _ | .null _, _ => by
    rw [evalExpr]
    refine sound_pure fun classes' grown h => ?_
    simp only [SymbolTable.typeExpr, type_typed, Typing.clean]
    trivial
  | .this _, _ => by
    rw [evalExpr]
    exact sound_pure fun classes' grown h =>
      Value.hasType_class.2 ⟨cx.cls, getElem?_of_grown fits.this grown, rfl⟩
  | .var name loc, quiet => by
    simp only [SymbolTable.typeExpr, SymbolTable.quiet_events] at quiet
    obtain ⟨b, bound, type⟩ := SymbolTable.exists_of_typeVar quiet.2
    rw [evalExpr]
    refine (sound_evalVar fits bound).mono fun v classes' grown admits h => ?_
    simp only [SymbolTable.typeExpr, type_typed, type]
    exact admits h
  | .field name loc, quiet => by
    simp only [SymbolTable.typeExpr, SymbolTable.quiet_events] at quiet
    obtain ⟨b, bound, type⟩ := SymbolTable.exists_of_typeField quiet.2
    rw [evalExpr]
    refine (sound_evalField fits bound).mono fun v classes' grown admits h => ?_
    simp only [SymbolTable.typeExpr, type_typed, type]
    exact admits h
  | .unary op operand loc, quiet => by
    simp only [SymbolTable.typeExpr, SymbolTable.quiet_events,
      SymbolTable.quiet_eventsOfAll_cons] at quiet
    rw [evalExpr]
    refine (sound_evalExpr traversed within fits n operand quiet.1.1).bind fun v _ _ _ => ?_
    refine (sound_ofValues fun _ => op.apply_fault).mono fun v' _ _ result h => ?_
    simp only [SymbolTable.typeExpr, type_typed]
    exact UnaryOp.hasType_apply result _ loc
  | .binary op lhs rhs loc, quiet => by
    simp only [SymbolTable.typeExpr, SymbolTable.quiet_events,
      SymbolTable.quiet_eventsOfAll_cons] at quiet
    obtain ⟨⟨left, right, -⟩, -⟩ := quiet
    simp only [SymbolTable.typeExpr, type_typed, BinaryOp.type_typeBinary]
    rw [evalExpr]
    refine (sound_evalExpr traversed within fits n lhs left).bind fun a _ grown ha => ?_
    refine (sound_ofValues fun _ => BinaryOp.first_fault).bind fun result _ grown' isFirst => ?_
    split
    -- the left operand may decide alone
    · exact sound_pure fun _ _ _ => BinaryOp.hasType_first isFirst _ _
    · have fits' := fits.mono (grown.trans grown')
      refine (sound_evalExpr traversed within fits' _ rhs right).bind fun b _ grown'' hb => ?_
      refine (sound_ofValues fun _ => BinaryOp.both_fault).mono fun v _ last isBoth h => ?_
      have ha' := (ha h).mono (grown'.trans (grown''.trans last))
      exact BinaryOp.hasType_both isBoth ha' ((hb h).mono last)
  | .call target method args async loc, quiet => by
    simp only [SymbolTable.typeExpr, SymbolTable.quiet_events,
      SymbolTable.quiet_eventsOfAll_cons] at quiet
    obtain ⟨⟨receiver, arguments⟩, tolerated⟩ := quiet
    simp only [SymbolTable.typeExpr, type_typed]
    rw [evalExpr]
    refine (sound_evalExpr traversed within fits n target receiver).bind fun v _ grown hv => ?_
    refine (sound_ofValues fun _ => v.asReceiver_fault).bind fun id _ grown' isObject => ?_
    have fits' := fits.mono (grown.trans grown')
    refine (sound_evalExprs traversed within fits' _ args arguments).bind
      fun values _ grown'' hvalues => ?_
    obtain rfl : v = .object id := by cases v <;> cases isObject; rfl
    have typed := fun h => (hv h).mono (grown'.trans grown'')
    refine (sound_call traversed typed hvalues tolerated).bind fun a _ _ ⟨ha, yields⟩ => ?_
    refine (within _ a ha).bind fun result _ _ hresult => sound_pure fun _ last h => ?_
    exact yields h _ result ((hresult h).mono last)
  | .get future loc, quiet => by
    simp only [SymbolTable.typeExpr, SymbolTable.quiet_events,
      SymbolTable.quiet_eventsOfAll_cons] at quiet
    simp only [SymbolTable.typeExpr, type_typed]
    rw [evalExpr]
    refine (sound_evalExpr traversed within fits n future quiet.1.1).bind fun v _ _ hv => ?_
    refine (sound_ofValues fun _ => v.awaited_fault).mono fun v' _ grown result h => ?_
    exact Value.hasType_awaited result ((hv h).mono grown) loc
  | .new cls args isLocal loc, quiet => by
    simp only [SymbolTable.typeExpr, SymbolTable.quiet_events] at quiet
    obtain ⟨arguments, tolerated⟩ := quiet
    simp only [SymbolTable.typeExpr, type_typed]
    rw [evalExpr]
    refine (sound_evalExprs traversed within fits n args arguments).bind
      fun values _ grown hvalues => ?_
    refine (sound_classNamed traversed (fits.mono grown) hvalues tolerated).bind
      fun c _ _ ⟨ha, yields⟩ => ?_
    exact (within _ _ ha).mono fun v _ _ hv h => yields h _ v (hv h)
  | .original args loc, quiet => by
    simp only [SymbolTable.typeExpr, SymbolTable.quiet_events] at quiet
    obtain ⟨arguments, tolerated⟩ := quiet
    simp only [SymbolTable.typeExpr, type_typed]
    rw [evalExpr]
    refine Sound.assuming_named fun named => ?_
    refine (sound_evalExprs traversed within fits n args arguments).bind
      fun values _ grown hvalues => ?_
    have isNamed := named cx.cls (List.mem_of_getElem? fits.this)
    refine (sound_original traversed (fits.mono grown) isNamed hvalues tolerated).bind
      fun a _ _ ⟨ha, yields⟩ => ?_
    exact (within _ _ ha).mono fun v _ _ hv h => yields h _ v (hv h)

theorem sound_evalExprs (traversed : t.Traversed strict)
    (within : SoundActivations t strict activate) {classes : List (Entry ClassDecl)}
    (fits : fr.Fits t strict classes cx) (n : Nat) :
    (es : List Expr) → Quiet strict (TypedExpr.eventsOfAll cx (t.typeExprs cx n es).1) →
      Sound t strict classes (evalExprs t activate fr es) fun classes' vs =>
        strict → List.Forall₂ (Value.HasType t classes') vs ((t.typeExprs cx n es).1.map (·.type))
  | [], _ => by
    rw [evalExprs]
    exact sound_pure fun _ _ _ => .nil
  | e :: es, quiet => by
    simp only [SymbolTable.typeExprs, SymbolTable.quiet_eventsOfAll_cons] at quiet
    simp only [SymbolTable.typeExprs, List.map_cons]
    rw [evalExprs]
    refine (sound_evalExpr traversed within fits n e quiet.1).bind fun v _ grown hv => ?_
    refine (sound_evalExprs traversed within (fits.mono grown) _ es quiet.2).bind
      fun vs _ grown' hvs => sound_pure fun _ last h => ?_
    exact .cons ((hv h).mono (grown'.trans last)) (Value.HasType.mono_all (hvs h) last)

end

/-! ## Assignments -/

/-- What a name is bound to is of a known type. -/
theorem known_of_target? (traversed : t.Traversed strict) (fits : fr.Fits t strict classes cx)
    (named : t.Names cx.cls) {target : Target} (bound : cx.target? target = some b) (h : strict) :
    b.type.known = true := by
  have ofField {name : String} (bound : cx.field? name = some b) : b.type.known = true := by
    rw [Context.field?, fits.fields] at bound
    exact (traversed.classes cx.cls named.mem).known h b (List.mem_of_find?_eq_some bound)
  cases target with
  | var name =>
    rw [Context.target?, Context.lookup_eq] at bound
    cases local? : cx.scopes.flatten.find? (·.name == name) with
    | some b' =>
      obtain ⟨v, -, admits⟩ := (Matches.flatten fits.scopes).exists_of_find? local?
      rw [local?, Option.some_or] at bound
      exact Option.some.inj bound ▸ (admits h).known
    | none =>
      rw [local?, Option.none_or] at bound
      exact ofField bound
  | field name => exact ofField bound

variable {v : Value} {target : Target}

theorem sound_setThis (fits : fr.Fits t strict classes cx) (bound : cx.field? name = some b)
    (admits : b.Admits t strict classes v) {otherwise : Object → Fault} :
    Sound t strict classes (setField fr.this name v otherwise) fun classes' _ =>
      fr.Fits t strict classes' cx := by
  rw [Context.field?, fits.fields] at bound
  exact (sound_setField fits.this bound admits).mono fun _ _ grown _ => fits.mono grown

theorem sound_assignTarget (fits : fr.Fits t strict classes cx)
    (bound : cx.target? target = some b) (admits : b.Admits t strict classes v) :
    Sound t strict classes (assignTarget fr v target) fun classes' fr' =>
      fr'.Fits t strict classes' cx := by
  cases target with
  | var name =>
    rw [Context.target?, Context.lookup_eq] at bound
    simp only [assignTarget, assignVar, Frame.assign?]
    cases assigned : Frame.assignIn name v fr.scopes with
    | some scopes =>
      have related := Matches.assignIn fits.scopes (fun b' bound' => by
        rw [bound', Option.some_or] at bound
        exact Option.some.inj bound ▸ admits) assigned
      have fits' : ({ fr with scopes := scopes } : Frame).Fits t strict classes cx :=
        { fits with scopes := related }
      exact sound_pure fun classes' grown => fits'.mono grown
    | none =>
      rw [Matches.find?_of_assignIn fits.scopes assigned, Option.none_or] at bound
      exact (sound_setThis fits bound admits).bind fun _ _ _ ends =>
        sound_pure fun _ last => ends.mono last
  | field name =>
    exact (sound_setThis fits bound admits).bind fun _ _ _ ends =>
      sound_pure fun _ last => ends.mono last

/-! ## Statements -/

/-- An expression of a quiet body keeps to what is checked. -/
theorem sound_evalIn (traversed : t.Traversed strict)
    (within : SoundActivations t strict activate) {st : BodyState}
    (fits : fr.Fits t strict classes (cx.withScopes st.scopes)) {e : Expr} {ds : Diagnostics}
    (quiet : Quiet strict (SymbolTable.evaluated cx (t.typeIn cx st e).2 (t.typeIn cx st e).1 ds)) :
    Sound t strict classes (evalExpr t activate fr e) fun classes' v =>
      strict → v.HasType t classes' (t.typeIn cx st e).1.type :=
  sound_evalExpr traversed within fits _ e (SymbolTable.quiet_evaluated.1 quiet).1

theorem sound_evalCond (traversed : t.Traversed strict)
    (within : SoundActivations t strict activate) {st : BodyState}
    (fits : fr.Fits t strict classes (cx.withScopes st.scopes)) {e : Expr} {ds : Diagnostics}
    (quiet : Quiet strict (SymbolTable.evaluated cx (t.typeIn cx st e).2 (t.typeIn cx st e).1 ds)) :
    Sound t strict classes (evalCond t activate fr e) fun _ _ => True :=
  (sound_evalIn traversed within fits quiet).bind fun _ _ _ _ =>
    (sound_ofValues fun _ => Value.asBool_fault).mono fun _ _ _ _ => trivial

variable {ret : Ty} {bss : List (List Binding)}

/-- A quiet assignment evaluates an expression whose values may be written to the target. -/
theorem sound_evalAssigned (traversed : t.Traversed strict)
    (within : SoundActivations t strict activate) {st : BodyState}
    (fits : fr.Fits t strict classes (cx.withScopes st.scopes)) {value : Expr}
    {loc : Option Location}
    (quiet : Quiet strict (t.walkStmt cx ret st (.assign target value loc)).2) :
    ∃ b, (cx.withScopes st.scopes).target? target = some b ∧
      Sound t strict classes (evalExpr t activate fr value) fun classes' v =>
        b.Admits t strict classes' v := by
  simp only [SymbolTable.walkStmt, quiet_append] at quiet
  obtain ⟨evaluated, -⟩ := quiet
  have findings := (SymbolTable.quiet_evaluated.1 evaluated).2
  rw [List.forall_mem_append] at findings
  obtain ⟨b, bound, type⟩ := SymbolTable.exists_of_targetType findings.1
  have fit := findings.2
  rw [type] at fit
  refine ⟨b, bound, Sound.assuming_named fun named => ?_⟩
  have isNamed := named _ (List.mem_of_getElem? fits.this)
  refine (sound_evalIn traversed within fits evaluated).mono fun v _ _ hv h => ?_
  exact (hv h).of_isAssignable traversed.placed (SymbolTable.isAssignable_of_tolerated h fit)
    (known_of_target? traversed fits isNamed bound h)

theorem sound_withScope {inner : List (List Binding)} {block : Frame → Run (Frame × Option Value)}
    (h : Sound t strict classes (block fr.enter) (Ends t strict cx ret inner))
    (outer : inner.tail = bss) :
    Sound t strict classes (withScope fr block) (Ends t strict cx ret bss) := by
  refine h.bind fun (fr', result) classes' grown ends => sound_pure fun classes'' grown' => ?_
  cases result with
  | none =>
    have fits : fr'.Fits t strict classes' (cx.withScopes inner) := ends
    exact outer ▸ fits.leave.mono grown'
  | some v =>
    have typed : strict → v.HasType t classes' ret := ends
    exact fun h => (typed h).mono grown'

/-- A loop keeps to what is checked if its condition and its body do in all frames that fit. -/
theorem sound_repeatWhile {cond : Frame → Run Bool} {body : Frame → Run (Frame × Option Value)}
    (hcond : ∀ classes' fr, classes <+: classes' → fr.Fits t strict classes' (cx.withScopes bss) →
      Sound t strict classes' (cond fr) fun _ _ => True)
    (hbody : ∀ classes' fr, classes <+: classes' → fr.Fits t strict classes' (cx.withScopes bss) →
      Sound t strict classes' (body fr) (Ends t strict cx ret bss))
    (rounds : Nat) {classes' : List (Entry ClassDecl)} (grown : classes <+: classes')
    (fits : fr.Fits t strict classes' (cx.withScopes bss)) :
    Sound t strict classes' (repeatWhile budget cond body rounds fr)
      (Ends t strict cx ret bss) := by
  -- after each round the frame fits the scopes from before the loop, with more objects in the heap
  induction rounds generalizing classes' fr with
  | zero => exact sound_throw trivial
  | succ rounds ih =>
    refine (hcond classes' fr grown fits).bind fun holds classes₁ grown₁ _ => ?_
    have fits₁ := fits.mono grown₁
    split
    · refine (hbody classes₁ fr (grown.trans grown₁) fits₁).bind
        fun (fr', result) classes₂ grown₂ ends => ?_
      cases result with
      | some v =>
        have typed : strict → v.HasType t classes₂ ret := ends
        exact sound_pure fun classes₃ grown₃ h => (typed h).mono grown₃
      | none =>
        have fits₂ : fr'.Fits t strict classes₂ (cx.withScopes bss) := ends
        refine (sound_tick budget).bind fun _ classes₃ grown₃ _ => ?_
        exact ih (grown.trans (grown₁.trans (grown₂.trans grown₃))) (fits₂.mono grown₃)
    · exact sound_pure fun classes₂ grown₂ => fits₁.mono grown₂

mutual

theorem sound_execStmt (traversed : t.Traversed strict)
    (within : SoundActivations t strict activate) (known : strict → ret.known = true)
    {classes : List (Entry ClassDecl)} {fr : Frame} {st : BodyState}
    (fits : fr.Fits t strict classes (cx.withScopes st.scopes)) :
    (s : Stmt) → Quiet strict (t.walkStmt cx ret st s).2 →
      Sound t strict classes (execStmt t budget activate fr s)
        (Ends t strict cx ret (t.walkStmt cx ret st s).1.scopes)
  | .skip _, _ => by
    rw [execStmt]
    refine (sound_tick budget).bind fun _ _ grown _ => sound_pure fun _ grown' => ?_
    exact fits.mono (grown.trans grown')
  | .ret value loc, quiet => by
    simp only [SymbolTable.walkStmt, quiet_append] at quiet
    have fit := (SymbolTable.quiet_evaluated.1 quiet.1).2
    rw [execStmt]
    refine (sound_tick budget).bind fun _ _ grown _ => ?_
    refine (sound_evalIn traversed within (fits.mono grown) quiet.1).bind fun v _ _ hv => ?_
    refine sound_pure fun _ last h => ?_
    exact ((hv h).mono last).of_isAssignable traversed.placed
      (SymbolTable.isAssignable_of_tolerated h fit) (known h)
  | .decl type name none loc, quiet => by
    simp only [SymbolTable.walkStmt, quiet_append, quiet_findings] at quiet
    rw [execStmt]
    refine (sound_tick budget).bind fun _ _ grown _ => sound_pure fun _ grown' => ?_
    refine (fits.mono (grown.trans grown')).bind fun h => ?_
    have isKnown := SymbolTable.known_typeOr_of_tolerated h quiet.1
    rwa [← SymbolTable.fst_checkType] at isKnown
  | .decl type name (some value) loc, quiet => by
    simp only [SymbolTable.walkStmt, quiet_append, quiet_findings] at quiet
    obtain ⟨⟨declared, evaluated⟩, -⟩ := quiet
    have fit := (SymbolTable.quiet_evaluated.1 evaluated).2
    rw [execStmt]
    refine (sound_tick budget).bind fun _ _ grown _ => ?_
    have fits' := fits.mono grown
    refine (sound_evalIn traversed within fits' evaluated).bind fun v _ grown' hv => ?_
    refine sound_pure fun _ last => (fits'.mono (grown'.trans last)).bind fun h => ?_
    have isKnown := SymbolTable.known_typeOr_of_tolerated h declared
    rw [← SymbolTable.fst_checkType] at isKnown
    exact ((hv h).mono last).of_isAssignable traversed.placed
      (SymbolTable.isAssignable_of_tolerated h fit) isKnown
  | .assign target value loc, quiet => by
    rw [execStmt]
    refine (sound_tick budget).bind fun _ _ grown _ => ?_
    have fits' := fits.mono grown
    obtain ⟨b, bound, evaluated⟩ := sound_evalAssigned traversed within fits' quiet
    refine evaluated.bind fun v _ grown' admits => ?_
    refine (sound_assignTarget (fits'.mono grown') bound admits).bind fun fr' _ _ ends => ?_
    exact sound_pure fun _ last => ends.mono last
  | .ite cond yes none loc, quiet => by
    simp only [SymbolTable.walkStmt, quiet_append] at quiet
    obtain ⟨⟨condition, first⟩, -⟩ := quiet
    have outer := t.tail_scopes_walkStmts cx ret (t.typeIn cx st cond).2.enter yes
    rw [execStmt]
    refine (sound_tick budget).bind fun _ _ grown _ => ?_
    have fits' := fits.mono grown
    refine (sound_evalCond traversed within fits' condition).bind fun holds _ grown' _ => ?_
    have fits'' := fits'.mono grown'
    split
    · exact sound_withScope (sound_execStmts traversed within known fits''.enter yes first) rfl
    · exact sound_pure fun _ last => ends_of_fits (fits''.mono last) outer
  | .ite cond yes (some no) loc, quiet => by
    simp only [SymbolTable.walkStmt, quiet_append] at quiet
    obtain ⟨⟨⟨condition, first⟩, second⟩, -⟩ := quiet
    have afterYes : (t.walkStmts cx ret (t.typeIn cx st cond).2.enter yes).1.leave.scopes =
        st.scopes := t.tail_scopes_walkStmts cx ret _ yes
    have afterNo := t.tail_scopes_walkStmts cx ret
      (t.walkStmts cx ret (t.typeIn cx st cond).2.enter yes).1.leave.enter no
    rw [execStmt]
    refine (sound_tick budget).bind fun _ _ grown _ => ?_
    have fits' := fits.mono grown
    refine (sound_evalCond traversed within fits' condition).bind fun holds _ grown' _ => ?_
    have fits'' := fits'.mono grown'
    split
    · exact sound_withScope (sound_execStmts traversed within known fits''.enter yes first)
        afterNo.symm
    -- the second block is traversed after the first one, but run instead of it
    · have again : fr.Fits t strict _ (cx.withScopes
          (t.walkStmts cx ret (t.typeIn cx st cond).2.enter yes).1.leave.scopes) :=
        afterYes ▸ fits''
      exact sound_withScope (sound_execStmts traversed within known again.enter no second) rfl
  | .loop cond body loc, quiet => by
    simp only [SymbolTable.walkStmt, quiet_append] at quiet
    obtain ⟨⟨condition, round⟩, -⟩ := quiet
    have outer : (t.walkStmts cx ret (t.typeIn cx st cond).2.enter body).1.leave.scopes =
        st.scopes := t.tail_scopes_walkStmts cx ret _ body
    simp only [SymbolTable.walkStmt]
    rw [execStmt, outer]
    refine (sound_tick budget).bind fun _ _ grown _ => ?_
    refine sound_get.bind fun s _ grown' _ => ?_
    refine sound_repeatWhile (fun classes' fr' _ fits' => ?_) (fun classes' fr' _ fits' => ?_) _
      List.prefix_rfl (fits.mono (grown.trans grown'))
    · exact sound_evalCond traversed within fits' condition
    · exact sound_withScope (sound_execStmts traversed within known fits'.enter body round) outer
  | .eval value loc, quiet => by
    simp only [SymbolTable.walkStmt, quiet_append] at quiet
    rw [execStmt]
    refine (sound_tick budget).bind fun _ _ grown _ => ?_
    have fits' := fits.mono grown
    refine (sound_evalIn traversed within fits' quiet.1).bind fun _ _ grown' _ => ?_
    exact sound_pure fun _ last => fits'.mono (grown'.trans last)

theorem sound_execStmts (traversed : t.Traversed strict)
    (within : SoundActivations t strict activate) (known : strict → ret.known = true)
    {classes : List (Entry ClassDecl)} {fr : Frame} {st : BodyState}
    (fits : fr.Fits t strict classes (cx.withScopes st.scopes)) :
    (ss : List Stmt) → Quiet strict (t.walkStmts cx ret st ss).2 →
      Sound t strict classes (execStmts t budget activate fr ss)
        (Ends t strict cx ret (t.walkStmts cx ret st ss).1.scopes)
  | [], _ => by
    rw [execStmts]
    exact sound_pure fun _ grown => fits.mono grown
  | s :: ss, quiet => by
    simp only [SymbolTable.walkStmts, quiet_append] at quiet
    simp only [SymbolTable.walkStmts]
    rw [execStmts]
    refine (sound_execStmt traversed within known fits s quiet.1).bind
      fun (fr', result) classes' grown ends => ?_
    cases result with
    | none =>
      have fits' : fr'.Fits t strict classes'
        (cx.withScopes (t.walkStmt cx ret st s).1.scopes) := ends
      exact sound_execStmts traversed within known fits' ss quiet.2
    | some v =>
      have typed : strict → v.HasType t classes' ret := ends
      exact sound_pure fun _ last h => (typed h).mono last

end

/-! ## Activations -/

theorem sound_checkCount {what : String} {expected : Nat} {args : List Value}
    (fit : strict → args.length = expected) :
    Sound t strict classes (checkCount what expected args) fun _ _ => args.length = expected := by
  unfold checkCount
  split
  · rename_i same
    exact sound_pure fun _ _ => same
  · rename_i differ
    exact sound_fault ⟨rfl, fun h => absurd (fit h) differ⟩

/-- Initial values of fields are traversed as assignments. -/
theorem sound_initFields (traversed : t.Traversed strict)
    (within : SoundActivations t strict activate) {classes : List (Entry ClassDecl)}
    (fs : List FieldDecl) {st : BodyState}
    (fits : fr.Fits t strict classes (cx.withScopes st.scopes))
    (quiet : Quiet strict (t.walkStmts cx ret st
      (fs.filterMap fun f => f.value.map fun v => .assign (.field f.name) v f.loc)).2) :
    Sound t strict classes (initFields t activate fr fs) fun classes' _ =>
      fr.Fits t strict classes' (cx.withScopes (t.walkStmts cx ret st (fs.filterMap fun f =>
        f.value.map fun v => .assign (.field f.name) v f.loc)).1.scopes) := by
  induction fs generalizing classes st with
  | nil => exact sound_pure fun _ grown => fits.mono grown
  | cons f fs ih =>
    rw [initFields]
    cases value : f.value with
    | none =>
      rw [List.filterMap_cons_none (by rw [value]; rfl)] at quiet ⊢
      exact ih fits quiet
    | some e =>
      rw [List.filterMap_cons_some (by rw [value]; rfl)] at quiet ⊢
      simp only [SymbolTable.walkStmts, quiet_append] at quiet ⊢
      obtain ⟨b, bound, evaluated⟩ := sound_evalAssigned traversed within fits quiet.1
      refine evaluated.bind fun v _ grown admits => ?_
      refine (sound_setThis (fits.mono grown) bound admits).bind fun _ _ _ fits' => ?_
      exact ih fits' quiet.2

/-- A method that fits keeps to what is checked. -/
theorem sound_runMethod (traversed : t.Traversed strict)
    (within : SoundActivations t strict activate) {this : Nat} {module : String} {m : Method}
    {args : List Value}
    (fits : (Activation.method this module m args).Fits t strict classes) :
    Sound t strict classes (runMethod t budget activate this module m args) fun classes' v =>
      strict → v.HasType t classes' (t.typeOr module m.sig.ret) := by
  obtain ⟨c, here, rfl, ⟨own, ofClass, origin⟩, fit⟩ := fits
  refine Sound.assuming_named fun named => ?_
  have isNamed := named c (List.mem_of_getElem? here)
  have quiet := (traversed.classes c isNamed.mem).versions own ofClass m.toVersion
    (origin.mem List.mem_cons_self)
  obtain ⟨name, body⟩ := quiet.body
  refine (sound_tick budget).bind fun _ _ grown _ => ?_
  refine (sound_checkCount fun h => ?_).bind fun _ classes' grown' count => ?_
  · have same := (fit h).length_eq
    rwa [SymbolTable.paramTypes, List.length_map] at same
  have params := matches_params (t.paramBinding (t.classContext c) name) (fun _ => rfl)
    (fun _ => rfl) count fun h => Value.HasType.mono_all (fit h) (grown.trans grown')
  have origins : ∀ m', some m = some m' → ∃ own ∈ c.decl.methods, m'.versions <:+ own.versions :=
    fun m' same => ⟨own, ofClass, Option.some.inj same ▸ origin⟩
  have fits := Frame.fits_start (getElem?_of_grown here (grown.trans grown')) name origins
    (t.typeOr c.module m.sig.ret) params
  refine (sound_withScope (sound_execStmts traversed within quiet.ret
    (fits.withScopes (.cons .nil fits.scopes)) m.body body) rfl).bind
    fun (fr', result) classes'' _ ends => ?_
  refine sound_pure fun _ last h => ?_
  cases result with
  | none => exact quiet.ret h
  | some v =>
    have typed : strict → v.HasType t classes'' (t.typeOr c.module m.sig.ret) := ends
    exact (typed h).mono last

theorem sound_createObject (traversed : t.Traversed strict)
    (within : SoundActivations t strict activate) {c : Entry ClassDecl} {args : List Value}
    (fits : (Activation.creation c args).Fits t strict classes) :
    Sound t strict classes (createObject t budget activate c args) fun classes' v =>
      strict → v.HasType t classes' (.class c.qualifiedName) := by
  obtain ⟨named, fit⟩ := fits
  obtain ⟨values, block⟩ := SymbolTable.quiet_walkBody (traversed.classes c named.mem).init
  refine (sound_checkCount fun h => ?_).bind fun _ _ grown count => ?_
  · have same := (fit h).length_eq
    rwa [SymbolTable.paramTypes, List.length_map] at same
  have created := fun classes' (grown' : _ <+: classes') => Object.fits_create traversed named count
    fun h => Value.HasType.mono_all (fit h) (grown.trans grown')
  refine (sound_allocate created).bind fun id classes' _ here => ?_
  have origins : ∀ m : Method, none = some m → ∃ own ∈ c.decl.methods,
    m.versions <:+ own.versions := fun m same => by cases same
  have params : Matches t strict classes' [] [] := .nil
  have fits := Frame.fits_start here SymbolTable.initBody origins .unit params
  refine (sound_initFields traversed within c.decl.fields (fits.withScopes fits.scopes) values).bind
    fun _ _ _ fits' => ?_
  refine (sound_withScope (sound_execStmts traversed within (fun _ => rfl) fits'.enter _ block)
    rfl).bind fun (fr', result) _ grown' _ => sound_pure fun _ last _ => ?_
  exact Value.hasType_class.2 ⟨c, getElem?_of_grown fits'.this (grown'.trans last), rfl⟩

/-- Activations keep to what is checked, however deep they are nested. -/
theorem sound_activate (traversed : t.Traversed strict) (budget depth : Nat) :
    SoundActivations t strict (DeltaLang.activate t budget depth) := by
  -- what is activated within has one level less
  induction depth with
  | zero => exact fun _ _ _ => sound_throw trivial
  | succ depth ih =>
    rintro classes (⟨this, module, m, args⟩ | ⟨c, args⟩) fits
    · exact sound_runMethod traversed ih fits
    · exact sound_createObject traversed ih fits

end

end DeltaLang
