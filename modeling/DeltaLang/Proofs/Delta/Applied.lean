import DeltaLang.Proofs.Delta.Composition
import DeltaLang.Proofs.Trait.Methods
import DeltaLang.Proofs.Trait.Settled

/-!
# Classes with their clauses applied

Each operation of a delta on the methods of a class is done in one of two ways: on the list of
methods, or by a further clause.  On the class with its clauses applied both do the same, which is
an operation on its method set.  So it makes no difference whether a class is edited before or
after its clauses are applied.
-/

namespace DeltaLang

/-! ## Steps that agree -/

/-- Both steps fail and are reported alike, or neither does and the results are related. -/
inductive Agree {ε σ τ : Type} (R : σ → τ → Prop) : Except ε σ → Except ε τ → Prop
  | ok {s : σ} {s' : τ} (h : R s s') : Agree R (.ok s) (.ok s')
  | error (err : ε) : Agree R (.error err) (.error err)

/-- The states are related and the same has been reported. -/
def Reported {σ τ : Type} (R : σ → τ → Prop) (st : σ × Diagnostics) (st' : τ × Diagnostics) :
    Prop :=
  R st.1 st'.1 ∧ st.2 = st'.2

theorem Agree.attempt {σ τ : Type} {R : σ → τ → Prop} {step : σ → Except Diagnostic σ}
    {step' : τ → Except Diagnostic τ} {st : σ × Diagnostics} {st' : τ × Diagnostics}
    (agree : Agree R (step st.1) (step' st'.1)) (h : Reported R st st') :
    Reported R (DeltaLang.attempt step st) (DeltaLang.attempt step' st') := by
  rw [DeltaLang.attempt, DeltaLang.attempt]
  cases hs : step st.1 with
  | ok s =>
    cases hs' : step' st'.1 with
    | ok s' =>
      rw [hs, hs'] at agree
      cases agree with
      | ok related => exact ⟨related, h.2⟩
    | error d' =>
      rw [hs, hs'] at agree
      cases agree
  | error d =>
    cases hs' : step' st'.1 with
    | ok s' =>
      rw [hs, hs'] at agree
      cases agree
    | error d' =>
      rw [hs, hs'] at agree
      cases agree
      exact ⟨h.1, congrArg (· ++ [d]) h.2⟩

/-! ## Applied classes -/

namespace SymbolTable

/-- The clauses of a class applied in order to its methods. -/
def applyUses (t : SymbolTable) (module : String) (c : ClassDecl) (r : Resolver) : Resolved :=
  c.uses.foldl (t.applyUse module) ((⟨.empty, [], r⟩ : Resolved).andThen fun s =>
    s.insertAll ("defined twice in class " ++ c.name) c.methods)

variable {t : SymbolTable} {module : String} {c : ClassDecl} {r : Resolver}

theorem composeClass_eq : t.composeClass module c r =
    (t.applyUses module c r).andThen fun s =>
      (s, s.methods.flatMap (unboundOriginals c.name)) := rfl

theorem applyUses_of_plain (plain : c.uses = []) (distinct : (c.methods.map (·.name)).Nodup) :
    t.applyUses module c r = ⟨⟨c.methods, distinct⟩, [], r⟩ := by
  rw [applyUses, plain, List.foldl_nil, Resolved.andThen, MethodSet.insertAll_empty distinct]
  rfl

theorem applyUses_append (u : TraitUse) :
    t.applyUses module { c with uses := c.uses ++ [u] } r =
      t.applyUse module (t.applyUses module c r) u := List.foldl_append

theorem resolveExpr_singleton (module : Option String) (m : Method) :
    t.resolveExpr module (.set [m]) r = ⟨.single m, [], r⟩ := rfl

theorem applyUse_adds_singleton {acc : Resolved} {m : Method} {s : MethodSet}
    (inserted : acc.set.insert? m = some s) :
    t.applyUse module acc (.adds (.set [m])) = { acc with set := s } := by
  rw [applyUse, resolveExpr_singleton, Resolved.andThen]
  dsimp only
  rw [MethodSet.addAll_single, inserted]
  simp

theorem applyUse_modifies_singleton (acc : Resolved) (m : Method) :
    t.applyUse module acc (.modifies (.set [m])) =
      { acc with set := acc.set.modify m } := by
  rw [applyUse, resolveExpr_singleton, List.append_nil]
  rfl

theorem applyUse_removes_singleton {acc : Resolved} {sig : Signature}
    (present : acc.set.contains sig.name = true) :
    t.applyUse module acc (.removes [sig]) =
      { acc with set := acc.set.erase sig.name } := by
  rw [applyUse, Resolved.andThen, MethodSet.removeAll, if_pos present, MethodSet.removeAll]
  dsimp only
  rw [List.append_nil]

end SymbolTable

/-- A class with its clauses applied: what it has but methods and clauses, and its methods with
the findings made on the way. -/
structure AppliedClass where
  rest : ClassDecl
  used : Resolved

/-- The class with its clauses applied. -/
def SymbolTable.applied (t : SymbolTable) (module : String) (r : Resolver) (c : ClassDecl) :
    AppliedClass :=
  ⟨{ c with methods := [], uses := [] }, t.applyUses module c r⟩

/-- Classes that are the same with their clauses applied are the same once composed. -/
theorem SymbolTable.composeClass_congr {t : SymbolTable} {module : String} {r : Resolver}
    {c c' : ClassDecl} (same : t.applied module r c = t.applied module r c') :
    t.composeClass module c r = t.composeClass module c' r := by
  have used : t.applyUses module c r = t.applyUses module c' r := congrArg AppliedClass.used same
  have name : c.name = c'.name := congrArg (·.rest.name) same
  rw [composeClass_eq, composeClass_eq, used, name]

theorem SymbolTable.composedClass_congr {t : SymbolTable} {module : String} {r : Resolver}
    {c c' : ClassDecl} (same : t.applied module r c = t.applied module r c') :
    t.composedClass r module c = t.composedClass r module c' := by
  rw [composedClass, composedClass, composeClass_congr same]
  exact congrArg (fun a : AppliedClass => { a.rest with
    methods := (t.composeClass module c' r).set.methods }) same

namespace AppliedClass

def withSet (a : AppliedClass) (s : MethodSet) : AppliedClass :=
  { a with used := { a.used with set := s } }

/-- A step that only concerns what the class has but methods and clauses. -/
def onRest (step : ClassEdit → Except Diagnostic ClassEdit) (a : AppliedClass) :
    Except Diagnostic AppliedClass :=
  (step ⟨a.rest, none⟩).map fun e => { a with rest := e.cls }

def addMethod (delta : String) (a : AppliedClass) (m : Method) : Except Diagnostic AppliedClass :=
  match a.used.set.insert? m with
  | some s => .ok (a.withSet s)
  | none =>
    .error (ClassEdit.failure delta .duplicateDeclaration ⟨a.rest, none⟩
      ("already has method " ++ m.name) m.sig.loc)

def removeMethod (delta : String) (a : AppliedClass) (sig : Signature) :
    Except Diagnostic AppliedClass :=
  if a.used.set.contains sig.name then .ok (a.withSet (a.used.set.erase sig.name))
  else
    .error (ClassEdit.failure delta .removeTargetNotFound ⟨a.rest, none⟩
      ("has no method " ++ sig.name) sig.loc)

/-- An operation on the class with its clauses applied. -/
def apply (t : SymbolTable) (module delta : String) (a : AppliedClass) :
    ClassOp → Except Diagnostic AppliedClass
  | .addMethod m => a.addMethod delta m
  | .modifyMethod m => .ok (a.withSet (a.used.set.modify m))
  | .removeMethod sig => a.removeMethod delta sig
  | .addField f => a.onRest fun e => e.addField delta f
  | .removeField name loc => a.onRest fun e => e.removeField delta name loc
  | .addUse u => .ok { a with used := t.applyUse module a.used u }

/-- A modifier on the class with its clauses applied. -/
def modify (t : SymbolTable) (module delta : String) (m : ClassModifier) (a : AppliedClass) :
    AppliedClass × Diagnostics :=
  m.ops.foldl (fun st op => attempt (fun a => a.apply t module delta op) st)
    (m.addImplements.foldl
      (fun st name => attempt (onRest fun e => e.addInterface delta m.loc name) st) (a, []))

end AppliedClass

/-! ## Edits of a class -/

namespace ClassEdit

variable {t : SymbolTable} {module delta : String} {r : Resolver} {e : ClassEdit}
  {a : AppliedClass}

/-- The edit is one of a class that is the given one with its clauses applied, and the names it
knows are those of the composed methods. -/
structure Represents (t : SymbolTable) (module : String) (r : Resolver) (e : ClassEdit)
    (a : AppliedClass) : Prop where
  distinct : (e.cls.methods.map (·.name)).Nodup
  names : ∀ {names : List String}, e.known = some names →
    ∀ name, name ∈ names ↔ name ∈ a.used.set.names
  applied : t.applied module r e.cls = a

/-- The names are known if there are clauses. -/
def Refreshed (e : ClassEdit) : Prop := e.known = none → e.cls.uses = []

theorem refresh_of_known {names : List String} (known : e.known = some names) :
    e.refresh t module = e := by
  rw [ClassEdit.refresh, known, Option.some_or, ← known]

theorem Represents.refresh (settled : t.Settled) (ready : r.Ready t)
    (h : e.Represents t module r a) :
    (e.refresh t module).Represents t module r a ∧ (e.refresh t module).Refreshed := by
  cases known : e.known with
  | some names =>
    rw [refresh_of_known known]
    exact ⟨h, fun none => by rw [known] at none; cases none⟩
  | none =>
    by_cases plain : e.cls.uses = []
    · have same : e.refresh t module = e := by
        rw [ClassEdit.refresh, known, Option.none_or, SymbolTable.composedNames, plain,
          List.isEmpty_nil, if_pos rfl, ← known]
      rw [same]
      exact ⟨h, fun _ => plain⟩
    · have refreshed : (e.refresh t module).known =
          some (t.composeClass module e.cls .fresh).set.names := by
        rw [ClassEdit.refresh, known, Option.none_or, SymbolTable.composedNames,
          if_neg (by simpa using plain)]
      refine ⟨⟨h.distinct, fun {names} found name => ?_, h.applied⟩, fun none => ?_⟩
      · obtain rfl := Option.some.inj (refreshed.symm.trans found)
        rw [settled.set_composeClass (Resolver.ready_fresh t) ready, ← h.applied]
        rfl
      · rw [refreshed] at none
        cases none

/-- Without clauses the methods of the class are the composed ones. -/
theorem Represents.used_eq (h : e.Represents t module r a) (refreshed : e.Refreshed)
    (known : e.known = none) : a.used = ⟨⟨e.cls.methods, h.distinct⟩, [], r⟩ :=
  (congrArg AppliedClass.used h.applied).symm.trans
    (SymbolTable.applyUses_of_plain (refreshed known) h.distinct)

theorem Represents.hasMethod_iff (h : e.Represents t module r a) (refreshed : e.Refreshed)
    (name : String) : e.hasMethod name = true ↔ name ∈ a.used.set.names := by
  rw [hasMethod]
  cases known : e.known with
  | some names => exact List.contains_iff_mem.trans (h.names known name)
  | none =>
    rw [h.used_eq refreshed known, MethodSet.mem_names_iff]
    rfl

/-! ## Operations on methods -/

/-- A further clause applies to what the clauses before it yield. -/
theorem Represents.withUse (h : e.Represents t module r a) {u : TraitUse} {names : List String}
    {used : Resolved} (applied : t.applyUse module a.used u = used)
    (same : ∀ name, name ∈ names ↔ name ∈ used.set.names) :
    (e.withUse u names).Represents t module r { a with used := used } where
  distinct := h.distinct
  names known := by
    obtain rfl := Option.some.inj known
    exact same
  applied := by
    rw [← applied, ← h.applied]
    exact congrArg (AppliedClass.mk _) (SymbolTable.applyUses_append u)

/-- Without clauses the methods can be edited in place. -/
theorem Represents.inPlace (h : e.Represents t module r a) (refreshed : e.Refreshed)
    (known : e.known = none) {ms : List Method} {s : MethodSet} (methods : s.methods = ms) :
    (e.withMethods ms).Represents t module r (a.withSet s) := by
  subst methods
  have used := h.used_eq refreshed known
  obtain rfl := h.applied
  refine ⟨s.distinct, fun {names} found => ?_, congrArg (AppliedClass.mk _) ?_⟩
  · cases known.symm.trans found
  · exact (SymbolTable.applyUses_of_plain (c := (e.withMethods s.methods).cls)
      (refreshed known) s.distinct).trans
        (congrArg (fun used : Resolved => { used with set := s }) used.symm)

theorem mem_addName_iff {name : String} {names : List String} (name' : String) :
    name' ∈ addName name names ↔ name' = name ∨ name' ∈ names := by
  rw [addName]
  split
  · rename_i mem
    exact ⟨.inr, fun h => h.elim (fun eq => eq ▸ List.contains_iff_mem.1 mem) id⟩
  · rw [List.mem_append, List.mem_singleton]
    exact Or.comm

theorem addMethod_agree (h : e.Represents t module r a) (refreshed : e.Refreshed) (m : Method) :
    Agree (Represents t module r) (e.addMethod delta m) (a.addMethod delta m) := by
  rw [addMethod, AppliedClass.addMethod]
  by_cases mem : m.name ∈ a.used.set.names
  · rw [if_pos ((h.hasMethod_iff refreshed _).2 mem), MethodSet.insert?_of_mem mem, ← h.applied]
    exact .error _
  · have inserted := MethodSet.insert?_of_not_mem mem
    rw [if_neg (mt (h.hasMethod_iff refreshed _).1 mem), inserted]
    cases known : e.known with
    | some names =>
      refine .ok (h.withUse (SymbolTable.applyUse_adds_singleton inserted) fun name => ?_)
      rw [mem_addName_iff, h.names known, MethodSet.names_of_insert? inserted, List.mem_append,
        List.mem_singleton]
      exact Or.comm
    | none =>
      exact .ok (h.inPlace refreshed known
        (congrArg (·.set.methods ++ [m]) (h.used_eq refreshed known)))

theorem represents_modifyMethod (h : e.Represents t module r a) (refreshed : e.Refreshed)
    (m : Method) : (e.modifyMethod m).Represents t module r (a.withSet (a.used.set.modify m)) := by
  rw [modifyMethod]
  cases known : e.known with
  | some names =>
    refine h.withUse (SymbolTable.applyUse_modifies_singleton a.used m) fun name => ?_
    rw [mem_addName_iff, h.names known, MethodSet.mem_names_modify]
  | none =>
    refine h.inPlace refreshed known ?_
    rw [h.used_eq refreshed known]
    exact MethodSet.methods_modify h.distinct m

theorem removeMethod_agree (h : e.Represents t module r a) (refreshed : e.Refreshed)
    (sig : Signature) :
    Agree (Represents t module r) (e.removeMethod delta sig) (a.removeMethod delta sig) := by
  rw [removeMethod, AppliedClass.removeMethod]
  by_cases mem : sig.name ∈ a.used.set.names
  · rw [if_pos ((h.hasMethod_iff refreshed _).2 mem), if_pos (MethodSet.contains_iff.2 mem)]
    cases known : e.known with
    | some names =>
      refine .ok (h.withUse
        (SymbolTable.applyUse_removes_singleton (MethodSet.contains_iff.2 mem)) fun name => ?_)
      rw [MethodSet.mem_names_erase, List.mem_filter, h.names known, decide_eq_true_iff]
    | none =>
      refine .ok (h.inPlace refreshed known ?_)
      rw [h.used_eq refreshed known]
      exact MethodSet.methods_erase h.distinct sig.name
  · rw [if_neg (mt (h.hasMethod_iff refreshed _).1 mem), if_neg (mt MethodSet.contains_iff.1 mem),
      ← h.applied]
    exact .error _

/-! ## Other operations -/

/-- What is not about methods and clauses can be edited on its own. -/
theorem Represents.onRest (h : e.Represents t module r a)
    (step : ClassEdit → Except Diagnostic ClassEdit)
    (alike : (∃ d, step e = .error d ∧ step ⟨a.rest, none⟩ = .error d) ∨
      ∃ c, step e = .ok { e with cls := c } ∧
        step ⟨a.rest, none⟩ = .ok ⟨{ c with methods := [], uses := [] }, none⟩ ∧
        c.methods = e.cls.methods ∧ c.uses = e.cls.uses ∧ c.name = e.cls.name) :
    Agree (Represents t module r) (step e) (a.onRest step) := by
  obtain ⟨d, failed, failed'⟩ | ⟨c, done, done', methods, uses, name⟩ := alike
  · rw [failed, AppliedClass.onRest, failed']
    exact .error d
  · rw [done, AppliedClass.onRest, done']
    refine .ok ⟨methods ▸ h.distinct, h.names, ?_⟩
    rw [← h.applied]
    refine congrArg (AppliedClass.mk _) ?_
    rw [SymbolTable.applyUses, methods, uses, name]
    rfl

theorem addField_agree (h : e.Represents t module r a) (f : FieldDecl) :
    Agree (Represents t module r) (e.addField delta f)
      (a.onRest fun e => e.addField delta f) := by
  obtain rfl := h.applied
  by_cases taken : (e.cls.fieldType? f.name).isSome
  · exact h.onRest (fun e => e.addField delta f) (.inl ⟨_, if_pos taken, if_pos taken⟩)
  · exact h.onRest (fun e => e.addField delta f)
      (.inr ⟨_, if_neg taken, if_neg taken, rfl, rfl, rfl⟩)

theorem removeField_agree (h : e.Represents t module r a) (name : String)
    (loc : Option Location) :
    Agree (Represents t module r) (e.removeField delta name loc)
      (a.onRest fun e => e.removeField delta name loc) := by
  obtain rfl := h.applied
  by_cases present : (e.cls.field? name).isSome
  · exact h.onRest (fun e => e.removeField delta name loc)
      (.inr ⟨_, if_pos present, if_pos present, rfl, rfl, rfl⟩)
  · exact h.onRest (fun e => e.removeField delta name loc)
      (.inl ⟨_, if_neg present, if_neg present⟩)

theorem addInterface_agree (h : e.Represents t module r a) (loc : Option Location)
    (name : String) :
    Agree (Represents t module r) (e.addInterface delta loc name)
      (a.onRest fun e => e.addInterface delta loc name) := by
  obtain rfl := h.applied
  by_cases taken : e.cls.implements.contains name
  · exact h.onRest (fun e => e.addInterface delta loc name) (.inl ⟨_, if_pos taken, if_pos taken⟩)
  · exact h.onRest (fun e => e.addInterface delta loc name)
      (.inr ⟨_, if_neg taken, if_neg taken, rfl, rfl, rfl⟩)

theorem represents_addUse (h : e.Represents t module r a) (u : TraitUse) :
    Represents t module r ⟨{ e.cls with uses := e.cls.uses ++ [u] }, none⟩
      { a with used := t.applyUse module a.used u } where
  distinct := h.distinct
  names known := by cases known
  applied := by
    rw [← h.applied]
    exact congrArg (AppliedClass.mk _) (SymbolTable.applyUses_append u)

/-- Each operation does to the class what it does to the class with its clauses applied. -/
theorem apply_agree (h : e.Represents t module r a) (refreshed : e.Refreshed) (op : ClassOp) :
    Agree (Represents t module r) (e.apply delta op) (a.apply t module delta op) := by
  cases op with
  | addMethod m => exact addMethod_agree h refreshed m
  | modifyMethod m => exact .ok (represents_modifyMethod h refreshed m)
  | removeMethod sig => exact removeMethod_agree h refreshed sig
  | addField f => exact addField_agree h f
  | removeField name loc => exact removeField_agree h name loc
  | addUse u => exact .ok (represents_addUse h u)

end ClassEdit

namespace SymbolTable

variable {t : SymbolTable} {module : String} {r : Resolver} {c : ClassDecl}

/-- A modifier does to a class what it does to the class with its clauses applied. -/
theorem applied_modifyClass (settled : t.Settled) (ready : r.Ready t)
    (distinct : (c.methods.map (·.name)).Nodup) (delta : String) (m : ClassModifier) :
    (((t.modifyClass module delta m c).1.methods).map (·.name)).Nodup ∧
      (t.applied module r (t.modifyClass module delta m c).1,
          (t.modifyClass module delta m c).2) =
        (t.applied module r c).modify t module delta m := by
  let R := Reported (ClassEdit.Represents t module r)
  let extended := m.addImplements.foldl
    (fun st name => attempt (fun e => e.addInterface delta m.loc name) st)
    ((⟨c, none⟩ : ClassEdit), [])
  let extended' := m.addImplements.foldl
    (fun st name =>
      attempt (AppliedClass.onRest fun e => e.addInterface delta m.loc name) st)
    (t.applied module r c, [])
  let edited := m.ops.foldl
    (fun st op => attempt (fun e => e.apply delta op) (st.1.refresh t module, st.2)) extended
  have start : R (⟨c, none⟩, []) (t.applied module r c, []) :=
    ⟨⟨distinct, by rintro _ ⟨⟩, rfl⟩, rfl⟩
  have interfaces : R extended extended' :=
    List.foldl_rel start fun name _ st st' h =>
      (ClassEdit.addInterface_agree h.1 m.loc name).attempt h
  have ops : R edited ((t.applied module r c).modify t module delta m) :=
    List.foldl_rel interfaces fun op _ st st' h => by
      obtain ⟨represents, refreshed⟩ := h.1.refresh settled ready
      have related : R (st.1.refresh t module, st.2) st' := ⟨represents, h.2⟩
      exact (ClassEdit.apply_agree represents refreshed op).attempt related
  exact ⟨ops.1.distinct, Prod.ext ops.1.applied ops.2⟩

end SymbolTable

end DeltaLang
