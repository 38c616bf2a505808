import DeltaLang.Proofs.Delta.Stepwise

/-!
# What is known of a class under edit

A modifier is applied to a class operation by operation.  Whenever names are kept behind some of the
operations, they are those that the methods of the class would have if it was composed as it stands
there.  None are kept only of a class without clauses, or right behind a clause that was appended.
-/

namespace DeltaLang

namespace ClassEdit

/-- An operation of a modifier is attempted, with the names of the methods where they are needed. -/
def step (t : SymbolTable) (module delta : String) (st : ClassEdit × Diagnostics) (op : ClassOp) :
    ClassEdit × Diagnostics :=
  attempt (fun e => e.apply delta op) (st.1.refresh t module, st.2)

/-- The class with the interfaces that a modifier adds, in front of all its operations. -/
def start (delta : String) (mod : ClassModifier) (c : ClassDecl) : ClassEdit × Diagnostics :=
  mod.addImplements.foldl (fun st name => attempt (fun e => e.addInterface delta mod.loc name) st)
    (⟨c, none⟩, [])

variable {t : SymbolTable} {module delta : String} {e e' : ClassEdit}

theorem modifyClass_eq (t : SymbolTable) (module delta : String) (mod : ClassModifier)
    (c : ClassDecl) :
    t.modifyClass module delta mod c =
      let st := mod.ops.foldl (step t module delta) (start delta mod c)
      (st.1.cls, st.2) := rfl

/-! ## Names that are kept -/

theorem Informed.apply (h : e.Informed t module) (refreshed : e.Refreshed) {op : ClassOp}
    (ok : e.apply delta op = .ok e') : e'.Informed t module := by
  have attempted : Attempted _ _ _ (e.apply delta op) := h.attempted_apply refreshed op
  rw [ok] at attempted
  cases attempted with
  | ok _ done => exact done.2

theorem Informed.addInterface (h : e.Informed t module) {loc : Option Location} {name : String}
    (ok : e.addInterface delta loc name = .ok e') : e'.Informed t module := by
  have attempted : Attempted _ _ _ (e.addInterface delta loc name) :=
    h.attempted_addInterface loc name
  rw [ok] at attempted
  cases attempted with
  | ok _ done => exact done.2

/-- An operation is done on the class with its names, or leaves it with them. -/
theorem step_cases (t : SymbolTable) (module delta : String) (st : ClassEdit × Diagnostics)
    (op : ClassOp) :
    (step t module delta st op).1 = st.1.refresh t module ∨
      (st.1.refresh t module).apply delta op = .ok (step t module delta st op).1 := by
  rw [step, attempt]
  split
  · exact .inr ‹_›
  · exact .inl rfl

theorem Informed.step {st : ClassEdit × Diagnostics} (h : st.1.Informed t module)
    (delta : String) (op : ClassOp) : (step t module delta st op).1.Informed t module := by
  rcases step_cases t module delta st op with same | done
  · rw [same]
    exact h.refresh
  · exact h.refresh.apply (refreshed_refresh t module st.1) done

theorem informed_start (delta : String) (mod : ClassModifier) (c : ClassDecl) :
    (start delta mod c).1.Informed t module :=
  foldl_preserves (P := fun e : ClassEdit => e.Informed t module)
    (fun st _ => attempt_preserves (P := fun e : ClassEdit => e.Informed t module)
      (fun _ _ ok informed => informed.addInterface ok) st)
    mod.addImplements _ (informed_of_known_eq_none rfl)

theorem informed_foldl (delta : String) (mod : ClassModifier) (c : ClassDecl)
    (ops : List ClassOp) :
    (ops.foldl (step t module delta) (start delta mod c)).1.Informed t module :=
  foldl_preserves (P := fun e : ClassEdit => e.Informed t module)
    (fun _ op informed => informed.step delta op) ops _ (informed_start delta mod c)

/-! ## Where none are kept -/

/-- Only a further clause makes the names of a class with clauses unknown. -/
theorem uses_of_apply (refreshed : e.Refreshed) {op : ClassOp} (ok : e.apply delta op = .ok e')
    (unknown : e'.known = none) : e'.cls.uses = [] ∨ ∃ u, op = .addUse u := by
  cases op with
  | addMethod m =>
    rw [ClassEdit.apply, addMethod] at ok
    split at ok
    · cases ok
    · split at ok <;> cases ok
      · cases unknown
      · exact .inl (refreshed unknown)
  | modifyMethod m =>
    obtain rfl := Except.ok.inj ok
    rw [modifyMethod] at unknown ⊢
    split at unknown
    · cases unknown
    · exact .inl (refreshed unknown)
  | removeMethod sig =>
    rw [ClassEdit.apply, removeMethod] at ok
    split at ok
    · split at ok <;> cases ok
      · cases unknown
      · exact .inl (refreshed unknown)
    · cases ok
  | addField f =>
    rw [ClassEdit.apply, addField] at ok
    split at ok <;> cases ok
    exact .inl (refreshed unknown)
  | removeField name loc =>
    rw [ClassEdit.apply, removeField] at ok
    split at ok <;> cases ok
    exact .inl (refreshed unknown)
  | addUse u => exact .inr ⟨u, rfl⟩

theorem uses_of_step {st : ClassEdit × Diagnostics} {op : ClassOp}
    (unknown : (step t module delta st op).1.known = none) :
    (step t module delta st op).1.cls.uses = [] ∨ ∃ u, op = .addUse u := by
  have refreshed := refreshed_refresh t module st.1
  rcases step_cases t module delta st op with same | done
  · rw [same] at unknown ⊢
    exact .inl (refreshed unknown)
  · exact uses_of_apply refreshed done unknown

end ClassEdit

namespace Model

/-- What is known of a class under edit is right.  Behind any of the operations of a modifier, done
or failed, the names that are kept are those of the methods that the class would have if it was
composed as it stands in the model there, whatever is wrong with its clauses.  Behind an operation
none are kept only if the class has no clauses or this operation appended one. -/
theorem modifyClass_informed (m : Model) (path : DeclPath) {owner : String} {c : ClassDecl}
    (entry : m.entry? path = some ⟨path, owner, c.name, .class c⟩) (delta : String)
    (mod : ClassModifier) {done rest : List ClassOp} (split : mod.ops = done ++ rest) :
    let t := SymbolTable.ofModel m
    let st := done.foldl (ClassEdit.step t owner delta) (ClassEdit.start delta mod c)
    let now := m.modifyDecl path fun _ => .class st.1.cls
    (t.modifyClass owner delta mod c =
      let st' := rest.foldl (ClassEdit.step t owner delta) st
      (st'.1.cls, st'.2)) ∧
    (∀ names, st.1.known = some names → ∀ name, name ∈ names ↔
      name ∈ ((SymbolTable.ofModel now).composeClass owner st.1.cls .fresh).set.names) ∧
    (done ≠ [] → st.1.known = none →
      st.1.cls.uses = [] ∨ ∃ u, done.getLast? = some (.addUse u)) := by
  intro t st now
  refine ⟨?_, fun names known name => ?_, fun some unknown => ?_⟩
  · rw [ClassEdit.modifyClass_eq, split, List.foldl_append]
  · -- The edit leaves the traits as they are, so composing comes to the same in both models.
    rw [(sameTraits_editClass entry st.1.cls).composeClass]
    exact (ClassEdit.informed_foldl delta mod c done).names known name
  · obtain ⟨front, op, rfl⟩ := List.eq_nil_or_concat' done |>.resolve_left some
    have last : st = ClassEdit.step t owner delta
        (front.foldl (ClassEdit.step t owner delta) (ClassEdit.start delta mod c)) op := by
      simp only [st, List.foldl_append, List.foldl_cons, List.foldl_nil]
    rw [last] at unknown ⊢
    exact (ClassEdit.uses_of_step unknown).imp_right fun ⟨u, same⟩ =>
      ⟨u, by rw [same, List.getLast?_concat]⟩

/-- A class that uses a trait which has a method twice, and one that is defined in terms of
itself. -/
def clashingClass : ClassDecl :=
  { (default : ClassDecl) with
    name := "C", uses := [.adds (.ref "T" none), .adds (.ref "X" none)] }

def clashingModel : Model :=
  let method (name : String) : Method := .ofVersion ⟨⟨name, .named "Unit", [], none⟩, []⟩
  ⟨[⟨none, [⟨"M", [
    .trait ⟨"T", .adds (.set [method "a"]) (.set [method "a", method "b"]), none⟩,
    .trait ⟨"X", .adds (.ref "X" none) (.set [method "d"]), none⟩,
    .class clashingClass], none⟩]⟩]⟩

/-- Operations of which two fail. -/
def clashingOps : List ClassOp :=
  let method (name : String) : Method := .ofVersion ⟨⟨name, .named "Unit", [], none⟩, []⟩
  [.addMethod (method "a"), .addField ⟨"f", .named "Int", none, none⟩,
    .removeMethod (method "a").sig, .modifyMethod (method "e"), .removeMethod (method "z").sig]

/-- The modifier that adds an interface, and after those operations a further clause. -/
def clashingModifier : ClassModifier :=
  ⟨"C", ["I"], clashingOps ++ [.addUse (.removes [])], none⟩

/-- The class behind those operations. -/
def clashingEdit : ClassEdit × Diagnostics :=
  clashingOps.foldl (ClassEdit.step (.ofModel clashingModel) "M" "D")
    (ClassEdit.start "D" clashingModifier clashingClass)

theorem modifyClass_informed_clashingModel :
    let path : DeclPath := ⟨0, 0, 2⟩
    let now := clashingModel.modifyDecl path fun _ => .class clashingEdit.1.cls
    clashingModel.entry? path = some ⟨path, "M", clashingClass.name, .class clashingClass⟩ ∧
      clashingModifier.ops = clashingOps ++ [.addUse (.removes [])] ∧
      clashingEdit.1.known = some ["b", "d", "e"] ∧ clashingEdit.2.map (·.message) =
        ["delta D: class C already has method a", "delta D: class C has no method z"] ∧
      ∀ name, name ∈ ["b", "d", "e"] ↔ name ∈
        ((SymbolTable.ofModel now).composeClass "M" clashingEdit.1.cls .fresh).set.names := by
  intro path now
  have entry : clashingModel.entry? path =
      some ⟨path, "M", clashingClass.name, .class clashingClass⟩ := rfl
  have split : clashingModifier.ops = clashingOps ++ [.addUse (.removes [])] := rfl
  have known : clashingEdit.1.known = some ["b", "d", "e"] := by decide +kernel
  have reported : clashingEdit.2.map (·.message) =
      ["delta D: class C already has method a", "delta D: class C has no method z"] := by
    decide +kernel
  have informed := (modifyClass_informed clashingModel path entry "D" clashingModifier split).2.1
  refine ⟨entry, split, known, reported, ?_⟩
  exact informed ["b", "d", "e"] known

end Model

end DeltaLang
