import DeltaLang.Proofs.Delta.Histories
import DeltaLang.Proofs.Delta.Kept
import DeltaLang.Proofs.Delta.Steps

/-!
# Deltas are taken step by step

What a delta does is what its steps do, and what it reports are the steps that failed.  While the
modifiers of an interface or a class are applied, only that declaration changes, so each operation
on it is a step of the model.  The names that are kept while a class is edited are those that its
methods would have if the class were composed at that moment, even after operations that failed.
-/

namespace DeltaLang

/-! ## Editing an interface -/

theorem InterfaceDecl.attempted_apply (delta : String) (i : InterfaceDecl) (op : InterfaceOp) :
    Attempted (op.Possible i) op.loc (· = op.effect i) (i.apply delta op) := by
  cases op with
  | addMethod sig =>
    rw [InterfaceDecl.apply]
    split
    · rename_i taken
      exact .error (fun free => free (by simpa using taken)) _ _
    · rename_i free
      exact .ok (fun taken => free (by simpa using taken)) rfl
  | removeMethod sig =>
    rw [InterfaceDecl.apply]
    split
    · rename_i found
      exact .ok (by simpa [InterfaceOp.Possible] using found) rfl
    · rename_i missing
      exact .error (fun found => missing (by simpa [InterfaceOp.Possible] using found)) _ _

/-! ## Editing a class -/

namespace SymbolTable

variable {t : SymbolTable} {module : String} {c : ClassDecl}

/-- Without clauses the methods are those that the class declares. -/
theorem mem_methodNames_of_plain (plain : c.uses = []) (name : String) :
    name ∈ t.methodNames module c ↔ (c.method? name).isSome = true := by
  have names : t.methodNames module c = (MethodSet.empty.insertAll
      ("defined twice in class " ++ c.name) c.methods).1.names := by
    rw [methodNames, composeClass_eq, applyUses, plain]
    rfl
  rw [names, MethodSet.mem_names_insertAll]
  simp [MethodSet.empty, MethodSet.names, ClassDecl.method?]

theorem methodNames_append {u : TraitUse} {used : Resolved}
    (applied : t.applyUse module (t.applyUses module c .fresh) u = used) :
    t.methodNames module { c with uses := c.uses ++ [u] } = used.set.names := by
  rw [methodNames, composeClass_eq, applyUses_append, applied]
  rfl

end SymbolTable

namespace ClassEdit

variable {t : SymbolTable} {module delta : String} {e : ClassEdit}

/-- Names are only kept of a class with clauses, and then they are those of its composed methods. -/
structure Informed (t : SymbolTable) (module : String) (e : ClassEdit) : Prop where
  uses : ∀ {names}, e.known = some names → e.cls.uses ≠ []
  names : ∀ {names}, e.known = some names →
    ∀ name, name ∈ names ↔ name ∈ t.methodNames module e.cls

theorem informed_of_known_eq_none (known : e.known = none) : e.Informed t module where
  uses found := nomatch known.symm.trans found
  names found := nomatch known.symm.trans found

theorem Informed.refresh (h : e.Informed t module) : (e.refresh t module).Informed t module := by
  cases known : e.known with
  | some names => rwa [refresh_of_known known]
  | none =>
    have found {names : List String} (found : (e.refresh t module).known = some names) :
        e.cls.uses ≠ [] ∧ t.methodNames module e.cls = names := by
      rw [ClassEdit.refresh, known, Option.none_or, SymbolTable.composedNames] at found
      split at found
      · cases found
      · rename_i clauses
        exact ⟨by simpa using clauses, Option.some.inj found⟩
    exact ⟨fun h => (found h).1, fun h name => by rw [← (found h).2]; rfl⟩

theorem Informed.hasMethod_iff (h : e.Informed t module) (refreshed : e.Refreshed)
    (name : String) : e.hasMethod name = true ↔ name ∈ t.methodNames module e.cls := by
  rw [hasMethod]
  cases known : e.known with
  | some names => exact List.contains_iff_mem.trans (h.names known name)
  | none => exact (SymbolTable.mem_methodNames_of_plain (refreshed known) name).symm

/-- A further clause, with the names that the class then has. -/
theorem informed_withUse {u : TraitUse} {used : Resolved} {names : List String}
    (applied : t.applyUse module (t.applyUses module e.cls .fresh) u = used)
    (same : ∀ name, name ∈ names ↔ name ∈ used.set.names) :
    (e.withUse u names).Informed t module where
  uses _ := List.append_ne_nil_of_right_ne_nil _ (List.cons_ne_nil u [])
  names found name := by
    obtain rfl := Option.some.inj found
    rw [same, withUse, SymbolTable.methodNames_append applied]

/-- The methods are edited as they should be, whether or not the class has clauses. -/
theorem Informed.edited (h : e.Informed t module) (refreshed : e.Refreshed) {u : TraitUse}
    (ms : List Method) (edit : List String → List String) {used : Resolved}
    (applied : t.applyUse module (t.applyUses module e.cls .fresh) u = used)
    (same : ∀ names, (∀ name, name ∈ names ↔ name ∈ t.methodNames module e.cls) →
      ∀ name, name ∈ edit names ↔ name ∈ used.set.names) :
    let e' := match e.known with
      | some names => e.withUse u (edit names)
      | none => e.withMethods ms
    e'.cls = e.cls.editMethods u ms ∧ e'.Informed t module := by
  intro e'
  cases known : e.known with
  | some names =>
    have here : e' = e.withUse u (edit names) := by simp only [e', known]
    rw [here, ClassDecl.editMethods, if_neg (h.uses known)]
    exact ⟨rfl, informed_withUse applied (same names (h.names known))⟩
  | none =>
    have here : e' = e.withMethods ms := by simp only [e', known]
    rw [here, ClassDecl.editMethods, if_pos (refreshed known)]
    exact ⟨rfl, informed_of_known_eq_none known⟩

theorem Informed.attempted_addMethod (h : e.Informed t module) (refreshed : e.Refreshed)
    (m : Method) :
    Attempted (m.name ∉ t.methodNames module e.cls) m.sig.loc
      (fun e' => e'.cls = (ClassOp.addMethod m).effect e.cls ∧ e'.Informed t module)
      (e.addMethod delta m) := by
  rw [addMethod]
  by_cases taken : m.name ∈ t.methodNames module e.cls
  · rw [if_pos ((h.hasMethod_iff refreshed _).2 taken)]
    exact .error (not_not.2 taken) _ _
  · have inserted := MethodSet.insert?_of_not_mem (s := (t.applyUses module e.cls .fresh).set) taken
    have edited := h.edited refreshed (e.cls.methods ++ [m]) (addName m.name)
      (SymbolTable.applyUse_adds_singleton inserted) fun names same name => by
        rw [mem_addName_iff, same, MethodSet.names_of_insert? inserted, List.mem_append,
          List.mem_singleton]
        exact Or.comm
    rw [if_neg (mt (h.hasMethod_iff refreshed _).1 taken)]
    cases known : e.known <;> rw [known] at edited <;> exact .ok taken edited

theorem Informed.modifyMethod (h : e.Informed t module) (refreshed : e.Refreshed) (m : Method) :
    (e.modifyMethod m).cls = (ClassOp.modifyMethod m).effect e.cls ∧
      (e.modifyMethod m).Informed t module :=
  h.edited refreshed (modifyFirst m e.cls.methods) (addName m.name)
    (SymbolTable.applyUse_modifies_singleton _ m) fun names same name => by
      rw [mem_addName_iff, same, MethodSet.mem_names_modify]
      rfl

theorem Informed.attempted_removeMethod (h : e.Informed t module) (refreshed : e.Refreshed)
    (sig : Signature) :
    Attempted (sig.name ∈ t.methodNames module e.cls) sig.loc
      (fun e' => e'.cls = (ClassOp.removeMethod sig).effect e.cls ∧ e'.Informed t module)
      (e.removeMethod delta sig) := by
  rw [removeMethod]
  by_cases found : sig.name ∈ t.methodNames module e.cls
  · have edited := h.edited refreshed (e.cls.methods.eraseP (·.name == sig.name))
      (List.filter (· ≠ sig.name))
      (SymbolTable.applyUse_removes_singleton (MethodSet.contains_iff.2 found))
      fun names same name => by
        rw [MethodSet.mem_names_erase, List.mem_filter, same, decide_eq_true_iff]
        rfl
    rw [if_pos ((h.hasMethod_iff refreshed _).2 found)]
    cases known : e.known <;> rw [known] at edited <;> exact .ok found edited
  · rw [if_neg (mt (h.hasMethod_iff refreshed _).1 found)]
    exact .error found _ _

/-- What is not about methods and clauses leaves the names of the methods as they are. -/
theorem Informed.of_eq {e' : ClassEdit} (h : e.Informed t module) (known : e'.known = e.known)
    (methods : e'.cls.methods = e.cls.methods) (uses : e'.cls.uses = e.cls.uses)
    (name : e'.cls.name = e.cls.name) : e'.Informed t module := by
  have same : t.methodNames module e'.cls = t.methodNames module e.cls := by
    rw [SymbolTable.methodNames, SymbolTable.methodNames, SymbolTable.composeClass,
      SymbolTable.composeClass, methods, uses, name]
  refine ⟨fun found => ?_, fun found => ?_⟩
  · rw [uses]
    exact h.uses (known ▸ found)
  · rw [same]
    exact h.names (known ▸ found)

theorem Informed.attempted_apply (h : e.Informed t module) (refreshed : e.Refreshed)
    (op : ClassOp) :
    Attempted (op.Possible (t.methodNames module e.cls) e.cls) op.loc
      (fun e' => e'.cls = op.effect e.cls ∧ e'.Informed t module) (e.apply delta op) := by
  cases op with
  | addMethod m => exact h.attempted_addMethod refreshed m
  | modifyMethod m => exact .ok trivial (h.modifyMethod refreshed m)
  | removeMethod sig => exact h.attempted_removeMethod refreshed sig
  | addField f =>
    rw [ClassEdit.apply, addField]
    split
    · rename_i taken
      exact .error (fun free : e.cls.fieldType? f.name = none => by simp [free] at taken) _ _
    · rename_i free
      exact .ok (Option.not_isSome_iff_eq_none.1 free) ⟨rfl, h.of_eq rfl rfl rfl rfl⟩
  | removeField name loc =>
    rw [ClassEdit.apply, removeField]
    split
    · rename_i found
      exact .ok found ⟨rfl, h.of_eq rfl rfl rfl rfl⟩
    · rename_i missing
      exact .error missing _ _
  | addUse u => exact .ok trivial ⟨rfl, informed_of_known_eq_none rfl⟩

theorem Informed.attempted_addInterface (h : e.Informed t module) (loc : Option Location)
    (name : String) :
    Attempted (name ∉ e.cls.implements) loc
      (fun e' => e'.cls = { e.cls with implements := e.cls.implements ++ [name] } ∧
        e'.Informed t module)
      (e.addInterface delta loc name) := by
  rw [addInterface]
  split
  · rename_i taken
    exact .error (not_not.2 (List.contains_iff_mem.1 taken)) _ _
  · rename_i free
    exact .ok (mt List.contains_iff_mem.2 free) ⟨rfl, h.of_eq rfl rfl rfl rfl⟩

end ClassEdit

/-! ## Editing a declaration of a model -/

theorem Attempted.imp {σ : Type} {possible possible' : Prop} {loc : Option Location}
    {wanted wanted' : σ → Prop} {x : Except Diagnostic σ} (h : Attempted possible loc wanted x)
    (same : possible' ↔ possible) (done : ∀ s, wanted s → wanted' s) :
    Attempted possible' loc wanted' x := by
  cases h with
  | ok possible wanted => exact .ok (same.2 possible) (done _ wanted)
  | error impossible kind message => exact .error (mt same.1 impossible) kind message

namespace Model

variable {m m' : Model} {path : DeclPath} {owner target delta : String} {there : Bool}

theorem modifyDecl_modifyDecl (m : Model) (path : DeclPath) (f g : Decl → Decl) :
    (m.modifyDecl path f).modifyDecl path g = m.modifyDecl path (g ∘ f) := by
  simp only [modifyDecl, modifyModule, Module.modifyDecl, List.modify_modify_eq, Function.comp_def]

theorem moduleAt?_modifyModule (m : Model) (unit module : Nat) (f : Module → Module) :
    (m.modifyModule unit module f).moduleAt? unit module = (m.moduleAt? unit module).map f := by
  simp only [moduleAt?, modifyModule, List.getElem?_modify_eq, Option.map_eq_map, Option.bind_map,
    Option.map_bind, Function.comp_def]

theorem entry?_modifyDecl {e : Entry Decl} (found : m.entry? path = some e) (f : Decl → Decl) :
    Model.entry? (m.modifyDecl path f) path = some ⟨path, e.module, (f e.decl).name, f e.decl⟩ := by
  rw [entry?_eq, Option.bind_eq_some_iff] at found
  obtain ⟨mod, hmod, found⟩ := found
  obtain ⟨d, hdecl, rfl⟩ := Option.map_eq_some_iff.1 found
  rw [entry?_eq, modifyDecl, moduleAt?_modifyModule, hmod]
  simp [Module.modifyDecl, hdecl]

/-! ### Interfaces -/

theorem attempted_editInterface {i j : InterfaceDecl} (here : m.decl? path = some (.interface i))
    (op : InterfaceOp) :
    let step := DeltaStep.editInterface path op
    let edited := m.modifyDecl path fun _ => .interface j
    Attempted (step.Possible target edited) step.loc
      (fun j' => step.effect target edited = m.modifyDecl path fun _ => .interface j')
      (j.apply delta op) := by
  intro step edited
  obtain ⟨owner, entry⟩ := exists_entry_of_decl? here
  have now : edited.decl? path = some (.interface j) :=
    decl?_of_entry?_eq_some (entry?_modifyDecl entry fun _ => .interface j)
  refine (j.attempted_apply delta op).imp ⟨?_, fun possible => ⟨j, now, possible⟩⟩ fun j' done => ?_
  · rintro ⟨j', found, possible⟩
    cases now.symm.trans found
    exact possible
  · subst done
    exact modifyDecl_modifyDecl m path _ _

/-! ### Classes -/

section

variable {c : ClassDecl} {e : ClassEdit}

theorem attempted_implement (entry : m.entry? path = some ⟨path, owner, c.name, .class c⟩)
    (informed : e.Informed (.ofModel m) owner) (loc : Option Location) (name : String) :
    let step := DeltaStep.implement path name loc
    let edited := m.modifyDecl path fun _ => .class e.cls
    Attempted (step.Possible target edited) step.loc
      (fun e' => step.effect target edited = m.modifyDecl path (fun _ => .class e'.cls) ∧
        e'.Informed (.ofModel m) owner)
      (e.addInterface delta loc name) := by
  intro step edited
  have now : edited.decl? path = some (.class e.cls) :=
    decl?_of_entry?_eq_some (entry?_modifyDecl entry fun _ => .class e.cls)
  refine (informed.attempted_addInterface loc name).imp
    ⟨?_, fun possible => ⟨e.cls, now, possible⟩⟩ fun e' done => ⟨?_, done.2⟩
  · rintro ⟨c', found, possible⟩
    cases now.symm.trans found
    exact possible
  · rw [done.1]
    exact modifyDecl_modifyDecl m path _ _

/-- Editing a class keeps what is known of the traits. -/
theorem sameTraits_editClass (entry : m.entry? path = some ⟨path, owner, c.name, .class c⟩)
    (c' : ClassDecl) :
    (SymbolTable.ofModel (m.modifyDecl path fun _ => .class c')).SameTraits (.ofModel m) :=
  sameTraits_of_restrict_eq (p := fun d => d.kind == .trait) (fun _ => rfl)
    (modifyDecl_restrict_of_neg (decl?_of_entry?_eq_some entry) rfl rfl)

theorem attempted_editClass (entry : m.entry? path = some ⟨path, owner, c.name, .class c⟩)
    (informed : e.Informed (.ofModel m) owner) (refreshed : e.Refreshed) (op : ClassOp) :
    let step := DeltaStep.editClass path op
    let edited := m.modifyDecl path fun _ => .class e.cls
    Attempted (step.Possible target edited) step.loc
      (fun e' => step.effect target edited = m.modifyDecl path (fun _ => .class e'.cls) ∧
        e'.Informed (.ofModel m) owner)
      (e.apply delta op) := by
  intro step edited
  have now : edited.entry? path = some ⟨path, owner, e.cls.name, .class e.cls⟩ :=
    entry?_modifyDecl entry fun _ => .class e.cls
  have names : (SymbolTable.ofModel edited).methodNames owner e.cls =
      (SymbolTable.ofModel m).methodNames owner e.cls := by
    rw [SymbolTable.methodNames, SymbolTable.methodNames,
      (sameTraits_editClass entry e.cls).composeClass]
  refine (informed.attempted_apply refreshed op).imp
    ⟨?_, fun possible => ⟨owner, e.cls, now, names ▸ possible⟩⟩ fun e' done => ⟨?_, done.2⟩
  · rintro ⟨owner', c', found, possible⟩
    have same := now.symm.trans found
    simp only [Option.some.injEq, Entry.mk.injEq, Decl.class.injEq, true_and] at same
    obtain ⟨rfl, -, rfl⟩ := same
    exact names ▸ possible
  · rw [done.1]
    exact modifyDecl_modifyDecl m path _ _

end

/-! ## Operations -/

/-- A target that is not found is an error at the place of the operation. -/
theorem attempted_of_missing {σ : Type} {possible : Prop} {wanted : σ → Prop}
    (impossible : ¬possible) (kind : DiagnosticKind) (what : DeclKind) (name : String)
    (loc : Option Location) (err : LookupError) :
    Attempted possible loc wanted (.error (targetFailure delta kind what name loc err)) := by
  cases err <;> exact .error impossible _ _

theorem not_exists_of_locate_eq_error {kind : DeclKind} {name : String} {err : LookupError}
    (missing : m.locate kind name target = .error err) :
    ¬∃ path, m.locate kind name target = .ok path := by
  rintro ⟨path, found⟩
  cases missing.symm.trans found

theorem attempted_addDecl (there : (m.module? target).isSome = true) (d : Decl) :
    Attempted ((DeltaStep.add d).Possible target m) d.location
      (fun m' => m' = (DeltaStep.add d).effect target m) (m.addDecl delta target d) := by
  obtain ⟨mod, found⟩ := Option.isSome_iff_exists.1 there
  rw [addDecl, found]
  dsimp only
  split
  · rename_i taken
    refine .error ?_ _ _
    rintro ⟨mod', found', free⟩
    obtain rfl := Option.some.inj (found.symm.trans found')
    rw [free] at taken
    cases taken
  · rename_i free
    exact .ok ⟨mod, found, Option.not_isSome_iff_eq_none.1 free⟩ rfl

theorem attempted_removeDecl (m : Model) (delta target : String) (kind : DeclKind) (name : String)
    (loc : Option Location) :
    Attempted ((DeltaStep.remove kind name loc).Possible target m) loc
      (fun m' => m' = (DeltaStep.remove kind name loc).effect target m)
      (m.removeDecl delta target kind name loc) := by
  rw [removeDecl, DeltaStep.effect]
  cases located : m.locate kind name target with
  | ok path => exact .ok ⟨path, located⟩ rfl
  | error err => exact attempted_of_missing (not_exists_of_locate_eq_error located) _ _ _ _ _

theorem attempted_replaceTrait (m : Model) (delta target name : String) (expr : TraitExpr)
    (loc : Option Location) :
    Attempted ((DeltaStep.replaceTrait name expr loc).Possible target m) loc
      (fun m' => m' = (DeltaStep.replaceTrait name expr loc).effect target m)
      (m.replaceTrait delta target name expr loc) := by
  rw [replaceTrait, DeltaStep.effect]
  cases located : m.locate .trait name target with
  | ok path => exact .ok ⟨path, located⟩ (congrArg (m.modifyDecl path) (by
      funext d
      cases d <;> rfl))
  | error err => exact attempted_of_missing (not_exists_of_locate_eq_error located) _ _ _ _ _

/-- A step that is attempted on the model. -/
theorem exists_takes_attempt {s : DeltaStep} {f : Model → Except Diagnostic Model}
    (h : Attempted (s.Possible target m) s.loc (fun m' => m' = s.effect target m) (f m))
    (ds : Diagnostics) :
    ∃ log, Takes target [s] m log (attempt f (m, ds)).1 ∧
      (attempt f (m, ds)).2 = ds ++ log.errors := by
  obtain ⟨o, m', ends, rfl, findings⟩ := h.ends target Eq (m, ds) rfl
  refine ⟨[(s, o)], .cons ends (.nil _), findings.trans ?_⟩
  cases o <;> rfl

/-- A modifier that finds no declaration is one failed step. -/
theorem exists_takes_seek {kind : DeclKind} {name : String} {err : LookupError}
    (missing : m.locate kind name target = .error err) (loc : Option Location) :
    ∃ log, Takes target [.seek kind name loc] m log m ∧
      [targetFailure delta .modifyTargetNotFound kind name loc err] = log.errors := by
  have failed : Attempted ((DeltaStep.seek kind name loc).Possible target m) loc (fun m' => m' = m)
      (.error (targetFailure delta .modifyTargetNotFound kind name loc err)) :=
    attempted_of_missing (not_exists_of_locate_eq_error missing) _ _ _ _ _
  exact exists_takes_attempt (s := .seek kind name loc) (f := fun _ => .error _) failed []

theorem exists_takes_modifyInterface (m : Model) (delta target : String) (mod : InterfaceModifier) :
    ∃ log, Takes target ((DeltaOp.modifyInterface mod).steps there target m) m log
        (m.modifyInterface delta target mod).1 ∧
      (m.modifyInterface delta target mod).2 = log.errors := by
  rw [DeltaOp.steps, modifyInterface]
  cases located : m.locate .interface mod.name target with
  | error err => exact exists_takes_seek located mod.loc
  | ok path =>
    obtain ⟨d, here, kind, -⟩ := exists_of_locate located
    cases d with
    | interface i =>
      dsimp only
      rw [here]
      -- Meanwhile the model is the one that has the interface under edit in the place of the other.
      let R (j : InterfaceDecl) (m' : Model) : Prop := m' = m.modifyDecl path fun _ => .interface j
      obtain ⟨log, m', takes, rfl, findings⟩ := exists_takes_foldl target R
        (fun st op => attempt (fun i => i.apply delta op) st) (.editInterface path)
        (fun op st m' same => by
          obtain rfl := same
          exact (attempted_editInterface here op).ends target R st rfl)
        mod.ops (i, []) (modifyDecl_self here).symm
      exact ⟨log, takes, findings⟩
    | _ => cases kind

/-- A modifier of a class is taken operation by operation. -/
theorem exists_takes_editClass {c : ClassDecl}
    (entry : m.entry? path = some ⟨path, owner, c.name, .class c⟩) (delta target : String)
    (mod : ClassModifier) :
    let edited := (SymbolTable.ofModel m).modifyClass owner delta mod c
    ∃ log, Takes target
        (mod.addImplements.map (.implement path · mod.loc) ++ mod.ops.map (.editClass path)) m log
        (m.modifyDecl path fun _ => .class edited.1) ∧
      edited.2 = log.errors := by
  intro edited
  -- Meanwhile the traits are those of the model, so what is known of the class stays right.
  let R (e : ClassEdit) (m' : Model) : Prop :=
    m' = m.modifyDecl path (fun _ => .class e.cls) ∧ e.Informed (.ofModel m) owner
  have start : R ⟨c, none⟩ m :=
    ⟨(modifyDecl_self (decl?_of_entry?_eq_some entry)).symm,
      ClassEdit.informed_of_known_eq_none rfl⟩
  obtain ⟨log, m', takes, extended, findings⟩ := exists_takes_foldl target R
    (fun st name => attempt (fun e => e.addInterface delta mod.loc name) st)
    (.implement path · mod.loc)
    (fun name st m' related => by
      obtain ⟨rfl, informed⟩ := related
      exact (attempted_implement entry informed mod.loc name).ends target R st ⟨rfl, informed⟩)
    mod.addImplements (⟨c, none⟩, []) start
  obtain ⟨log', m'', takes', ⟨rfl, -⟩, findings'⟩ := exists_takes_foldl target R
    (fun st op => attempt (fun e => e.apply delta op) (st.1.refresh (.ofModel m) owner, st.2))
    (.editClass path)
    (fun op st m' related => by
      obtain ⟨rfl, informed⟩ := related
      have refreshed := ClassEdit.refreshed_refresh (.ofModel m) owner st.1
      exact (attempted_editClass entry informed.refresh refreshed op).ends target R
        (st.1.refresh (.ofModel m) owner, st.2) ⟨rfl, informed.refresh⟩)
    mod.ops _ extended
  refine ⟨log ++ log', takes.append takes', ?_⟩
  rw [StepLog.errors_append]
  exact findings'.trans (congrArg (· ++ log'.errors) findings)

theorem exists_takes_modifyClass (m : Model) (delta target : String) (mod : ClassModifier) :
    ∃ log, Takes target ((DeltaOp.modifyClass mod).steps there target m) m log
        (m.modifyClass delta target mod).1 ∧
      (m.modifyClass delta target mod).2 = log.errors := by
  rw [DeltaOp.steps, modifyClass]
  cases located : m.locate .class mod.name target with
  | error err => exact exists_takes_seek located mod.loc
  | ok path =>
    obtain ⟨d, here, kind, -⟩ := exists_of_locate located
    cases d with
    | «class» c =>
      obtain ⟨owner, entry⟩ := exists_entry_of_decl? here
      dsimp only
      rw [entry]
      exact exists_takes_editClass entry delta target mod
    | _ => cases kind

theorem exists_takes_addDecl (same : (m.module? target).isSome = there) (d : Decl)
    (ds : Diagnostics) :
    ∃ log, Takes target (if there then [.add d] else []) m log
        (attempt (fun m => m.addDecl delta target d) (m, ds)).1 ∧
      (attempt (fun m => m.addDecl delta target d) (m, ds)).2 = ds ++ log.errors := by
  cases there with
  | true => exact exists_takes_attempt (attempted_addDecl same d) ds
  | false =>
    -- Nothing is tried, and nothing is reported again.
    have nothing : attempt (fun m => m.addDecl delta target d) (m, ds) = (m, ds) := by
      rw [attempt, addDecl, Option.not_isSome_iff_eq_none.1 (Bool.eq_false_iff.1 same)]
    rw [nothing]
    exact ⟨[], .nil m, (List.append_nil ds).symm⟩

/-- An operation is taken in its steps, and reports those that fail. -/
theorem exists_takes_applyOp (delta : String) (same : (m.module? target).isSome = there)
    (ds : Diagnostics) (op : DeltaOp) :
    ∃ log, Takes target (op.steps there target m) m log (applyOp delta target (m, ds) op).1 ∧
      (applyOp delta target (m, ds) op).2 = ds ++ log.errors := by
  cases op with
  | addInterface i | addClass c | addTrait t => exact exists_takes_addDecl same _ ds
  | removeInterface name loc | removeClass name loc | removeTrait name loc =>
    exact exists_takes_attempt (attempted_removeDecl m delta target _ name loc) ds
  | modifyTrait name expr loc =>
    exact exists_takes_attempt (attempted_replaceTrait m delta target name expr loc) ds
  | modifyInterface mod =>
    obtain ⟨log, takes, findings⟩ := exists_takes_modifyInterface m delta target mod
    exact ⟨log, takes, congrArg (ds ++ ·) findings⟩
  | modifyClass mod =>
    obtain ⟨log, takes, findings⟩ := exists_takes_modifyClass m delta target mod
    exact ⟨log, takes, congrArg (ds ++ ·) findings⟩

/-! ## Deltas -/

theorem isSome_module?_congr (same : m'.modules.map Module.name = m.modules.map Module.name)
    (name : String) : (m'.module? name).isSome = (m.module? name).isSome := by
  have named (m : Model) :
      (m.module? name).isSome = (m.modules.map Module.name).any (· == name) := by
    rw [module?, List.isSome_find?, List.any_map]
    rfl
  rw [named, named, same]

theorem exists_unfolds (delta : String) (same : (m.module? target).isSome = there)
    (ops : List DeltaOp) (ds : Diagnostics) :
    ∃ log, Unfolds there target ops m log (ops.foldl (applyOp delta target) (m, ds)).1 ∧
      (ops.foldl (applyOp delta target) (m, ds)).2 = ds ++ log.errors := by
  induction ops generalizing m ds with
  | nil => exact ⟨[], .nil m, (List.append_nil ds).symm⟩
  | cons op ops ih =>
    obtain ⟨log, takes, findings⟩ := exists_takes_applyOp delta same ds op
    have kept := isSome_module?_congr (names_modules_applyOp delta target (m, ds) op) target
    obtain ⟨log', rest, findings'⟩ := ih (kept.trans same) (applyOp delta target (m, ds) op).2
    refine ⟨log ++ log', .cons takes rest, ?_⟩
    rw [StepLog.errors_append, ← List.append_assoc]
    exact findings'.trans (congrArg (· ++ log'.errors) findings)

theorem errorCount_missingModule (m : Model) (d : DeltaDecl) (target : String) :
    (m.missingModule d target).errorCount = if (m.module? target).isSome then 0 else 1 := by
  rw [missingModule]
  split <;> rfl

/-- A delta is taken step by step.  Each step is taken in full and reports nothing, or is one error
and does nothing, so that only trying the steps that did not fail takes them all and leads to the
same model.  There are as many errors as steps that failed, and one more if the module to add to
does not exist; then nothing is added.  A modifier that finds no declaration is one failed step. -/
theorem applyDelta_stepwise (m : Model) (module : String) (d : DeltaDecl) :
    let target := d.uses.getD module
    let there := (m.module? target).isSome
    ∃ log : StepLog,
      Unfolds there target d.ops m log (m.applyDelta module d).1 ∧
      (m.applyDelta module d).2 = m.missingModule d target ++ log.errors ∧
      Takes target log.taken m (log.taken.map (·, none)) (m.applyDelta module d).1 ∧
      (m.applyDelta module d).2.errorCount =
        (if there then 0 else 1) + log.countP (·.2.isSome) := by
  intro target there
  obtain ⟨log, unfolds, findings⟩ := exists_unfolds d.name (rfl : _ = there) d.ops
    (m.missingModule d target)
  obtain ⟨steps, takes⟩ := unfolds.exists_takes
  have errors : log.errors.errorCount = log.countP (·.2.isSome) := by
    rw [Diagnostics.errorCount, Diagnostics.errors, List.filter_eq_self.2 takes.isError]
    exact List.length_filterMap_eq_countP
  refine ⟨log, unfolds, findings, takes.taken, ?_⟩
  calc (m.applyDelta module d).2.errorCount
      = (m.missingModule d target ++ log.errors).errorCount :=
        congrArg Diagnostics.errorCount findings
    _ = (m.missingModule d target).errorCount + log.errors.errorCount :=
        Diagnostics.errorCount_append
    _ = (if there then 0 else 1) + log.countP (·.2.isSome) := by
        rw [errors, errorCount_missingModule]

end Model

end DeltaLang
