import DeltaLang.Proofs.Delta.Parts
import DeltaLang.Proofs.Trait.Places
import Mathlib.Data.List.TakeWhile

/-!
# What an operation of a delta depends on and changes

An operation of a delta has a target: a kind of declarations and a simple name.  It only reads the
declarations of its target and, to know the names of composed methods, the traits; so it does in a
part of the model that has those what it does in the model.  And it leaves every part without
declarations of its target as it is.
-/

namespace DeltaLang

/-! ## Targets -/

/-- The kind and the simple name of a declaration. -/
def Decl.target (d : Decl) : DeclKind × String := (d.kind, simpleName d.name)

/-- The kind and the simple name of what the operation adds, removes or modifies. -/
def DeltaOp.target : DeltaOp → DeclKind × String
  | addInterface i => (.interface, simpleName i.name)
  | addClass c => (.class, simpleName c.name)
  | addTrait t => (.trait, simpleName t.name)
  | removeInterface name _ => (.interface, simpleName name)
  | removeClass name _ => (.class, simpleName name)
  | removeTrait name _ | modifyTrait name _ _ => (.trait, simpleName name)
  | modifyInterface mod => (.interface, simpleName mod.name)
  | modifyClass mod => (.class, simpleName mod.name)

/-- No trait is added, removed or modified. -/
def DeltaDecl.LeavesTraits (d : DeltaDecl) : Prop := ∀ op ∈ d.ops, op.target.1 ≠ .trait

theorem Decl.target_eq {d : Decl} {kind : DeclKind} {name : String} (hkind : d.kind = kind)
    (hname : d.name = simpleName name) : d.target = (kind, simpleName name) := by
  rw [target, hkind, hname, simpleName_simpleName]

/-! ## Traits in a part -/

section

variable {α : Type}

/-- The declarations of one kind, places aside, module by module. -/
theorem Model.unplaced_entries (m : Model) (f : Decl → Option α) :
    (m.entries.filterMap (Entry.narrow f)).map Entry.unplaced =
      m.modules.flatMap fun mod => mod.decls.filterMap fun d =>
        (f d).map (Entry.mk default mod.name d.name) := by
  have drop {β : Type} (l : List β) {γ : Type} (g : β → List γ) :
      (l.zipIdx.flatMap fun s => g s.1) = l.flatMap g := by
    conv_rhs => rw [← List.zipIdx_map_fst 0 l, List.flatMap_map]
  simp only [entries, modules, List.filterMap_flatMap, List.map_flatMap, List.flatMap_assoc]
  rw [← drop m.units]
  refine List.flatMap_congr fun s _ => ?_
  obtain ⟨u, i⟩ := s
  dsimp only
  rw [← drop u.modules]
  refine List.flatMap_congr fun s _ => ?_
  obtain ⟨mod, j⟩ := s
  dsimp only
  conv_rhs => rw [← List.zipIdx_map_fst 0 mod.decls, List.filterMap_map]
  rw [List.filterMap_map, List.map_filterMap]
  refine List.filterMap_congr fun s _ => ?_
  obtain ⟨d, k⟩ := s
  rw [Function.comp, Function.comp, Entry.narrow, Option.map_map]
  rfl

end

namespace Model

variable {m m' : Model} {p : Decl → Bool} {delta module : String} {d : Decl}

/-- All traits pass the test. -/
def KeepsTraits (p : Decl → Bool) : Prop := ∀ t, p (.trait t) = true

/-- A part has the declarations of a kind that all pass the test, in the same order. -/
theorem unplaced_entries_restrict {α : Type} {f : Decl → Option α}
    (keeps : ∀ d, (f d).isSome → p d = true) (m : Model) :
    ((m.restrict p).entries.filterMap (Entry.narrow f)).map Entry.unplaced =
      (m.entries.filterMap (Entry.narrow f)).map Entry.unplaced := by
  rw [unplaced_entries, unplaced_entries, modules_restrict, List.flatMap_map]
  refine List.flatMap_congr fun mod _ => ?_
  rw [Module.restrict, List.filterMap_filter]
  refine List.filterMap_congr fun d _ => ?_
  cases found : f d with
  | none => rw [Option.map_none, ite_self]
  | some a => rw [if_pos (keeps d (Option.isSome_iff_exists.2 ⟨a, found⟩))]

theorem sameTraits_restrict (keeps : KeepsTraits p) (m : Model) :
    (SymbolTable.ofModel (m.restrict p)).SameTraits (.ofModel m) :=
  unplaced_entries_restrict (fun d trait => by
    cases d with
    | trait t => exact keeps t
    | _ => cases trait) m

theorem sameTraits_of_restrict_eq (keeps : KeepsTraits p) (h : m.restrict p = m'.restrict p) :
    (SymbolTable.ofModel m).SameTraits (.ofModel m') := by
  have part := sameTraits_restrict keeps m'
  rw [← h] at part
  exact (sameTraits_restrict keeps m).symm.trans part

end Model

/-! ## Edits keep the name -/

theorem attempt_preserves {σ : Type} {P : σ → Prop} {step : σ → Except Diagnostic σ}
    (h : ∀ s s', step s = .ok s' → P s → P s') (st : σ × Diagnostics) (hst : P st.1) :
    P (attempt step st).1 := by
  unfold attempt
  split
  · exact h _ _ ‹_› hst
  · exact hst

theorem foldl_preserves {σ ω : Type} {P : σ → Prop} {step : σ × Diagnostics → ω → σ × Diagnostics}
    (h : ∀ st op, P st.1 → P (step st op).1) (ops : List ω) (st : σ × Diagnostics)
    (hst : P st.1) : P (ops.foldl step st).1 := by
  induction ops generalizing st with
  | nil => exact hst
  | cons op ops ih => exact ih _ (h st op hst)

theorem InterfaceDecl.name_apply {delta : String} {op : InterfaceOp} {i i' : InterfaceDecl}
    (ok : i.apply delta op = .ok i') : i'.name = i.name := by
  cases op <;> simp only [InterfaceDecl.apply] at ok <;> split at ok <;> cases ok <;> rfl

theorem InterfaceDecl.name_modify (delta : String) (mod : InterfaceModifier) (i : InterfaceDecl) :
    (i.modify delta mod).1.name = i.name := by
  let P (j : InterfaceDecl) : Prop := j.name = i.name
  exact foldl_preserves (P := P) (fun st op => attempt_preserves
    (fun j j' ok hj => (InterfaceDecl.name_apply ok).trans hj) st) mod.ops _ rfl

theorem ClassEdit.name_addInterface {delta name : String} {loc : Option Location}
    {e e' : ClassEdit} (ok : e.addInterface delta loc name = .ok e') :
    e'.cls.name = e.cls.name := by
  unfold ClassEdit.addInterface at ok
  split at ok <;> cases ok
  rfl

/-- The operations on a class leave its name and the interfaces that it names as they are. -/
theorem ClassEdit.kept_apply {delta : String} {op : ClassOp} {e e' : ClassEdit}
    (ok : e.apply delta op = .ok e') :
    e'.cls.name = e.cls.name ∧ e'.cls.implements = e.cls.implements := by
  cases op with
  | addMethod m =>
    simp only [ClassEdit.apply, ClassEdit.addMethod] at ok
    split at ok
    · cases ok
    · split at ok <;> cases ok <;> exact ⟨rfl, rfl⟩
  | modifyMethod m =>
    simp only [ClassEdit.apply, ClassEdit.modifyMethod] at ok
    split at ok <;> cases ok <;> exact ⟨rfl, rfl⟩
  | removeMethod sig =>
    simp only [ClassEdit.apply, ClassEdit.removeMethod] at ok
    split at ok
    · split at ok <;> cases ok <;> exact ⟨rfl, rfl⟩
    · cases ok
  | addField f =>
    simp only [ClassEdit.apply, ClassEdit.addField] at ok
    split at ok <;> cases ok
    exact ⟨rfl, rfl⟩
  | removeField name loc =>
    simp only [ClassEdit.apply, ClassEdit.removeField] at ok
    split at ok <;> cases ok
    exact ⟨rfl, rfl⟩
  | addUse u =>
    cases ok
    exact ⟨rfl, rfl⟩

section

variable (t : SymbolTable) (module delta : String) (mod : ClassModifier) (c : ClassDecl)

/-- What each step of a modification of a class keeps, the modification keeps. -/
theorem SymbolTable.modifyClass_induction {P : ClassDecl → Prop} (start : P c)
    (extend : ∀ (e e' : ClassEdit), ∀ name ∈ mod.addImplements,
      e.addInterface delta mod.loc name = .ok e' → P e.cls → P e'.cls)
    (edit : ∀ (e e' : ClassEdit), ∀ op ∈ mod.ops,
      e.apply delta op = .ok e' → P e.cls → P e'.cls) :
    P (t.modifyClass module delta mod c).1 := by
  have extended : P (mod.addImplements.foldl
      (fun st name => attempt (fun e => e.addInterface delta mod.loc name) st)
      ((⟨c, none⟩ : ClassEdit), [])).1.cls :=
    List.foldlRecOn (motive := fun st : ClassEdit × Diagnostics => P st.1.cls) mod.addImplements _
      start fun st h name mem => attempt_preserves (P := fun e => P e.cls)
        (fun e e' ok => extend e e' name mem ok) st h
  exact List.foldlRecOn (motive := fun st : ClassEdit × Diagnostics => P st.1.cls) mod.ops _
    extended fun st h op mem => attempt_preserves (P := fun e => P e.cls)
      (fun e e' ok => edit e e' op mem ok) (st.1.refresh t module, st.2) h

theorem SymbolTable.name_modifyClass : (t.modifyClass module delta mod c).1.name = c.name :=
  t.modifyClass_induction module delta mod c (P := fun c' => c'.name = c.name) rfl
    (fun _ _ _ _ ok same => (ClassEdit.name_addInterface ok).trans same)
    fun _ _ _ _ ok same => (ClassEdit.kept_apply ok).1.trans same

/-- A modified class names the interfaces that it named before and those that were added. -/
theorem SymbolTable.mem_implements_modifyClass {name : String}
    (mem : name ∈ (t.modifyClass module delta mod c).1.implements) :
    name ∈ c.implements ∨ name ∈ mod.addImplements := by
  refine t.modifyClass_induction module delta mod c
    (P := fun c' => ∀ name ∈ c'.implements, name ∈ c.implements ∨ name ∈ mod.addImplements)
    (fun _ => .inl) (fun e e' added mem ok before => ?_)
    (fun _ _ _ _ ok before => (ClassEdit.kept_apply ok).2 ▸ before) name mem
  unfold ClassEdit.addInterface at ok
  split at ok <;> cases ok
  intro name mem'
  rcases List.mem_append.1 mem' with mem' | last
  · exact before name mem'
  · exact .inr (List.mem_singleton.1 last ▸ mem)

end

/-! ## Operations in a part -/

namespace Model

variable {m : Model} {p : Decl → Bool} {delta module : String}

/-- All declarations of the target pass the test. -/
def Covers (p : Decl → Bool) (target : DeclKind × String) : Prop :=
  ∀ d : Decl, d.target = target → p d = true

/-- No declaration of the target passes the test. -/
def Avoids (p : Decl → Bool) (target : DeclKind × String) : Prop :=
  ∀ d : Decl, d.target = target → p d = false

theorem Covers.locate {kind : DeclKind} {name : String} (h : Covers p (kind, simpleName name))
    (m : Model) (preferred : String) :
    (m.restrict p).locate kind name preferred =
      (m.locate kind name preferred).map (m.within p) :=
  locate_restrict (fun d hkind hname => h d (Decl.target_eq hkind hname)) m preferred

theorem addDecl_restrict {d : Decl} (h : Covers p d.target) :
    (m.restrict p).addDecl delta module d = (m.addDecl delta module d).map (restrict p) := by
  rw [addDecl, addDecl, module?_restrict]
  cases m.module? module with
  | none => rfl
  | some mod =>
    have sub (d' : Decl) (hkind : d'.kind = d.kind) (hname : d'.name = d.name) : p d' = true :=
      h d' (by rw [Decl.target, Decl.target, hkind, hname])
    have position := position?_restrict sub mod
    simp only [Option.map_some, position, Option.isSome_map]
    split
    · rfl
    · exact congrArg Except.ok (appendTo_restrict m module (h d rfl))

theorem removeDecl_restrict {kind : DeclKind} {name : String} {loc : Option Location}
    (h : Covers p (kind, simpleName name)) :
    (m.restrict p).removeDecl delta module kind name loc =
      (m.removeDecl delta module kind name loc).map (restrict p) := by
  rw [removeDecl, removeDecl, h.locate]
  cases found : m.locate kind name module with
  | error e => rfl
  | ok path =>
    obtain ⟨d, hd, hkind, hname⟩ := exists_of_locate found
    exact congrArg Except.ok (eraseDecl_restrict hd (h d (Decl.target_eq hkind hname)))

theorem replaceTrait_restrict {name : String} {expr : TraitExpr} {loc : Option Location}
    (h : Covers p (.trait, simpleName name)) :
    (m.restrict p).replaceTrait delta module name expr loc =
      (m.replaceTrait delta module name expr loc).map (restrict p) := by
  rw [replaceTrait, replaceTrait, h.locate]
  cases found : m.locate .trait name module with
  | error e => rfl
  | ok path =>
    obtain ⟨d, hd, hkind, hname⟩ := exists_of_locate found
    cases d with
    | trait t =>
      refine congrArg Except.ok (modifyDecl_restrict hd (h _ (Decl.target_eq rfl hname)) ?_)
      exact h _ (Decl.target_eq rfl hname)
    | _ => cases hkind

theorem modifyInterface_restrict {mod : InterfaceModifier}
    (h : Covers p (.interface, simpleName mod.name)) :
    (m.restrict p).modifyInterface delta module mod =
      ((m.modifyInterface delta module mod).1.restrict p,
        (m.modifyInterface delta module mod).2) := by
  rw [modifyInterface, modifyInterface, h.locate]
  cases found : m.locate .interface mod.name module with
  | error e => rfl
  | ok path =>
    obtain ⟨d, hd, hkind, hname⟩ := exists_of_locate found
    have pass := h d (Decl.target_eq hkind hname)
    cases d with
    | interface i =>
      simp only [Except.map, decl?_restrict hd pass, hd]
      refine Prod.ext (modifyDecl_restrict hd pass ?_) rfl
      exact h _ (Decl.target_eq rfl ((i.name_modify delta mod).trans hname))
    | _ => cases hkind

theorem modifyClass_restrict (keeps : KeepsTraits p) {mod : ClassModifier}
    (h : Covers p (.class, simpleName mod.name)) :
    (m.restrict p).modifyClass delta module mod =
      ((m.modifyClass delta module mod).1.restrict p, (m.modifyClass delta module mod).2) := by
  rw [modifyClass, modifyClass, h.locate]
  cases found : m.locate .class mod.name module with
  | error e => rfl
  | ok path =>
    obtain ⟨d, hd, hkind, hname⟩ := exists_of_locate found
    have pass := h d (Decl.target_eq hkind hname)
    obtain ⟨owner, entry⟩ := exists_entry_of_decl? hd
    cases d with
    | «class» c =>
      simp only [Except.map, entry?_restrict entry pass, entry,
        (sameTraits_restrict keeps m).modifyClass]
      refine Prod.ext (modifyDecl_restrict hd pass ?_) rfl
      exact h _ (Decl.target_eq rfl ((SymbolTable.name_modifyClass _ _ delta mod c).trans hname))
    | _ => cases hkind

/-! ## Operations outside of a part -/

theorem restrict_of_addDecl {m' : Model} {d : Decl} (h : Avoids p d.target)
    (ok : m.addDecl delta module d = .ok m') : m'.restrict p = m.restrict p := by
  unfold addDecl at ok
  split at ok
  · obtain rfl := Except.ok.inj ok
    rfl
  · split at ok
    · cases ok
    · obtain rfl := Except.ok.inj ok
      exact appendTo_restrict_of_neg m module (h d rfl)

theorem restrict_of_removeDecl {m' : Model} {kind : DeclKind} {name : String}
    {loc : Option Location} (h : Avoids p (kind, simpleName name))
    (ok : m.removeDecl delta module kind name loc = .ok m') : m'.restrict p = m.restrict p := by
  unfold removeDecl at ok
  split at ok
  · obtain rfl := Except.ok.inj ok
    obtain ⟨d, hd, hkind, hname⟩ := exists_of_locate ‹_›
    exact eraseDecl_restrict_of_neg hd (h d (Decl.target_eq hkind hname))
  · cases ok

theorem restrict_of_replaceTrait {m' : Model} {name : String} {expr : TraitExpr}
    {loc : Option Location} (h : Avoids p (.trait, simpleName name))
    (ok : m.replaceTrait delta module name expr loc = .ok m') :
    m'.restrict p = m.restrict p := by
  unfold replaceTrait at ok
  split at ok
  · cases ok
  · obtain rfl := Except.ok.inj ok
    obtain ⟨d, hd, hkind, hname⟩ := exists_of_locate ‹_›
    cases d with
    | trait t =>
      refine modifyDecl_restrict_of_neg hd (h _ (Decl.target_eq rfl hname)) ?_
      exact h _ (Decl.target_eq rfl hname)
    | _ => cases hkind

theorem restrict_modifyInterface {mod : InterfaceModifier}
    (h : Avoids p (.interface, simpleName mod.name)) :
    (m.modifyInterface delta module mod).1.restrict p = m.restrict p := by
  unfold modifyInterface
  split
  · rfl
  · obtain ⟨d, hd, hkind, hname⟩ := exists_of_locate ‹_›
    split
    · rename_i i found
      obtain rfl := Option.some.inj (found.symm.trans hd)
      refine modifyDecl_restrict_of_neg hd (h _ (Decl.target_eq rfl hname)) ?_
      exact h _ (Decl.target_eq rfl ((i.name_modify delta mod).trans hname))
    · rfl

theorem restrict_modifyClass {mod : ClassModifier} (h : Avoids p (.class, simpleName mod.name)) :
    (m.modifyClass delta module mod).1.restrict p = m.restrict p := by
  unfold modifyClass
  split
  · rfl
  · obtain ⟨d, hd, hkind, hname⟩ := exists_of_locate ‹_›
    split
    · rename_i owner _ c entry
      obtain ⟨_, found⟩ := exists_entry_of_decl? hd
      cases found.symm.trans entry
      refine modifyDecl_restrict_of_neg hd (h _ (Decl.target_eq rfl hname)) ?_
      exact h _ (Decl.target_eq rfl
        ((SymbolTable.name_modifyClass _ _ delta mod c).trans hname))
    · rfl

/-! ## Deltas -/

theorem attempt_restrict {step : Model → Except Diagnostic Model}
    (h : ∀ m, step (m.restrict p) = (step m).map (restrict p)) (st : Model × Diagnostics) :
    attempt step (st.1.restrict p, st.2) =
      ((attempt step st).1.restrict p, (attempt step st).2) := by
  rw [attempt, attempt, h]
  cases step st.1 <;> rfl

theorem applyOp_restrict (keeps : KeepsTraits p) {op : DeltaOp} (h : Covers p op.target)
    (st : Model × Diagnostics) :
    applyOp delta module (st.1.restrict p, st.2) op =
      ((applyOp delta module st op).1.restrict p, (applyOp delta module st op).2) := by
  cases op with
  | addInterface i | addClass c | addTrait t =>
    rw [applyOp, applyOp]
    refine attempt_restrict (fun m => ?_) st
    exact addDecl_restrict h
  | removeInterface name loc | removeClass name loc | removeTrait name loc =>
    rw [applyOp, applyOp]
    refine attempt_restrict (fun m => ?_) st
    exact removeDecl_restrict h
  | modifyTrait name expr loc =>
    rw [applyOp, applyOp]
    refine attempt_restrict (fun m => ?_) st
    exact replaceTrait_restrict h
  | modifyInterface mod => rw [applyOp, applyOp, modifyInterface_restrict h]
  | modifyClass mod => rw [applyOp, applyOp, modifyClass_restrict keeps h]

theorem restrict_applyOp {op : DeltaOp} (h : Avoids p op.target) (st : Model × Diagnostics) :
    (applyOp delta module st op).1.restrict p = st.1.restrict p := by
  let P (m : Model) : Prop := m.restrict p = st.1.restrict p
  cases op with
  | addInterface i | addClass c | addTrait t =>
    exact attempt_preserves (P := P) (fun m m' ok hm => (restrict_of_addDecl h ok).trans hm) st rfl
  | removeInterface name loc | removeClass name loc | removeTrait name loc =>
    exact attempt_preserves (P := P) (fun m m' ok hm => (restrict_of_removeDecl h ok).trans hm)
      st rfl
  | modifyTrait name expr loc =>
    exact attempt_preserves (P := P) (fun m m' ok hm => (restrict_of_replaceTrait h ok).trans hm)
      st rfl
  | modifyInterface mod => exact restrict_modifyInterface h
  | modifyClass mod => exact restrict_modifyClass h

/-- An operation that leaves the traits alone keeps them. -/
theorem sameTraits_applyOp {op : DeltaOp} (leaves : op.target.1 ≠ .trait)
    (st : Model × Diagnostics) :
    (SymbolTable.ofModel (applyOp delta module st op).1).SameTraits (.ofModel st.1) := by
  have untouched : (applyOp delta module st op).1.restrict (fun d => d.kind == .trait) =
      st.1.restrict fun d => d.kind == .trait :=
    restrict_applyOp (fun d target => beq_false_of_ne fun kind => leaves (by
      rw [← target]
      exact kind)) st
  exact sameTraits_of_restrict_eq (fun _ => rfl) untouched

theorem applyOps_restrict (keeps : KeepsTraits p) {ops : List DeltaOp}
    (h : ∀ op ∈ ops, Covers p op.target) (st : Model × Diagnostics) :
    ops.foldl (applyOp delta module) (st.1.restrict p, st.2) =
      ((ops.foldl (applyOp delta module) st).1.restrict p,
        (ops.foldl (applyOp delta module) st).2) := by
  induction ops generalizing st with
  | nil => rfl
  | cons op ops ih =>
    rw [List.foldl_cons, List.foldl_cons, applyOp_restrict keeps (h op List.mem_cons_self)]
    exact ih (fun op' hop => h op' (List.mem_cons_of_mem op hop)) _

/-- In a part with all that a delta targets it does what it does in the model. -/
theorem applyDelta_restrict (keeps : KeepsTraits p) {d : DeltaDecl}
    (h : ∀ op ∈ d.ops, Covers p op.target) (m : Model) (module : String) :
    (m.restrict p).applyDelta module d =
      ((m.applyDelta module d).1.restrict p, (m.applyDelta module d).2) := by
  have start : missingModule (m.restrict p) d (d.uses.getD module) =
      m.missingModule d (d.uses.getD module) := by
    rw [missingModule, missingModule, module?_restrict, Option.isSome_map]
  rw [applyDelta, applyDelta, start]
  exact applyOps_restrict keeps h (m, m.missingModule d (d.uses.getD module))

theorem restrict_applyOps {ops : List DeltaOp} (h : ∀ op ∈ ops, Avoids p op.target)
    (st : Model × Diagnostics) :
    (ops.foldl (applyOp delta module) st).1.restrict p = st.1.restrict p := by
  induction ops generalizing st with
  | nil => rfl
  | cons op ops ih =>
    have rest := ih (fun op' hop => h op' (List.mem_cons_of_mem op hop))
    exact (rest _).trans (restrict_applyOp (h op List.mem_cons_self) st)

/-- A delta leaves a part with nothing that it targets as it is. -/
theorem restrict_applyDelta {d : DeltaDecl} (h : ∀ op ∈ d.ops, Avoids p op.target) (m : Model)
    (module : String) : (m.applyDelta module d).1.restrict p = m.restrict p :=
  restrict_applyOps h (m, m.missingModule d (d.uses.getD module))

/-- What each delta of a list keeps, all of them keep. -/
theorem applyDeltas_induction {m' : Model} {es : List (Entry DeltaDecl)} {P : Model → Prop}
    (start : P m) (step : ∀ e ∈ es, ∀ m : Model, P m → P (m.applyDelta e.module e.decl).1)
    (applied : m.applyDeltas es = .ok m') : P m' := by
  induction es generalizing m with
  | nil => exact Except.ok.inj applied ▸ start
  | cons e es ih =>
    rw [applyDeltas] at applied
    dsimp only at applied
    split at applied
    · exact ih (step e List.mem_cons_self m start)
        (fun e' mem => step e' (List.mem_cons_of_mem e mem)) applied
    · cases applied

/-- Deltas leave a part with nothing that they target as it is. -/
theorem restrict_applyDeltas {m' : Model} {es : List (Entry DeltaDecl)}
    (avoids : ∀ e ∈ es, ∀ op ∈ e.decl.ops, Avoids p op.target)
    (applied : m.applyDeltas es = .ok m') : m'.restrict p = m.restrict p :=
  applyDeltas_induction (P := fun m' => m'.restrict p = m.restrict p) rfl
    (fun e mem m' same => (restrict_applyDelta (avoids e mem) m' e.module).trans same) applied

end Model

end DeltaLang
