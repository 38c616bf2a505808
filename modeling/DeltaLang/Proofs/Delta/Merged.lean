import DeltaLang.Proofs.Delta.Selection
import DeltaLang.Proofs.Trait.Merged

/-!
# Flattening models put together

A delta finds what it targets by name, and adds to the first module of a name.  So where its model
ignores what another one declares, it does in the two together what it does without the other in
front, and the product is that of the second model behind the composition of the first.
-/

namespace DeltaLang

theorem modify_append_right {α : Type} (front back : List α) (i : Nat) (f : α → α) :
    (front ++ back).modify (i + front.length) f = front ++ back.modify i f := by
  induction front with
  | nil => rfl
  | cons a front ih =>
    rw [List.length_cons, ← Nat.add_assoc, List.cons_append, List.modify_succ_cons, ih,
      List.cons_append]

namespace Model

variable {v m : Model}

/-! ## Places in the second model -/

theorem moduleAt?_append (v m : Model) (unit module : Nat) :
    (v.append m).moduleAt? (unit + v.units.length) module = m.moduleAt? unit module := by
  rw [moduleAt?, moduleAt?, append, List.getElem?_append_right (Nat.le_add_left _ _),
    Nat.add_sub_cancel]

theorem decl?_append (v m : Model) (path : DeclPath) :
    (v.append m).decl? (path.shift v.units.length) = m.decl? path := by
  rw [decl?_eq, decl?_eq, DeclPath.shift, moduleAt?_append]

theorem entry?_append (v m : Model) (path : DeclPath) :
    Model.entry? (v.append m) (path.shift v.units.length) =
      (m.entry? path).map (Entry.move (.shift v.units.length)) := by
  rw [entry?_eq, entry?_eq, DeclPath.shift, moduleAt?_append, Option.map_bind]
  refine congrArg (Option.bind _) (funext fun mod => ?_)
  rw [Function.comp_apply, Option.map_map]
  rfl

theorem modifyModule_append (v m : Model) (unit module : Nat) (f : Module → Module) :
    (v.append m).modifyModule (unit + v.units.length) module f =
      v.append (m.modifyModule unit module f) :=
  congrArg Model.mk (modify_append_right _ _ _ _)

theorem modifyDecl_append (v m : Model) (path : DeclPath) (f : Decl → Decl) :
    (v.append m).modifyDecl (path.shift v.units.length) f = v.append (m.modifyDecl path f) :=
  modifyModule_append v m _ _ _

theorem eraseDecl_append (v m : Model) (path : DeclPath) :
    (v.append m).eraseDecl (path.shift v.units.length) = v.append (m.eraseDecl path) :=
  modifyModule_append v m _ _ _

theorem appendTo_append {name : String} (other : ∀ mod ∈ v.modules, mod.name ≠ name) (d : Decl) :
    (v.append m).appendTo name d = v.append (m.appendTo name d) := by
  obtain ⟨units⟩ := v
  refine congrArg Model.mk ?_
  dsimp only [append]
  induction units with
  | nil => rfl
  | cons u us ih =>
    rw [modules, List.flatMap_cons, List.forall_mem_append] at other
    have absent : u.modules.any (·.name == name) = false :=
      List.any_eq_false.2 fun mod mem => by simpa using other.1 mod mem
    rw [List.cons_append, appendToUnits, absent, if_neg Bool.false_ne_true, ih other.2]
    rfl

/-! ## Names in the second model -/

theorem sightings_append {simple : String} (undeclared : ¬v.Declares (simpleName simple))
    (m : Model) (kind : DeclKind) (qualifier : Option String) :
    (v.append m).sightings kind qualifier simple =
      (m.sightings kind qualifier simple).map fun s => (s.1, s.2.shift v.units.length) := by
  have none : v.sightings kind qualifier simple = [] := List.eq_nil_iff_forall_not_mem.2
    fun s mem => by
      obtain ⟨d, found, -, named⟩ := exists_of_mem_sightings mem
      obtain ⟨mod, entry⟩ := exists_entry_of_decl? found
      have mem : ⟨s.2, mod, d.name, d⟩ ∈ v.entries := mem_entries_iff.2 entry
      have declared := declares_of_mem_entries mem
      exact undeclared (named ▸ declared)
  rw [sightings] at none
  rw [sightings, sightings, zipIdx_units_append, List.flatMap_append, none, List.nil_append,
    List.flatMap_map, List.map_flatMap]
  refine List.flatMap_congr fun s _ => ?_
  rw [List.map_filterMap]
  refine List.filterMap_congr fun s' _ => ?_
  dsimp only
  split
  · rw [Option.map_map]
    rfl
  · rfl

theorem locate_append {name : String} (undeclared : ¬v.Declares (simpleName name)) (m : Model)
    (kind : DeclKind) (preferred : String) :
    (v.append m).locate kind name preferred =
      (m.locate kind name preferred).map (.shift v.units.length) := by
  rw [← simpleName_simpleName] at undeclared
  exact locate_of_sightings (sightings_append undeclared m kind _) preferred

/-! ## Operations -/

variable {delta module : String}

theorem addDecl_append (other : ∀ mod ∈ v.modules, mod.name ≠ module) (m : Model) (d : Decl) :
    (v.append m).addDecl delta module d = (m.addDecl delta module d).map v.append := by
  rw [addDecl, addDecl, module?_append other, appendTo_append other]
  cases m.module? module with
  | none => rfl
  | some target =>
    dsimp only
    split <;> rfl

theorem removeDecl_append {name : String} (undeclared : ¬v.Declares (simpleName name)) (m : Model)
    (kind : DeclKind) (loc : Option Location) :
    (v.append m).removeDecl delta module kind name loc =
      (m.removeDecl delta module kind name loc).map v.append := by
  rw [removeDecl, removeDecl, locate_append undeclared]
  cases m.locate kind name module with
  | error e => rfl
  | ok path => exact congrArg Except.ok (eraseDecl_append v m path)

theorem replaceTrait_append {name : String} (undeclared : ¬v.Declares (simpleName name))
    (m : Model) (expr : TraitExpr) (loc : Option Location) :
    (v.append m).replaceTrait delta module name expr loc =
      (m.replaceTrait delta module name expr loc).map v.append := by
  rw [replaceTrait, replaceTrait, locate_append undeclared]
  cases m.locate .trait name module with
  | error e => rfl
  | ok path => exact congrArg Except.ok (modifyDecl_append v m path _)

theorem modifyInterface_append {mod : InterfaceModifier}
    (undeclared : ¬v.Declares (simpleName mod.name)) (m : Model) :
    (v.append m).modifyInterface delta module mod =
      (v.append (m.modifyInterface delta module mod).1,
        (m.modifyInterface delta module mod).2) := by
  rw [modifyInterface, modifyInterface, locate_append undeclared]
  cases m.locate .interface mod.name module with
  | error e => rfl
  | ok path =>
    simp only [Except.map, decl?_append]
    split
    · exact Prod.ext (modifyDecl_append v m path _) rfl
    · rfl

theorem modifyClass_append (ignores : m.Ignores v) {mod : ClassModifier}
    (undeclared : ∀ n ∈ (DeltaOp.modifyClass mod).mentions, ¬v.Declares (simpleName n)) :
    (v.append m).modifyClass delta module mod =
      (v.append (m.modifyClass delta module mod).1, (m.modifyClass delta module mod).2) := by
  rw [DeltaOp.mentions, List.forall_mem_cons, List.forall_mem_append,
    List.forall_mem_flatMap] at undeclared
  rw [modifyClass, modifyClass, locate_append undeclared.1]
  cases located : m.locate .class mod.name module with
  | error e => rfl
  | ok path =>
    obtain ⟨d, found, kind, -⟩ := exists_of_locate located
    obtain ⟨owner, entry⟩ := exists_entry_of_decl? found
    cases d with
    | «class» c =>
      have mem : ⟨path, owner, c.name, .class c⟩ ∈ m.entries := mem_entries_iff.2 entry
      have within : c.Within fun n => ¬v.Declares (simpleName n) :=
        ClassDecl.within_iff.2 (ignores.decl mem)
      have same := (embeds_shift v m).modifyClass ignores.traitsIn Method.stacks_within owner delta
        within.members fun op hop => ClassOp.over_of_within (undeclared.2.2 op hop)
      simp only [Except.map, entry?_append, entry, Option.map_some, Entry.move, same]
      exact Prod.ext (modifyDecl_append v m path _) rfl
    | _ => cases kind

theorem attempt_append {step : Model → Except Diagnostic Model} {st : Model × Diagnostics}
    (h : step (v.append st.1) = (step st.1).map v.append) :
    attempt step (v.append st.1, st.2) = (v.append (attempt step st).1, (attempt step st).2) := by
  rw [attempt, attempt, h]
  cases step st.1 <;> rfl

/-- An operation that mentions nothing of what the first model declares does in both together what
it does in the second. -/
theorem applyOp_append (other : ∀ mod ∈ v.modules, mod.name ≠ module) {st : Model × Diagnostics}
    (ignores : st.1.Ignores v) {op : DeltaOp}
    (undeclared : ∀ n ∈ op.mentions, ¬v.Declares (simpleName n)) :
    applyOp delta module (v.append st.1, st.2) op =
      (v.append (applyOp delta module st op).1, (applyOp delta module st op).2) := by
  cases op with
  | addInterface i | addClass c | addTrait t =>
    rw [applyOp, applyOp]
    refine attempt_append ?_
    exact addDecl_append other st.1 _
  | removeInterface name loc | removeClass name loc | removeTrait name loc =>
    rw [applyOp, applyOp]
    refine attempt_append ?_
    exact removeDecl_append (undeclared name List.mem_cons_self) st.1 _ loc
  | modifyTrait name expr loc =>
    rw [applyOp, applyOp]
    refine attempt_append ?_
    exact replaceTrait_append (undeclared name List.mem_cons_self) st.1 expr loc
  | modifyInterface mod =>
    rw [applyOp, applyOp, modifyInterface_append (undeclared mod.name List.mem_cons_self)]
  | modifyClass mod => rw [applyOp, applyOp, modifyClass_append ignores undeclared]

/-! ## Deltas -/

/-- A delta that mentions nothing of what the first model declares does in both together what it
does in the second, which still ignores the first. -/
theorem applyDelta_append {d : DeltaDecl} (other : ∀ mod ∈ v.modules, mod.name ≠ d.uses.getD module)
    (ignores : m.Ignores v) (within : (Decl.delta d).Within fun n => ¬v.Declares (simpleName n)) :
    (v.append m).applyDelta module d =
        (v.append (m.applyDelta module d).1, (m.applyDelta module d).2) ∧
      (m.applyDelta module d).1.Ignores v := by
  have start : (v.append m).missingModule d (d.uses.getD module) =
      m.missingModule d (d.uses.getD module) := by
    rw [missingModule, missingModule, module?_append other]
  have ops := List.foldl_rel (l := d.ops) (a := (m, m.missingModule d (d.uses.getD module)))
    (r := fun st st' : Model × Diagnostics => st' = (v.append st.1, st.2) ∧ st.1.Ignores v)
    (f := applyOp d.name (d.uses.getD module)) (g := applyOp d.name (d.uses.getD module))
    ⟨rfl, ignores⟩ fun op mem st st' before => by
      obtain ⟨rfl, ignores⟩ := before
      have undeclared : ∀ n ∈ op.mentions, ¬v.Declares (simpleName n) := fun n hn => within n <|
        List.mem_cons_of_mem _ (List.mem_append_right _ (List.mem_flatMap.2 ⟨op, mem, hn⟩))
      exact ⟨applyOp_append other ignores undeclared, forall_modules_applyOp ignores
        (DeltaDecl.keeps_within within module op mem).preserves⟩
  rw [applyDelta, applyDelta, start]
  exact ops

/-- The module that a delta adds to is mentioned by the model that declares the delta. -/
theorem target_mem_mentionedModules {e : Entry DeltaDecl} (mem : e ∈ m.deltaEntries) :
    e.decl.uses.getD e.module ∈ m.mentionedModules := by
  obtain ⟨mod, hmod, named, hd⟩ := exists_module_of_mem_entries (mem_deltaEntries_iff.1 mem)
  cases used : e.decl.uses with
  | some name => exact mem_mentionedModules hmod hd used
  | none => exact List.mem_append_left _ (List.mem_map.2 ⟨mod, hmod, named.symm⟩)

/-- Deltas do behind a model that they do not mention what they do without it. -/
theorem applyDeltas_behind (apart : v.Apart m) {es : List (Entry DeltaDecl)}
    (declared : es ⊆ m.deltaEntries) {d : Model} (ignores : d.Ignores v) :
    (v.append d).applyDeltas (es.map (Entry.move (.shift v.units.length))) =
      (d.applyDeltas es).map v.append := by
  induction es generalizing d with
  | nil => rfl
  | cons e es ih =>
    rw [List.cons_subset] at declared
    have other : ∀ mod ∈ v.modules, mod.name ≠ e.decl.uses.getD e.module := fun mod hmod same =>
      apart.modules mod hmod (same ▸ target_mem_mentionedModules declared.1)
    obtain ⟨applied, kept⟩ := applyDelta_append other ignores
      (apart.ignores.decl (mem_deltaEntries_iff.1 declared.1))
    rw [List.map_cons, applyDeltas, applyDeltas, Entry.move_module, Entry.move_decl, applied]
    dsimp only
    split
    · exact ih declared.2 kept
    · rfl

/-! ## Lists of deltas -/

theorem deltaEntries_append (plain : v.deltas = []) (m : Model) :
    (v.append m).deltaEntries = m.deltaEntries.map (Entry.move (.shift v.units.length)) := by
  have none : v.deltaEntries = [] := List.map_eq_nil_iff.1 ((decl_deltaEntries v).trans plain)
  have split := narrow_entries_append Decl.delta? v m
  rwa [← deltaEntries, ← deltaEntries, ← deltaEntries, none] at split

theorem listedDeltas_move {t t' : SymbolTable} {f : DeclPath → DeclPath}
    (moved : t'.deltas = t.deltas.map (Entry.move f)) (seen names : List String) :
    listedDeltas t' seen names =
      ((listedDeltas t seen names).1.map (Entry.move f), (listedDeltas t seen names).2) := by
  induction names generalizing seen with
  | nil => rfl
  | cons name names ih =>
    have found := Namespace.resolve_map_move (f := f) t.deltas none name
    rw [← moved] at found
    rw [listedDeltas, listedDeltas, ih, found]
    dsimp only
    split
    · rfl
    · cases t.deltas.resolve none name with
      | ok e => rfl
      | error err => cases err <;> rfl

/-- A list of deltas is as valid as without a model in front that has none. -/
theorem validateDeltas_append (plain : v.deltas = []) (m : Model) (names : List String) :
    (v.append m).validateDeltas names =
      (m.validateDeltas names).map (List.map (Entry.move (.shift v.units.length))) := by
  have decls (es : List (Entry DeltaDecl)) :
      (es.map (Entry.move (.shift v.units.length))).map (·.decl) = es.map (·.decl) :=
    List.map_map
  have deltas : (SymbolTable.ofModel (v.append m)).deltas =
      (SymbolTable.ofModel m).deltas.map (Entry.move (.shift v.units.length)) :=
    deltaEntries_append plain m
  have listed := listedDeltas_move deltas [] names
  rw [validateDeltas, validateDeltas, listed]
  generalize listedDeltas (.ofModel m) [] names = listed
  obtain ⟨found, ds⟩ := listed
  dsimp only
  rw [decls]
  split
  · cases DeltaOrder.order (found.map (·.decl)) with
    | error cycle => rfl
    | ok order =>
      dsimp only
      split <;> rfl
  · rfl

/-! ## Products -/

/-- The product of the second model does not depend on a model in front that has no deltas and that
it ignores; that one is composed in front of it. -/
theorem flatten_behind (apart : v.Apart m) (plain : v.deltas = []) (valid : v.Valid)
    (quiet : v.composeClasses.findings = []) (config : ProductConfig) :
    (v.append m).flatten config = (m.flatten config).map fun g =>
      ⟨v.composeClasses.model.append g.model, g.findings⟩ := by
  obtain ⟨product, names⟩ := config
  have validated := validateDeltas_append plain m names
  cases found : m.validateDeltas names with
  | error ds =>
    rw [found] at validated
    rw [flatten_of_invalid product found, flatten_of_invalid product validated]
    rfl
  | ok es =>
    rw [found] at validated
    have declared : es ⊆ m.deltaEntries := fun e mem => mem_deltaEntries_of_valid found mem
    rw [flatten_of_valid found, flatten_of_valid validated,
      applyDeltas_behind apart declared apart.ignores]
    cases derived : m.applyDeltas es with
    | error ds => rfl
    | ok d =>
      have ignores : d.Ignores v := apart.ignores.applyDeltas
        (fun e mem => apart.ignores.decl (mem_deltaEntries_iff.1 (declared mem))) derived
      exact congrArg Except.ok (composeClasses_append valid ignores quiet)

end Model

end DeltaLang
