import DeltaLang.Proofs.Delta.Locality
import DeltaLang.Proofs.Delta.Related

/-!
# What holds of all modules and declarations

A delta adds some declarations, changes some where they are, and erases some.  So what holds of all
modules of a model, and is kept by these edits, holds of all modules afterwards.  In particular,
what holds of all declarations and of those that are added, and is kept by the changes, holds of all
declarations afterwards.
-/

namespace DeltaLang

namespace Model

variable {m m' : Model}

/-! ## Modules -/

theorem forall_modules_modifyModule {P : Module → Prop} {unit module : Nat} {f : Module → Module}
    (h : ∀ mod ∈ m.modules, P mod)
    (step : ∀ mod, m.moduleAt? unit module = some mod → P mod → P (f mod)) :
    ∀ mod ∈ (m.modifyModule unit module f).modules, P mod :=
  related_self_iff.1 <| Related.modifyModule (R := fun _ b => P b) (related_self_iff.2 h)
    fun _ b _ found => step b found

/-- Only the first module of the name gets the declaration. -/
theorem mem_appendToFirst {name : String} {d : Decl} {ms : List Module} {mod : Module}
    (mem : mod ∈ appendToFirst name d ms) :
    mod ∈ ms ∨ ∃ target, ms.find? (·.name == name) = some target ∧
      mod = { target with decls := target.decls ++ [d] } := by
  induction ms with
  | nil => cases mem
  | cons m ms ih =>
    rw [appendToFirst] at mem
    by_cases named : m.name = name
    · rw [if_pos named] at mem
      rcases List.mem_cons.1 mem with rfl | mem
      · exact .inr ⟨m, by simp [named], rfl⟩
      · exact .inl (List.mem_cons_of_mem _ mem)
    · rw [if_neg named] at mem
      rw [List.find?_cons_of_neg (by simpa using named)]
      rcases List.mem_cons.1 mem with rfl | mem
      · exact .inl List.mem_cons_self
      · exact (ih mem).imp_left (List.mem_cons_of_mem _)

theorem modules_appendTo (m : Model) (name : String) (d : Decl) :
    (m.appendTo name d).modules = appendToFirst name d m.modules := by
  have first (ms ms' : List Module) : appendToFirst name d (ms ++ ms') =
      if ms.any (·.name == name) then appendToFirst name d ms ++ ms'
      else ms ++ appendToFirst name d ms' := by
    induction ms with
    | nil => rfl
    | cons m ms ih =>
      rw [List.cons_append, appendToFirst, appendToFirst, ih, List.any_cons]
      by_cases named : m.name = name
      · simp [named]
      · simp only [named, if_false, beq_false_of_ne named, Bool.false_or]
        split <;> rfl
  obtain ⟨units⟩ := m
  rw [modules, modules, appendTo]
  induction units with
  | nil => rfl
  | cons u us ih =>
    rw [appendToUnits, List.flatMap_cons, first]
    split
    · rfl
    · exact congrArg (u.modules ++ ·) ih

theorem forall_modules_appendTo {P : Module → Prop} {name : String} {d : Decl}
    (h : ∀ mod ∈ m.modules, P mod)
    (step : ∀ target, m.module? name = some target → P target →
      P { target with decls := target.decls ++ [d] }) :
    ∀ mod ∈ (m.appendTo name d).modules, P mod := by
  intro mod mem
  rw [modules_appendTo] at mem
  obtain mem | ⟨target, found, rfl⟩ := mem_appendToFirst mem
  · exact h mod mem
  · exact step target found (h target (List.mem_of_find?_eq_some found))

end Model

/-! ## What operations do -/

/-- The declaration that the operation adds, if it adds one. -/
def DeltaOp.added : DeltaOp → Option Decl
  | addInterface i => some (.interface i)
  | addClass c => some (.class c)
  | addTrait t => some (.trait t)
  | _ => none

/-- The operation, as one of the delta, makes the second declaration of the first one. -/
inductive DeltaOp.Changes (delta : String) : DeltaOp → Decl → Decl → Prop
  | trait (name : String) (expr : TraitExpr) (loc : Option Location) (t : TraitDecl) :
    Changes delta (.modifyTrait name expr loc) (.trait t) (.trait { t with expr := expr })
  | interface (mod : InterfaceModifier) (i : InterfaceDecl) :
    Changes delta (.modifyInterface mod) (.interface i) (.interface (i.modify delta mod).1)
  | class (mod : ClassModifier) (t : SymbolTable) (module : String) (c : ClassDecl) :
    Changes delta (.modifyClass mod) (.class c) (.class (t.modifyClass module delta mod c).1)

/-- The edits by which the operation of the delta, with that target module, changes modules keep the
property. -/
structure DeltaOp.Preserves (P : Module → Prop) (delta target : String) (op : DeltaOp) : Prop where
  append : ∀ mod d, op.added = some d → mod.name = target → mod.position? d.kind d.name = none →
    P mod → P { mod with decls := mod.decls ++ [d] }
  erase : ∀ mod i, P mod → P (mod.eraseDecl i)
  modify : ∀ mod i f, (∀ d, mod.decls[i]? = some d → f d = d ∨ op.Changes delta d (f d)) →
    P mod → P (mod.modifyDecl i f)

namespace Model

section

variable {P : Module → Prop} {m m' : Model} {delta module : String} {op : DeltaOp}
  (h : ∀ mod ∈ m.modules, P mod)

include h

theorem forall_modules_addDecl {d : Decl} (preserves : op.Preserves P delta module)
    (adds : op.added = some d) (ok : m.addDecl delta module d = .ok m') :
    ∀ mod ∈ m'.modules, P mod := by
  unfold addDecl at ok
  split at ok
  · exact Except.ok.inj ok ▸ h
  · rename_i target found
    split at ok
    · cases ok
    · rename_i new
      obtain rfl := Except.ok.inj ok
      refine forall_modules_appendTo h fun target' found' holds => ?_
      obtain rfl : target' = target := Option.some.inj (found'.symm.trans found)
      have named := List.find?_some found
      exact preserves.append target' d adds (beq_iff_eq.1 named) (by simpa using new) holds

theorem forall_modules_removeDecl (preserves : op.Preserves P delta module) {kind : DeclKind}
    {name : String} {loc : Option Location}
    (ok : m.removeDecl delta module kind name loc = .ok m') : ∀ mod ∈ m'.modules, P mod := by
  unfold removeDecl at ok
  split at ok
  · obtain rfl := Except.ok.inj ok
    exact forall_modules_modifyModule h fun mod _ => preserves.erase mod _
  · cases ok

theorem forall_modules_modifyDecl (preserves : op.Preserves P delta module) {path : DeclPath}
    {f : Decl → Decl}
    (changes : ∀ d, m.decl? path = some d → f d = d ∨ op.Changes delta d (f d)) :
    ∀ mod ∈ (m.modifyDecl path f).modules, P mod := by
  refine forall_modules_modifyModule h fun mod found => preserves.modify mod _ f fun d here => ?_
  exact changes d (by rw [decl?_eq, found, Option.bind_some, here])

theorem forall_modules_replaceTrait {name : String} {expr : TraitExpr} {loc : Option Location}
    (preserves : (DeltaOp.modifyTrait name expr loc).Preserves P delta module)
    (ok : m.replaceTrait delta module name expr loc = .ok m') : ∀ mod ∈ m'.modules, P mod := by
  unfold replaceTrait at ok
  split at ok
  · cases ok
  · obtain rfl := Except.ok.inj ok
    refine forall_modules_modifyDecl h preserves fun d _ => ?_
    cases d with
    | trait t => exact .inr (.trait name expr loc t)
    | _ => exact .inl rfl

theorem forall_modules_modifyInterface {mod : InterfaceModifier}
    (preserves : (DeltaOp.modifyInterface mod).Preserves P delta module) :
    ∀ mod' ∈ (m.modifyInterface delta module mod).1.modules, P mod' := by
  unfold modifyInterface
  split
  · exact h
  · split
    · rename_i i found
      refine forall_modules_modifyDecl h preserves fun d here => .inr ?_
      obtain rfl := Option.some.inj (found.symm.trans here)
      exact .interface mod i
    · exact h

theorem forall_modules_modifyClass {mod : ClassModifier}
    (preserves : (DeltaOp.modifyClass mod).Preserves P delta module) :
    ∀ mod' ∈ (m.modifyClass delta module mod).1.modules, P mod' := by
  unfold modifyClass
  split
  · exact h
  · split
    · rename_i owner _ c found
      refine forall_modules_modifyDecl h preserves fun d here => .inr ?_
      obtain rfl := Option.some.inj ((decl?_of_entry?_eq_some found).symm.trans here)
      exact .class mod _ owner c
    · exact h

end

variable {P : Module → Prop} {m m' : Model} {delta module : String}

theorem forall_modules_applyOp {st : Model × Diagnostics} (h : ∀ mod ∈ st.1.modules, P mod)
    {op : DeltaOp} (preserves : op.Preserves P delta module) :
    ∀ mod ∈ (applyOp delta module st op).1.modules, P mod := by
  cases op with
  | addInterface i | addClass c | addTrait t =>
    exact attempt_preserves (P := fun m => ∀ mod ∈ m.modules, P mod)
      (fun m m' ok h => forall_modules_addDecl h preserves rfl ok) st h
  | removeInterface name loc | removeClass name loc | removeTrait name loc =>
    exact attempt_preserves (P := fun m => ∀ mod ∈ m.modules, P mod)
      (fun m m' ok h => forall_modules_removeDecl h preserves ok) st h
  | modifyTrait name expr loc =>
    exact attempt_preserves (P := fun m => ∀ mod ∈ m.modules, P mod)
      (fun m m' ok h => forall_modules_replaceTrait h preserves ok) st h
  | modifyInterface mod => exact forall_modules_modifyInterface h preserves
  | modifyClass mod => exact forall_modules_modifyClass h preserves

/-- A delta keeps what all its operations preserve. -/
theorem forall_modules_applyDelta {d : DeltaDecl} (h : ∀ mod ∈ m.modules, P mod)
    (preserves : ∀ op ∈ d.ops, op.Preserves P d.name (d.uses.getD module)) :
    ∀ mod ∈ (m.applyDelta module d).1.modules, P mod := by
  rw [applyDelta]
  exact List.foldlRecOn (motive := fun st : Model × Diagnostics => ∀ mod ∈ st.1.modules, P mod)
    d.ops _ h fun _ h op mem => forall_modules_applyOp h (preserves op mem)

theorem forall_modules_applyDeltas {es : List (Entry DeltaDecl)} (h : ∀ mod ∈ m.modules, P mod)
    (preserves : ∀ e ∈ es, ∀ op ∈ e.decl.ops,
      op.Preserves P e.decl.name (e.decl.uses.getD e.module))
    (ok : m.applyDeltas es = .ok m') : ∀ mod ∈ m'.modules, P mod :=
  applyDeltas_induction (P := fun m => ∀ mod ∈ m.modules, P mod) h
    (fun e mem _ h => forall_modules_applyDelta h (preserves e mem)) ok

/-! ## Declarations -/

/-- The property holds of all declarations and the names of their modules. -/
def AllDecls (P : String → Decl → Prop) (m : Model) : Prop :=
  ∀ mod ∈ m.modules, ∀ d ∈ mod.decls, P mod.name d

theorem AllDecls.of_mem_entries {P : String → Decl → Prop} (h : m.AllDecls P) {e : Entry Decl}
    (mem : e ∈ m.entries) : P e.module e.decl := forall_entries_iff.2 h e mem

end Model

/-- The operation of a delta for a module only adds a declaration that has the property, and changes
none so that it loses it. -/
structure DeltaOp.Keeps (P : String → Decl → Prop) (delta target : String) (op : DeltaOp) :
    Prop where
  added : ∀ d, op.added = some d → P target d
  changes : ∀ module d d', op.Changes delta d d' → P module d → P module d'

theorem DeltaOp.Keeps.preserves {P : String → Decl → Prop} {delta target : String} {op : DeltaOp}
    (h : op.Keeps P delta target) :
    op.Preserves (fun mod => ∀ d ∈ mod.decls, P mod.name d) delta target where
  append mod d adds named _ all := by
    refine List.forall_mem_append.2 ⟨all, List.forall_mem_singleton.2 ?_⟩
    exact named ▸ h.added d adds
  erase mod i all d mem := all d (List.mem_of_mem_eraseIdx mem)
  modify mod i f edits all d mem := by
    obtain ⟨k, here⟩ := List.getElem?_of_mem mem
    rw [Module.modifyDecl, List.getElem?_modify] at here
    obtain ⟨d', at', rfl⟩ := Option.map_eq_some_iff.1 here
    have before := all d' (List.mem_of_getElem? at')
    split
    · rename_i place
      obtain same | changed := edits d' (place ▸ at')
      · rw [same]
        exact before
      · exact h.changes _ _ _ changed before
    · exact before

/-- All operations of the delta, declared in the module, keep the property. -/
def DeltaDecl.Keeps (P : String → Decl → Prop) (module : String) (d : DeltaDecl) : Prop :=
  ∀ op ∈ d.ops, op.Keeps P d.name (d.uses.getD module)

theorem Model.AllDecls.applyDeltas {P : String → Decl → Prop} {m m' : Model}
    {es : List (Entry DeltaDecl)} (h : m.AllDecls P) (keeps : ∀ e ∈ es, e.decl.Keeps P e.module)
    (ok : m.applyDeltas es = .ok m') : m'.AllDecls P :=
  forall_modules_applyDeltas h (fun e mem op hop => (keeps e mem op hop).preserves) ok

end DeltaLang
