import DeltaLang.Proofs.Delta.Composition
import DeltaLang.Proofs.Delta.Locality
import DeltaLang.Proofs.Trait.Methods

/-!
# What all methods carry along

The methods of a composed class are declared in the class, in traits, or in deltas, and one that is
put in front of another takes its versions along.  So what holds of all methods that are declared,
and is kept when versions are put behind a method of their name, holds of the composed methods.
-/

namespace DeltaLang

/-! ## Properties of all methods -/

/-- What holds of a method and of one of its name holds of the first in front of the second. -/
def Method.Stacks (P : Method → Prop) : Prop :=
  ∀ m old, P m → P old → old.name = m.name → P (m.replacing old)

section

variable (P : Method → Prop) (R : String → Prop)

/-- All methods in the expression have one property, and all names of traits the other. -/
def TraitExpr.Over : TraitExpr → Prop
  | ref name _ => R name
  | set ms => ∀ m ∈ ms, P m
  | adds base extra | modifies base extra => base.Over ∧ extra.Over
  | removes base _ => base.Over

def TraitUse.Over : TraitUse → Prop
  | adds e | modifies e => e.Over P R
  | removes _ => True

structure ClassDecl.Over (c : ClassDecl) : Prop where
  methods : ∀ m ∈ c.methods, P m
  uses : ∀ u ∈ c.uses, u.Over P R

def ClassOp.Over : ClassOp → Prop
  | addMethod m | modifyMethod m => P m
  | addUse u => u.Over P R
  | removeMethod _ | addField _ | removeField _ _ => True

end

variable {P : Method → Prop} {R : String → Prop}

/-! ## Edits of a class -/

namespace ClassEdit

variable {e e' : ClassEdit} {delta : String}

theorem over_modifyFirst (stacking : Method.Stacks P) {m : Method} {ms : List Method} (h : P m)
    (h' : ∀ m ∈ ms, P m) : ∀ m' ∈ modifyFirst m ms, P m' := by
  induction ms with
  | nil => simpa [modifyFirst] using h
  | cons old ms ih =>
    rw [List.forall_mem_cons] at h'
    rw [MethodSet.modifyFirst_cons]
    split
    · rename_i same
      exact List.forall_mem_cons.2 ⟨stacking m old h h'.1 same, h'.2⟩
    · exact List.forall_mem_cons.2 ⟨h'.1, ih h'.2⟩

theorem over_withUse (h : e.cls.Over P R) {u : TraitUse} (hu : u.Over P R) (known : List String) :
    (e.withUse u known).cls.Over P R :=
  { h with uses := List.forall_mem_append.2 ⟨h.uses, List.forall_mem_singleton.2 hu⟩ }

theorem over_apply (stacking : Method.Stacks P) (h : e.cls.Over P R) {op : ClassOp}
    (hop : op.Over P R) (ok : e.apply delta op = .ok e') : e'.cls.Over P R := by
  cases op with
  | addMethod m =>
    simp only [apply, addMethod] at ok
    split at ok
    · cases ok
    · split at ok <;> cases ok
      · have single : (TraitExpr.set [m]).Over P R := List.forall_mem_singleton.2 hop
        exact over_withUse h (u := .adds (.set [m])) single _
      · exact { h with
          methods := List.forall_mem_append.2 ⟨h.methods, List.forall_mem_singleton.2 hop⟩ }
  | modifyMethod m =>
    cases ok
    rw [modifyMethod]
    split
    · have single : (TraitExpr.set [m]).Over P R := List.forall_mem_singleton.2 hop
      exact over_withUse h (u := .modifies (.set [m])) single _
    · exact { h with methods := over_modifyFirst stacking hop h.methods }
  | removeMethod sig =>
    simp only [apply, removeMethod] at ok
    split at ok
    · split at ok <;> cases ok
      · exact over_withUse h (u := .removes [sig]) trivial _
      · exact { h with methods := fun m mem => h.methods m (List.mem_of_mem_eraseP mem) }
    · cases ok
  | addField f =>
    simp only [apply, addField] at ok
    split at ok <;> cases ok
    exact { h with }
  | removeField name loc =>
    simp only [apply, removeField] at ok
    split at ok <;> cases ok
    exact { h with }
  | addUse u =>
    cases ok
    exact over_withUse h hop []

end ClassEdit

theorem SymbolTable.over_modifyClass (stacking : Method.Stacks P) {t : SymbolTable}
    {module delta : String} {mod : ClassModifier} {c : ClassDecl} (h : c.Over P R)
    (hmod : ∀ op ∈ mod.ops, op.Over P R) : (t.modifyClass module delta mod c).1.Over P R := by
  refine t.modifyClass_induction module delta mod c (P := ClassDecl.Over P R) h
    (fun e e' name _ ok before => ?_)
    fun e e' op mem ok before => ClassEdit.over_apply stacking before (hmod op mem) ok
  unfold ClassEdit.addInterface at ok
  split at ok <;> cases ok
  exact { before with }

/-! ## Method sets -/

namespace MethodSet

/-- All methods of the set have the property. -/
def Over (P : Method → Prop) (s : MethodSet) : Prop := ∀ m ∈ s.methods, P m

variable {s s' : MethodSet} {m : Method} {ms : List Method}

theorem over_empty : empty.Over P := fun _ mem => absurd mem List.not_mem_nil

theorem Over.insert? (h : s.Over P) (hm : P m) (ok : s.insert? m = some s') : s'.Over P := by
  by_cases mem : m.name ∈ s.names
  · cases (insert?_of_mem mem).symm.trans ok
  · cases (insert?_of_not_mem mem).symm.trans ok
    exact List.forall_mem_append.2 ⟨h, List.forall_mem_singleton.2 hm⟩

theorem Over.insertAll (h : s.Over P) (what : String) (hms : ∀ m ∈ ms, P m) :
    (s.insertAll what ms).1.Over P := by
  induction ms generalizing s with
  | nil => exact h
  | cons m ms ih =>
    rw [List.forall_mem_cons] at hms
    rw [MethodSet.insertAll]
    split
    · rename_i inserted
      exact ih (h.insert? hms.1 inserted) hms.2
    · exact ih h hms.2

theorem Over.modify (stacking : Method.Stacks P) (h : s.Over P) (hm : P m) :
    (s.modify m).Over P := by
  intro m' mem
  have methods : m' ∈ ClassEdit.modifyFirst m s.methods := by
    rwa [← methods_modify s.distinct]
  exact ClassEdit.over_modifyFirst stacking hm h m' methods

theorem Over.modifyAll (stacking : Method.Stacks P) (h : s.Over P) (h' : s'.Over P) :
    (s.modifyAll s').Over P :=
  List.foldlRecOn (motive := Over P) s'.methods _ h fun _ before m mem =>
    before.modify stacking (h' m mem)

theorem Over.removeAll (h : s.Over P) (sigs : List Signature) : (s.removeAll sigs).1.Over P := by
  induction sigs generalizing s with
  | nil => exact h
  | cons sig sigs ih =>
    rw [MethodSet.removeAll]
    split
    · exact ih fun m mem => h m (List.mem_filter.1 mem).1
    · exact ih h

end MethodSet

/-! ## Composition -/

/-- The methods of all known sets have the property. -/
def Resolver.Over (P : Method → Prop) (r : Resolver) : Prop :=
  ∀ key s, r.memo.lookup key = some s → s.Over P

/-- The methods of the set and of all known sets have the property. -/
structure Resolved.Over (P : Method → Prop) (r : Resolved) : Prop where
  set : r.set.Over P
  resolver : r.resolver.Over P

namespace SymbolTable

/-- The methods in all declared traits have the property. -/
def TraitsOver (P : Method → Prop) (R : String → Prop) (t : SymbolTable) : Prop :=
  ∀ e ∈ t.traits, e.decl.expr.Over P R

variable {t : SymbolTable} {r : Resolver} (stacking : Method.Stacks P)

include stacking

theorem over_resolveExprWith {declared : Entry TraitDecl → Resolver → Resolved}
    (step : ∀ e ∈ t.traits, ∀ r, r.Over P → (declared e r).Over P)
    (module : Option String) {e : TraitExpr} (he : e.Over P R) (h : r.Over P) :
    (t.resolveExprWith declared module e r).Over P := by
  induction e generalizing r with
  | ref name loc =>
    rw [resolveExprWith]
    cases found : t.traits.resolve module name with
    | ok e => exact step e (Namespace.mem_of_resolve_eq_ok found) r h
    | error err => exact ⟨MethodSet.over_empty, h⟩
  | set ms => exact ⟨MethodSet.over_empty.insertAll _ he, h⟩
  | adds base extra ihBase ihExtra =>
    have first := ihBase he.1 h
    have second := ihExtra he.2 first.resolver
    exact ⟨first.set.insertAll _ second.set, second.resolver⟩
  | modifies base extra ihBase ihExtra =>
    have first := ihBase he.1 h
    have second := ihExtra he.2 first.resolver
    exact ⟨first.set.modifyAll stacking second.set, second.resolver⟩
  | removes base sigs ih =>
    have only := ih he h
    exact ⟨only.set.removeAll sigs, only.resolver⟩

variable (traits : t.TraitsOver P R)

include traits

theorem over_resolveDeclared {depth : Nat} {e : Entry TraitDecl} (he : e ∈ t.traits)
    (h : r.Over P) : (t.resolveDeclared depth e r).Over P := by
  induction depth generalizing e r with
  | zero => exact ⟨MethodSet.over_empty, h⟩
  | succ depth ih =>
    simp only [resolveDeclared]
    split
    · exact ⟨MethodSet.over_empty, h⟩
    · cases known : r.memo.lookup e.qualifiedName with
      | some s => exact ⟨h _ s known, h⟩
      | none =>
        have body := over_resolveExprWith stacking (fun e he r h => ih he h) (some e.module)
          (traits e he) (r := { r with visiting := r.visiting ++ [e.qualifiedName] }) h
        refine ⟨body.set, fun key s found => ?_⟩
        dsimp only at found
        rw [List.lookup_cons] at found
        split at found
        · exact Option.some.inj found ▸ body.set
        · exact body.resolver key s found

theorem over_resolveExpr (module : Option String) {e : TraitExpr} (he : e.Over P R)
    (h : r.Over P) : (t.resolveExpr module e r).Over P :=
  over_resolveExprWith stacking (fun _ he _ h => over_resolveDeclared stacking traits he h) module
    he h

theorem over_resolveTraits : (Model.resolveTraits t .fresh).1.Over P := by
  refine List.foldlRecOn (motive := fun st : Resolver × Diagnostics => st.1.Over P) t.traits _
    (fun key s found => by cases found) fun st before e mem => ?_
  exact (over_resolveDeclared stacking traits mem before).resolver

theorem over_applyUse (module : String) {acc : Resolved} (h : acc.Over P) {u : TraitUse}
    (hu : u.Over P R) : (t.applyUse module acc u).Over P := by
  cases u with
  | adds e =>
    have extra := over_resolveExpr stacking traits (some module) hu h.resolver
    exact ⟨h.set.insertAll _ extra.set, extra.resolver⟩
  | modifies e =>
    have extra := over_resolveExpr stacking traits (some module) hu h.resolver
    exact ⟨h.set.modifyAll stacking extra.set, extra.resolver⟩
  | removes sigs => exact ⟨h.set.removeAll sigs, h.resolver⟩

theorem over_composeClass (module : String) {c : ClassDecl} (hc : c.Over P R) (h : r.Over P) :
    (t.composeClass module c r).Over P := by
  have own : ((⟨.empty, [], r⟩ : Resolved).andThen fun s =>
      s.insertAll ("defined twice in class " ++ c.name) c.methods).Over P :=
    ⟨MethodSet.over_empty.insertAll _ hc.methods, h⟩
  have used := List.foldlRecOn (motive := Resolved.Over P) c.uses _ own
    fun acc before u mem => over_applyUse stacking traits module before (hc.uses u mem)
  exact ⟨used.set, used.resolver⟩

end SymbolTable

/-- The methods of a composed class have the property. -/
theorem Model.over_composedClass (stacking : Method.Stacks P) {m : Model}
    (traits : (SymbolTable.ofModel m).TraitsOver P R) {e : Entry ClassDecl}
    (h : e.decl.Over P R) : ∀ method ∈ (m.composedClass e).methods, P method :=
  (SymbolTable.over_composeClass stacking traits e.module h
    (SymbolTable.over_resolveTraits stacking traits)).set

end DeltaLang
