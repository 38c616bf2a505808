import DeltaLang.Proofs.Delta.Carried
import DeltaLang.Proofs.Delta.Declarations
import DeltaLang.Typing.Ty

/-!
# Names that occur in a model

A model mentions the names of its declarations and the names that they refer to: interfaces, classes
and traits, in types and in bodies too, and deltas.  Built-in types are not mentioned.  Applying the
deltas of a model and composing its classes does not bring in other names.
-/

namespace DeltaLang

/-! ## What is mentioned -/

mutual

/-- The interfaces that a written type refers to. -/
def TypeUse.mentions : TypeUse → List String
  | ⟨name, args, _⟩ =>
    if name = "Fut" ∨ (Ty.builtin? name).isSome then TypeUse.allMentions args
    else name :: TypeUse.allMentions args

def TypeUse.allMentions : List TypeUse → List String
  | [] => []
  | u :: us => u.mentions ++ TypeUse.allMentions us

end

mutual

/-- The classes of the objects that an expression creates. -/
def Expr.mentions : Expr → List String
  | .bool .. | .int .. | .str .. | .null .. | .this .. | .var .. | .field .. => []
  | .unary _ e _ | .get e _ => e.mentions
  | .binary _ l r _ => l.mentions ++ r.mentions
  | .call target _ args _ _ => target.mentions ++ Expr.allMentions args
  | .new cls args _ _ => cls :: Expr.allMentions args
  | .original args _ => Expr.allMentions args

def Expr.allMentions : List Expr → List String
  | [] => []
  | e :: es => e.mentions ++ Expr.allMentions es

end

mutual

def Stmt.mentions : Stmt → List String
  | .skip _ => []
  | .ret e _ | .assign _ e _ | .eval e _ => e.mentions
  | .decl type _ none _ => type.mentions
  | .decl type _ (some e) _ => type.mentions ++ e.mentions
  | .ite c yes none _ => c.mentions ++ Stmt.allMentions yes
  | .ite c yes (some no) _ => c.mentions ++ Stmt.allMentions yes ++ Stmt.allMentions no
  | .loop c body _ => c.mentions ++ Stmt.allMentions body

def Stmt.allMentions : List Stmt → List String
  | [] => []
  | s :: ss => s.mentions ++ Stmt.allMentions ss

end

def Signature.mentions (s : Signature) : List String :=
  s.ret.mentions ++ s.params.flatMap fun p => p.type.mentions

def Version.mentions (v : Version) : List String := v.sig.mentions ++ Stmt.allMentions v.body

def Method.mentions (m : Method) : List String := m.versions.flatMap Version.mentions

def TraitExpr.mentions : TraitExpr → List String
  | ref name _ => [name]
  | set ms => ms.flatMap Method.mentions
  | adds base extra | modifies base extra => base.mentions ++ extra.mentions
  | removes base _ => base.mentions

def TraitUse.mentions : TraitUse → List String
  | adds e | modifies e => e.mentions
  | removes _ => []

def FieldDecl.mentions (f : FieldDecl) : List String :=
  f.type.mentions ++ f.value.toList.flatMap Expr.mentions

def InterfaceDecl.mentions (i : InterfaceDecl) : List String :=
  i.name :: (i.parents ++ i.methods.flatMap Signature.mentions)

def ClassDecl.mentions (c : ClassDecl) : List String :=
  c.name :: (c.implements ++ (c.params.flatMap fun p => p.type.mentions) ++
    c.fields.flatMap FieldDecl.mentions ++ (c.init.toList ++ c.recover.toList).flatMap
      Stmt.allMentions ++ c.uses.flatMap TraitUse.mentions ++ c.methods.flatMap Method.mentions)

def TraitDecl.mentions (t : TraitDecl) : List String := t.name :: t.expr.mentions

def InterfaceOp.mentions : InterfaceOp → List String
  | addMethod sig => sig.mentions
  | removeMethod _ => []

def ClassOp.mentions : ClassOp → List String
  | addMethod m | modifyMethod m => m.mentions
  | addField f => f.mentions
  | addUse u => u.mentions
  | removeMethod _ | removeField _ _ => []

def DeltaOp.mentions : DeltaOp → List String
  | addInterface i => i.mentions
  | addClass c => c.mentions
  | addTrait t => t.mentions
  | removeInterface name _ | removeClass name _ | removeTrait name _ => [name]
  | modifyInterface mod => mod.name :: mod.ops.flatMap InterfaceOp.mentions
  | modifyClass mod => mod.name :: (mod.addImplements ++ mod.ops.flatMap ClassOp.mentions)
  | modifyTrait name expr _ => name :: expr.mentions

def DeltaDecl.mentions (d : DeltaDecl) : List String :=
  d.name :: (d.after ++ d.before ++ d.ops.flatMap DeltaOp.mentions)

def Decl.mentions : Decl → List String
  | .interface i => i.mentions
  | .class c => c.mentions
  | .trait t => t.mentions
  | .delta d => d.mentions
  | .product p => [p.name]

theorem Decl.name_mem_mentions (d : Decl) : d.name ∈ d.mentions := by
  cases d <;> exact List.mem_cons_self

/-- The names of the declarations of a model, and the names that these refer to. -/
def Model.mentions (m : Model) : List String :=
  m.modules.flatMap fun mod => mod.decls.flatMap Decl.mentions

/-- The modules of a model, and those that its deltas use. -/
def Model.mentionedModules (m : Model) : List String :=
  m.modules.map Module.name ++ m.deltas.flatMap fun d => d.uses.toList

/-! ## What holds of all names -/

section

variable {N : String → Prop}

/-- The method only mentions names with the property. -/
def Method.Within (N : String → Prop) (m : Method) : Prop := ∀ n ∈ m.mentions, N n

/-- The declaration only mentions names with the property. -/
def Decl.Within (N : String → Prop) (d : Decl) : Prop := ∀ n ∈ d.mentions, N n

theorem Method.stacks_within : Method.Stacks (Method.Within N) := fun m old h h' _ => by
  rw [Method.Within, mentions, versions_replacing, List.flatMap_append]
  exact List.forall_mem_append.2 ⟨h, h'⟩

theorem TraitExpr.over_within_iff {e : TraitExpr} :
    e.Over (Method.Within N) N ↔ ∀ n ∈ e.mentions, N n := by
  induction e with
  | ref name loc => rw [Over, mentions, List.forall_mem_singleton]
  | set ms => exact List.forall_mem_flatMap.symm
  | adds base extra ihBase ihExtra | modifies base extra ihBase ihExtra =>
    exact (and_congr ihBase ihExtra).trans List.forall_mem_append.symm
  | removes base sigs ih => exact ih

theorem TraitUse.over_within_iff {u : TraitUse} :
    u.Over (Method.Within N) N ↔ ∀ n ∈ u.mentions, N n := by
  cases u with
  | adds e | modifies e => exact TraitExpr.over_within_iff
  | removes sigs => exact iff_of_true trivial fun _ mem => absurd mem List.not_mem_nil

/-- The class only mentions names with the property. -/
structure ClassDecl.Within (N : String → Prop) (c : ClassDecl) : Prop where
  name : N c.name
  implements : ∀ n ∈ c.implements, N n
  params : ∀ p ∈ c.params, ∀ n ∈ p.type.mentions, N n
  fields : ∀ f ∈ c.fields, ∀ n ∈ f.mentions, N n
  blocks : ∀ b ∈ c.init.toList ++ c.recover.toList, ∀ n ∈ Stmt.allMentions b, N n
  members : c.Over (Method.Within N) N

theorem ClassDecl.within_iff {c : ClassDecl} : c.Within N ↔ ∀ n ∈ c.mentions, N n := by
  simp only [mentions, List.forall_mem_cons, @List.forall_mem_append _ _ (_ ++ _) _,
    @List.forall_mem_append _ _ c.implements _, List.forall_mem_flatMap]
  constructor
  · intro h
    exact ⟨h.name, ⟨⟨⟨⟨h.implements, h.params⟩, h.fields⟩, h.blocks⟩,
      fun u mem => TraitUse.over_within_iff.1 (h.members.uses u mem)⟩, h.members.methods⟩
  · rintro ⟨name, ⟨⟨⟨⟨implements, params⟩, fields⟩, blocks⟩, uses⟩, methods⟩
    exact ⟨name, implements, params, fields, blocks,
      methods, fun u mem => TraitUse.over_within_iff.2 (uses u mem)⟩

/-! ## Deltas -/

theorem InterfaceDecl.within_modify {delta : String} {mod : InterfaceModifier} {i : InterfaceDecl}
    (h : ∀ n ∈ i.mentions, N n) (hmod : ∀ op ∈ mod.ops, ∀ n ∈ op.mentions, N n) :
    ∀ n ∈ (i.modify delta mod).1.mentions, N n := by
  refine List.foldlRecOn (motive := fun st : InterfaceDecl × Diagnostics =>
    ∀ n ∈ st.1.mentions, N n) mod.ops _ h fun st before op mem => ?_
  refine attempt_preserves (P := fun i : InterfaceDecl => ∀ n ∈ i.mentions, N n)
    (fun i i' ok before => ?_) st before
  simp only [mentions, List.forall_mem_cons, List.forall_mem_append,
    List.forall_mem_flatMap] at before ⊢
  cases op with
  | addMethod sig =>
    simp only [InterfaceDecl.apply] at ok
    split at ok <;> cases ok
    exact ⟨before.1, before.2.1, List.forall_mem_append.2
      ⟨before.2.2, List.forall_mem_singleton.2 (hmod _ mem)⟩⟩
  | removeMethod sig =>
    simp only [InterfaceDecl.apply] at ok
    split at ok <;> cases ok
    exact ⟨before.1, before.2.1, fun sig mem => before.2.2 sig (List.mem_of_mem_eraseP mem)⟩

theorem ClassOp.over_of_within {op : ClassOp} (h : ∀ n ∈ op.mentions, N n) :
    op.Over (Method.Within N) N := by
  cases op with
  | addMethod m | modifyMethod m => exact h
  | addUse u => exact TraitUse.over_within_iff.2 h
  | _ => trivial

theorem SymbolTable.within_modifyClass {t : SymbolTable} {module delta : String}
    {mod : ClassModifier} {c : ClassDecl} (h : c.Within N) (added : ∀ n ∈ mod.addImplements, N n)
    (hmod : ∀ op ∈ mod.ops, ∀ n ∈ op.mentions, N n) :
    (t.modifyClass module delta mod c).1.Within N := by
  refine t.modifyClass_induction module delta mod c (P := ClassDecl.Within N) h
    (fun e e' name mem ok before => ?_) fun e e' op mem ok before => ?_
  · unfold ClassEdit.addInterface at ok
    split at ok <;> cases ok
    have extended := List.forall_mem_append.2
      ⟨before.implements, List.forall_mem_singleton.2 (added name mem)⟩
    exact { before with
      implements := extended
      members := ⟨before.members.methods, before.members.uses⟩ }
  · have members := ClassEdit.over_apply Method.stacks_within before.members
      (ClassOp.over_of_within (hmod op mem)) ok
    cases op with
    | addMethod m =>
      simp only [ClassEdit.apply, ClassEdit.addMethod] at ok
      split at ok
      · cases ok
      · split at ok <;> cases ok <;> exact { before with members := members }
    | modifyMethod m =>
      obtain rfl := Except.ok.inj ok
      unfold ClassEdit.modifyMethod at members ⊢
      split at members <;> exact { before with members := members }
    | removeMethod sig =>
      simp only [ClassEdit.apply, ClassEdit.removeMethod] at ok
      split at ok
      · split at ok <;> cases ok <;> exact { before with members := members }
      · cases ok
    | addField f =>
      simp only [ClassEdit.apply, ClassEdit.addField] at ok
      split at ok <;> cases ok
      have fields := List.forall_mem_append.2
        ⟨before.fields, List.forall_mem_singleton.2 (hmod _ mem)⟩
      exact { before with members := members, fields := fields }
    | removeField name loc =>
      simp only [ClassEdit.apply, ClassEdit.removeField] at ok
      split at ok <;> cases ok
      have fields : ∀ f ∈ e.cls.fields.eraseP (·.name == name), ∀ n ∈ f.mentions, N n :=
        fun f mem => before.fields f (List.mem_of_mem_eraseP mem)
      exact { before with members := members, fields := fields }
    | addUse u =>
      obtain rfl := Except.ok.inj ok
      exact { before with members := members }

/-- A delta only brings in names that it mentions. -/
theorem DeltaDecl.keeps_within {d : DeltaDecl} (h : (Decl.delta d).Within N) (module : String) :
    d.Keeps (fun _ => Decl.Within N) module := by
  intro op mem
  have within : ∀ n ∈ op.mentions, N n := fun n hn => h n <|
    List.mem_cons_of_mem _ (List.mem_append_right _ (List.mem_flatMap.2 ⟨op, mem, hn⟩))
  refine ⟨fun d adds => ?_, fun _ d d' changed before => ?_⟩
  · cases op with
    | addInterface i | addClass c | addTrait t =>
      obtain rfl := Option.some.inj adds
      exact within
    | _ => cases adds
  · cases changed with
    | trait name expr loc t =>
      exact List.forall_mem_cons.2
        ⟨before _ List.mem_cons_self, fun n mem => within n (List.mem_cons_of_mem _ mem)⟩
    | interface mod i =>
      exact InterfaceDecl.within_modify before fun op mem n hn =>
        within n (List.mem_cons_of_mem _ (List.mem_flatMap.2 ⟨op, mem, hn⟩))
    | «class» mod t module c =>
      refine ClassDecl.within_iff.1 (SymbolTable.within_modifyClass (ClassDecl.within_iff.2 before)
        (fun n hn => within n ?_) fun op mem n hn => within n ?_)
      · exact List.mem_cons_of_mem _ (List.mem_append_left _ hn)
      · exact List.mem_cons_of_mem _ (List.mem_append_right _ (List.mem_flatMap.2 ⟨op, mem, hn⟩))

/-! ## Composition -/

namespace Model

variable {m : Model}

/-- All names that the model mentions have the property. -/
def Within (N : String → Prop) (m : Model) : Prop := m.AllDecls fun _ => Decl.Within N

theorem within_iff : m.Within N ↔ ∀ n ∈ m.mentions, N n := by
  simp only [Within, AllDecls, Decl.Within, mentions, List.forall_mem_flatMap]

theorem Within.applyDeltas {m' : Model} {es : List (Entry DeltaDecl)} (h : m.Within N)
    (deltas : ∀ e ∈ es, (Decl.delta e.decl).Within N) (ok : m.applyDeltas es = .ok m') :
    m'.Within N :=
  AllDecls.applyDeltas (P := fun _ => Decl.Within N) h
    (fun e mem => DeltaDecl.keeps_within (deltas e mem) e.module) ok

theorem Within.decl (h : m.Within N) {e : Entry Decl} (mem : e ∈ m.entries) : e.decl.Within N :=
  AllDecls.of_mem_entries (P := fun _ => Decl.Within N) h mem

theorem Within.traits (h : m.Within N) :
    (SymbolTable.ofModel m).TraitsOver (Method.Within N) N := fun _ mem =>
  TraitExpr.over_within_iff.2 fun n hn =>
    h.decl (mem_traitEntries_iff.1 mem) n (List.mem_cons_of_mem _ hn)

/-- A composed class only mentions names that the model mentions. -/
theorem Within.composedClass (h : m.Within N) {e : Entry ClassDecl} (mem : e ∈ m.classEntries) :
    (m.composedClass e).Within N := by
  have own : e.decl.Within N := ClassDecl.within_iff.2 (h.decl (mem_classEntries_iff.1 mem))
  exact { own with
    members := ⟨over_composedClass Method.stacks_within h.traits own.members,
      fun _ mem => absurd mem List.not_mem_nil⟩ }

end Model

end

end DeltaLang
