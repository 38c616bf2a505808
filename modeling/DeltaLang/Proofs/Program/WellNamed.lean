import DeltaLang.Grammar.Concrete
import DeltaLang.Proofs.Delta.Carried
import DeltaLang.Proofs.Delta.Plain

/-!
# Well-named programs

In a program that is read from texts the names of classes, traits and methods are words, and all
versions of a method have its name.  Applying deltas and composing classes keeps this so.
-/

namespace DeltaLang

/-! ## Words -/

/-- The name consists of letters, digits and underscores. -/
def Word (name : String) : Prop := ∀ c ∈ name.toList, Concrete.isNameChar c = true

theorem Word.not_mem {name : String} (h : Word name) {c : Char}
    (other : Concrete.isNameChar c = false) : c ∉ name.toList := fun mem => by
  rw [h c mem] at other
  cases other

theorem Word.plainName {name : String} (h : Word name) : PlainName name := h.not_mem (by decide)

/-! ## Well-named declarations -/

/-- The name of the method is a word, and all versions have it. -/
structure Method.WellNamed (m : Method) : Prop where
  word : Word m.name
  versions : ∀ v ∈ m.versions, v.name = m.name

theorem Method.wellNamed_ofVersion {v : Version} (word : Word v.name) :
    (Method.ofVersion v).WellNamed := ⟨word, by simp [versions, ofVersion, Version.name]⟩

/-- A version in front of those of the same name. -/
theorem Method.stacks_wellNamed : Method.Stacks Method.WellNamed := fun m old h h' same => {
  word := h.word
  versions := fun v mem => by
    rw [versions_replacing] at mem
    rcases List.mem_append.1 mem with mem | mem
    · exact h.versions v mem
    · exact (h'.versions v mem).trans same }

/-- All methods in the expression are well-named. -/
def TraitExpr.WellNamed (e : TraitExpr) : Prop := e.Over Method.WellNamed fun _ => True

def TraitUse.WellNamed (u : TraitUse) : Prop := u.Over Method.WellNamed fun _ => True

structure TraitDecl.WellNamed (t : TraitDecl) : Prop where
  word : Word t.name
  expr : t.expr.WellNamed

structure ClassDecl.WellNamed (c : ClassDecl) : Prop where
  word : Word c.name
  methods : ∀ m ∈ c.methods, m.WellNamed
  uses : ∀ u ∈ c.uses, u.WellNamed

def ClassOp.WellNamed (op : ClassOp) : Prop := op.Over Method.WellNamed fun _ => True

def DeltaOp.WellNamed : DeltaOp → Prop
  | addClass c => c.WellNamed
  | addTrait t => t.WellNamed
  | modifyTrait _ e _ => e.WellNamed
  | modifyClass mod => ∀ op ∈ mod.ops, op.WellNamed
  | _ => True

/-- Classes, traits and methods that are declared, or that a delta adds, are well-named. -/
def Decl.WellNamed : Decl → Prop
  | .class c => c.WellNamed
  | .trait t => t.WellNamed
  | .delta d => ∀ op ∈ d.ops, op.WellNamed
  | .interface _ | .product _ => True

theorem Decl.WellNamed.plainTraits {d : Decl} (h : d.WellNamed) : d.PlainTraits := by
  cases d with
  | trait t => exact (TraitDecl.WellNamed.word h).plainName
  | delta d => exact fun t mem => (TraitDecl.WellNamed.word (h (.addTrait t) mem)).plainName
  | _ => trivial

/-- All declarations of the model are well-named. -/
def Model.WellNamed (m : Model) : Prop := m.AllDecls fun _ => Decl.WellNamed

/-! ## Deltas -/

theorem SymbolTable.wellNamed_modifyClass {t : SymbolTable} {module delta : String}
    {mod : ClassModifier} {c : ClassDecl} (h : c.WellNamed) (hmod : ∀ op ∈ mod.ops, op.WellNamed) :
    (t.modifyClass module delta mod c).1.WellNamed := by
  have members : (t.modifyClass module delta mod c).1.Over Method.WellNamed fun _ => True :=
    over_modifyClass Method.stacks_wellNamed ⟨h.methods, h.uses⟩ hmod
  refine ⟨?_, members.methods, members.uses⟩
  rw [t.name_modifyClass]
  exact h.word

theorem DeltaDecl.keeps_wellNamed {d : DeltaDecl} (h : (Decl.delta d).WellNamed)
    (module : String) : d.Keeps (fun _ => Decl.WellNamed) module := by
  refine fun op mem => ⟨fun d adds => ?_, fun _ d d' changed before => ?_⟩
  · have wellNamed := h op mem
    cases op with
    | addInterface i | addClass c | addTrait t =>
      obtain rfl := Option.some.inj adds
      exact wellNamed
    | _ => cases adds
  · cases changed with
    | trait name expr loc t => exact ⟨before.1, h _ mem⟩
    | interface mod i => trivial
    | «class» mod t module c => exact SymbolTable.wellNamed_modifyClass before (h _ mem)

theorem Model.WellNamed.applyDeltas {m m' : Model} {es : List (Entry DeltaDecl)}
    (h : m.WellNamed) (deltas : ∀ e ∈ es, (Decl.delta e.decl).WellNamed)
    (ok : m.applyDeltas es = .ok m') : m'.WellNamed :=
  AllDecls.applyDeltas (P := fun _ => Decl.WellNamed) h
    (fun e mem => DeltaDecl.keeps_wellNamed (deltas e mem) e.module) ok

/-! ## Composition -/

/-- The classes of a composed model are well-named. -/
theorem Model.WellNamed.composedClass {m : Model} (h : m.WellNamed) {e : Entry ClassDecl}
    (mem : e ∈ m.classEntries) : (m.composedClass e).WellNamed := by
  have traits : (SymbolTable.ofModel m).TraitsOver Method.WellNamed fun _ => True := fun e mem =>
    (AllDecls.of_mem_entries (P := fun _ => Decl.WellNamed) h
      (mem_traitEntries_iff.1 mem) : e.decl.WellNamed).expr
  have own : e.decl.WellNamed :=
    AllDecls.of_mem_entries (P := fun _ => Decl.WellNamed) h (mem_classEntries_iff.1 mem)
  exact ⟨own.word, over_composedClass Method.stacks_wellNamed traits ⟨own.methods, own.uses⟩,
    fun _ mem => absurd mem List.not_mem_nil⟩

end DeltaLang
