import DeltaLang.Proofs.Run.Bindings
import DeltaLang.Proofs.Run.Faults
import DeltaLang.Proofs.Run.Rules
import DeltaLang.Proofs.Typing.Classes

/-!
# Runs that fit their traversal

An object fits if its fields match those of its class, and a frame fits a context if its
scopes match those of the context and both are of the same class and method version.  A run
keeps to what is checked if, from a store of objects that fit, it only adds such objects and does
not stop where a name means nothing; or, where types matter, where a call does not fit what it
goes to.  What it yields is said for the classes of the objects that are there in the end.
-/

namespace DeltaLang

/-! ## Objects and frames -/

/-- The class is what its qualified name means. -/
def SymbolTable.Names (t : SymbolTable) (c : Entry ClassDecl) : Prop :=
  t.classes.resolve none c.qualifiedName = .ok c

structure Object.Fits (t : SymbolTable) (strict : Prop) (classes : List (Entry ClassDecl))
    (o : Object) : Prop where
  named : t.Names o.cls
  fields : Matches t strict classes (t.bindFields o.cls).1 o.fields

/-- All objects fit. -/
def Store.Fits (t : SymbolTable) (strict : Prop) (s : Store) : Prop :=
  ∀ o ∈ s.heap, o.Fits t strict s.classes

structure Frame.Fits (t : SymbolTable) (strict : Prop) (classes : List (Entry ClassDecl))
    (cx : Context) (fr : Frame) : Prop where
  this : classes[fr.this]? = some cx.cls
  module : fr.module = cx.module
  fields : cx.fields = (t.bindFields cx.cls).1
  inBody : cx.body.isSome
  scopes : List.Forall₂ (Matches t strict classes) cx.scopes fr.scopes
  version : fr.method.map (·.toVersion) = cx.version?
  /-- What runs is a method of the class, or such a method as it was before. -/
  origin : ∀ m, fr.method = some m → ∃ own ∈ cx.cls.decl.methods, m.versions <:+ own.versions

/-- What is carried out belongs to the class of its object, and its arguments fit. -/
def Activation.Fits (t : SymbolTable) (strict : Prop) (classes : List (Entry ClassDecl)) :
    Activation → Prop
  | .method this module m args =>
    ∃ c, classes[this]? = some c ∧ module = c.module ∧
      (∃ own ∈ c.decl.methods, m.versions <:+ own.versions) ∧
      (strict → List.Forall₂ (Value.HasType t classes) args (t.paramTypes module m.sig.params))
  | .creation c args => t.Names c ∧
      (strict → List.Forall₂ (Value.HasType t classes) args (t.paramTypes c.module c.decl.params))

/-- The type of what an activation yields. -/
def Activation.type (t : SymbolTable) : Activation → Ty
  | .method _ module m _ => t.typeOr module m.sig.ret
  | .creation c _ => .class c.qualifiedName

section

variable {t : SymbolTable} {strict : Prop} {classes classes' : List (Entry ClassDecl)}

theorem Object.Fits.mono {o : Object} (h : o.Fits t strict classes) (grown : classes <+: classes') :
    o.Fits t strict classes' := ⟨h.named, h.fields.mono grown⟩

/-- The frame in which a body of a class starts. -/
theorem Frame.fits_start {c : Entry ClassDecl} {this : Nat} (here : classes[this]? = some c)
    (name : String) {method : Option Method}
    (origin : ∀ m, method = some m → ∃ own ∈ c.decl.methods, m.versions <:+ own.versions)
    (ret : Ty) {params : List Binding} {scope : Scope}
    (bound : Matches t strict classes params scope) :
    Frame.Fits t strict classes
      ((t.classContext c).inBody name (method.map (·.toVersion)) ret params)
      ⟨this, c.module, method, [scope]⟩ where
  this := here
  module := rfl
  fields := rfl
  inBody := rfl
  scopes := .cons bound .nil
  version := rfl
  origin := origin

namespace Frame.Fits

variable {cx : Context} {fr : Frame}

theorem mono (h : fr.Fits t strict classes cx) (grown : classes <+: classes') :
    fr.Fits t strict classes' cx :=
  { h with
    this := getElem?_of_grown h.this grown
    scopes := h.scopes.imp fun _ _ related => related.mono grown }

/-- Frames may change their scopes along with the context. -/
theorem withScopes (h : fr.Fits t strict classes cx) {inner : List (List Binding)}
    {scopes : List Scope} (related : List.Forall₂ (Matches t strict classes) inner scopes) :
    ({ fr with scopes := scopes } : Frame).Fits t strict classes (cx.withScopes inner) where
  this := h.this
  module := h.module
  fields := h.fields
  inBody := by rw [Context.withScopes, Option.isSome_map]; exact h.inBody
  scopes := by rw [Context.scopes_withScopes h.inBody]; exact related
  version := by rw [SymbolTable.version?_withScopes]; exact h.version
  origin := h.origin

variable {bss inner : List (List Binding)}

theorem rescope (h : fr.Fits t strict classes (cx.withScopes bss)) {scopes : List Scope}
    (related : List.Forall₂ (Matches t strict classes) inner scopes) :
    ({ fr with scopes := scopes } : Frame).Fits t strict classes (cx.withScopes inner) := by
  have fits := h.withScopes related
  rwa [Context.withScopes_withScopes] at fits

theorem related (h : fr.Fits t strict classes (cx.withScopes bss)) :
    List.Forall₂ (Matches t strict classes) bss fr.scopes := by
  have inBody := h.inBody
  rw [Context.withScopes, Option.isSome_map] at inBody
  have scopes := h.scopes
  rwa [Context.scopes_withScopes inBody] at scopes

theorem enter (h : fr.Fits t strict classes (cx.withScopes bss)) :
    fr.enter.Fits t strict classes (cx.withScopes ([] :: bss)) := h.rescope (.cons .nil h.related)

theorem leave (h : fr.Fits t strict classes (cx.withScopes bss)) :
    fr.leave.Fits t strict classes (cx.withScopes bss.tail) := by
  refine h.rescope ?_
  have related := h.related
  generalize fr.scopes = scopes at related
  cases related with
  | nil => exact .nil
  | cons _ rest => exact rest

/-- A new variable is bound along with the context. -/
theorem bind {st : BodyState} (h : fr.Fits t strict classes (cx.withScopes st.scopes))
    {b : Binding} {v : Value} (admits : b.Admits t strict classes v) :
    (fr.bind b.name v).Fits t strict classes (cx.withScopes (st.bind b).scopes) := by
  refine h.rescope ?_
  have related := h.related
  rw [BodyState.bind]
  generalize st.scopes = bss, fr.scopes = scopes at related
  cases related with
  | nil => exact .nil
  | cons first rest => exact .cons (first.cons rfl admits) rest

end Frame.Fits

namespace Store

theorem getElem?_classes {s : Store} {id : Nat} {o : Object} (h : s.heap[id]? = some o) :
    s.classes[id]? = some o.cls := by
  rw [Store.classes, List.getElem?_map, Array.getElem?_toList, h]
  rfl

/-- Changing an object does not change the classes of objects. -/
theorem classes_modify {s : Store} {id : Nat} {g : Object → Object}
    (same : ∀ o, (g o).cls = o.cls) :
    ({ s with heap := s.heap.modify id g } : Store).classes = s.classes := by
  refine List.ext_getElem? fun i => ?_
  simp only [Store.classes, List.getElem?_map, Array.getElem?_toList, Array.getElem?_modify]
  split
  · simp [Function.comp_def, same]
  · rfl

theorem Fits.modify {s : Store} {id : Nat} {o : Object} {g : Object → Object}
    (fits : s.Fits t strict) (found : s.heap[id]? = some o) (same : ∀ o, (g o).cls = o.cls)
    (changed : (g o).Fits t strict s.classes) :
    ({ s with heap := s.heap.modify id g } : Store).Fits t strict := by
  intro o' mem
  rw [classes_modify same]
  obtain ⟨i, here⟩ := Array.mem_iff_getElem?.1 mem
  rw [Array.getElem?_modify] at here
  split at here
  · rename_i place
    rw [← place, found] at here
    obtain rfl := Option.some.inj here
    exact changed
  · exact fits o' (Array.mem_of_getElem? here)

end Store

end

/-! ## Stopping -/

/-- Whether the fault is that a name of the program means nothing. -/
def Fault.isScoping : Fault → Bool
  | unboundVariable _ | unknownField .. | unknownClass _ | ambiguousClass .. => true
  | _ => false

/-- Whether the fault is that a call or creation does not fit what it goes to. -/
def Fault.isDispatch : Fault → Bool
  | unknownMethod .. | argumentCount .. => true
  | _ => false

/-- The run does not stop for its names, nor for its calls where types matter. -/
def Stop.Harmless (strict : Prop) : Stop → Prop
  | fault flt => flt.isScoping = false ∧ (strict → flt.isDispatch = false)
  | _ => True

theorem Stop.harmless_of_ofValues {strict : Prop} {flt : Fault} (h : flt.ofValues = true) :
    (Stop.fault flt).Harmless strict := by
  cases flt <;> first | exact ⟨rfl, fun _ => rfl⟩ | cases h

namespace Run

variable {α β : Type} {t : SymbolTable} {strict : Prop} {classes : List (Entry ClassDecl)}
  {x : Run α} {f : α → Run β} {Q Q' : List (Entry ClassDecl) → α → Prop}
  {R : List (Entry ClassDecl) → β → Prop}

/-- From a store with objects of these classes and maybe more, the run keeps to what is checked. -/
def Sound (t : SymbolTable) (strict : Prop) (classes : List (Entry ClassDecl)) (x : Run α)
    (Q : List (Entry ClassDecl) → α → Prop) : Prop :=
  Ensures (fun s => s.Fits t strict ∧ classes <+: s.classes) x
    (fun v s => s.Fits t strict ∧ classes <+: s.classes ∧ Q s.classes v)
    (fun e s => s.Fits t strict ∧ e.Harmless strict)

theorem Sound.run {s : Store} (h : Sound t strict s.classes x Q) (fits : s.Fits t strict) :
    (ExceptT.run x s).2.Fits t strict ∧
      ∀ e, (ExceptT.run x s).1 = .error e → e.Harmless strict := by
  obtain ⟨value, stop⟩ := h s ⟨fits, List.prefix_rfl⟩
  rcases result : ExceptT.run x s with ⟨e | v, s'⟩
  · refine ⟨(stop e s' result).1, fun e' he => ?_⟩
    cases he
    exact (stop e s' result).2
  · exact ⟨(value v s' result).1, fun e he => by cases he⟩

theorem Sound.bind (h : Sound t strict classes x Q)
    (hf : ∀ v classes', classes <+: classes' → Q classes' v → Sound t strict classes' (f v) R) :
    Sound t strict classes (x >>= f) R := by
  refine Ensures.bind h fun v s ⟨fits, grown, result⟩ => ?_
  obtain ⟨value, stop⟩ := hf v s.classes grown result s ⟨fits, List.prefix_rfl⟩
  refine ⟨fun v' s' eq => ?_, stop⟩
  obtain ⟨fits', grown', result'⟩ := value v' s' eq
  exact ⟨fits', grown.trans grown', result'⟩

theorem Sound.mono (h : Sound t strict classes x Q)
    (post : ∀ v classes', classes <+: classes' → Q classes' v → Q' classes' v) :
    Sound t strict classes x Q' :=
  Ensures.mono h (fun _ => id) fun v s ⟨fits, grown, result⟩ =>
    ⟨fits, grown, post v s.classes grown result⟩

/-- All objects are of classes that their names mean. -/
theorem Sound.assuming_named (h : (∀ c ∈ classes, t.Names c) → Sound t strict classes x Q) :
    Sound t strict classes x Q := by
  intro s ⟨fits, grown⟩
  refine h (fun c mem => ?_) s ⟨fits, grown⟩
  obtain ⟨o, inHeap, rfl⟩ := List.mem_map.1 (grown.subset mem)
  exact (fits o (Array.mem_toList_iff.1 inHeap)).named

theorem sound_pure {v : α} (h : ∀ classes', classes <+: classes' → Q classes' v) :
    Sound t strict classes (pure v) Q :=
  ensures_pure fun s ⟨fits, grown⟩ => ⟨fits, grown, h s.classes grown⟩

theorem sound_throw {e : Stop} (h : e.Harmless strict) :
    Sound t strict classes (throw e : Run α) Q := ensures_throw fun _ ⟨fits, _⟩ => ⟨fits, h⟩

theorem sound_fault {flt : Fault} (h : (Stop.fault flt).Harmless strict) :
    Sound t strict classes (fault flt : Run α) Q := sound_throw h

theorem sound_ofExcept {r : Except Fault α}
    (ok : ∀ v, r = .ok v → ∀ classes', classes <+: classes' → Q classes' v)
    (err : ∀ flt, r = .error flt → (Stop.fault flt).Harmless strict) :
    Sound t strict classes (ofExcept r) Q :=
  ensures_ofExcept (fun v s eq ⟨fits, grown⟩ => ⟨fits, grown, ok v eq s.classes grown⟩)
    fun flt _ eq ⟨fits, _⟩ => ⟨fits, err flt eq⟩

theorem sound_ofValues {r : Except Fault α}
    (err : ∀ flt, r = .error flt → flt.ofValues = true) :
    Sound t strict classes (ofExcept r) fun _ v => r = .ok v :=
  sound_ofExcept (fun _ eq _ _ => eq) fun flt eq => Stop.harmless_of_ofValues (err flt eq)

theorem sound_get : Sound t strict classes (get : Run Store) fun _ _ => True :=
  ensures_get fun _ ⟨fits, grown⟩ => ⟨fits, grown, trivial⟩

theorem sound_tick (budget : Nat) : Sound t strict classes (tick budget) fun _ _ => True :=
  ensures_tick (fun _ _ _ ⟨fits, grown⟩ => ⟨fits, grown, trivial⟩)
    fun _ _ ⟨fits, _⟩ => ⟨fits, rfl, fun _ => rfl⟩

/-! ## Objects in the heap -/

theorem sound_object (id : Nat) :
    Sound t strict classes (object id) fun classes' o =>
      classes'[id]? = some o.cls ∧ o.Fits t strict classes' :=
  ensures_object (fun _ o found ⟨fits, grown⟩ =>
      ⟨fits, grown, Store.getElem?_classes found, fits o (Array.mem_of_getElem? found)⟩)
    fun _ _ ⟨fits, _⟩ => ⟨fits, trivial⟩

theorem sound_allocate {o : Object}
    (h : ∀ classes', classes <+: classes' → o.Fits t strict classes') :
    Sound t strict classes (allocate o) fun classes' id => classes'[id]? = some o.cls := by
  refine ensures_allocate fun s ⟨fits, grown⟩ => ?_
  have same : ({ s with heap := s.heap.push o } : Store).classes = s.classes ++ [o.cls] := by
    simp [Store.classes]
  have grown' : s.classes <+: s.classes ++ [o.cls] := List.prefix_append _ _
  refine ⟨fun o' mem => ?_, same ▸ grown.trans grown', ?_⟩
  · rw [same]
    rcases Array.mem_push.1 mem with mem | rfl
    · exact (fits o' mem).mono grown'
    · exact h _ (grown.trans grown')
  · have size : s.heap.size = s.classes.length := by simp [Store.classes]
    rw [same, size]
    exact List.getElem?_concat_length

/-- A field may be given a value that fits what the name of the field is bound to. -/
theorem sound_setField {id : Nat} {c : Entry ClassDecl} {name : String} {b : Binding} {v : Value}
    {otherwise : Object → Fault} (here : classes[id]? = some c)
    (bound : (t.bindFields c).1.find? (·.name == name) = some b)
    (admits : b.Admits t strict classes v) :
    Sound t strict classes (setField id name v otherwise) fun _ _ => True := by
  refine ensures_setField (fun s o old found _ ⟨fits, grown⟩ => ?_) (fun _ _ ⟨fits, _⟩ =>
    ⟨fits, trivial⟩) fun s o found unknown ⟨fits, grown⟩ => ?_
  all_goals
    obtain rfl : o.cls = c := Option.some.inj
      ((Store.getElem?_classes found).symm.trans (getElem?_of_grown here grown))
    have fitting := fits o (Array.mem_of_getElem? found)
  · refine ⟨fits.modify found (fun _ => rfl) ⟨fitting.named, ?_⟩, ?_, trivial⟩
    · refine fitting.fields.assign fun b' bound' types => ?_
      obtain rfl := Option.some.inj (bound.symm.trans bound')
      exact admits.mono grown types
    · have same : ({ s with heap := s.heap.modify id fun o =>
          { o with fields := assignName name v o.fields } } : Store).classes = s.classes :=
        Store.classes_modify fun _ => rfl
      exact same ▸ grown
  · obtain ⟨old, known, -⟩ := fitting.fields.exists_of_find? bound
    cases known.symm.trans unknown

end Run

end DeltaLang
