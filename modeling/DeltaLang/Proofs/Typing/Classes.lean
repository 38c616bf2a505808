import DeltaLang.Proofs.Names.Closure
import DeltaLang.Proofs.Typing.Quiet
import Mathlib.Data.List.Induction

/-!
# Quiet classes

The traversal of a class passes its parameters and fields, the interfaces it implements, its initial
block and every version of its methods.  Where it is quiet, all of these are; and where it is
strict, their types mean something and the class has the methods that it must have.
-/

namespace DeltaLang

/-- The context in a body of a class. -/
def Context.inBody (cx : Context) (name : String) (version : Option Version) (ret : Ty)
    (params : List Binding) : Context :=
  { cx with body := some ⟨name, version, ret, [params]⟩ }

namespace SymbolTable

variable {t : SymbolTable} {strict : Prop} {cx : Context} {c : Entry ClassDecl}

/-! ## Bindings -/

/-- The binding of a parameter of a method. -/
def paramBinding (t : SymbolTable) (cx : Context) (body : String) (p : Param) : Binding :=
  ⟨p.name, .param cx.className body p.name, t.typeOr cx.module p.type⟩

/-- The binding of a parameter of a class. -/
def classParamBinding (t : SymbolTable) (c : Entry ClassDecl) (p : Param) : Binding :=
  ⟨p.name, .classParam c.qualifiedName p.name, t.typeOr c.module p.type⟩

def fieldBinding (t : SymbolTable) (c : Entry ClassDecl) (f : FieldDecl) : Binding :=
  ⟨f.name, .field c.qualifiedName f.name, t.typeOr c.module f.type⟩

theorem bindParams_eq (t : SymbolTable) (cx : Context) (body : String) (sig : Signature) :
    t.bindParams cx body sig =
      ((sig.params.map (t.paramBinding cx body)).reverse,
        sig.params.flatMap fun p => (t.checkType cx.module p.type (p.loc.or sig.loc)).2) := by
  unfold bindParams
  induction sig.params using List.reverseRecOn with
  | nil => rfl
  | append_singleton ps p ih =>
    rw [List.foldl_append, ih]
    simp [paramBinding, fst_checkType]

theorem fst_bindFields (t : SymbolTable) (c : Entry ClassDecl) :
    (t.bindFields c).1 =
      c.decl.params.map (t.classParamBinding c) ++ c.decl.fields.map (t.fieldBinding c) := by
  simp only [bindFields, List.map_append, List.map_map]
  congr 1
  · exact List.map_congr_left fun p _ => by simp [classParamBinding, fst_checkType]
  · exact List.map_congr_left fun f _ => by simp [fieldBinding, fst_checkType]

theorem snd_bindFields (t : SymbolTable) (c : Entry ClassDecl) :
    (t.bindFields c).2 =
      (c.decl.params.flatMap fun p => (t.checkType c.module p.type (p.loc.or c.decl.loc)).2) ++
        c.decl.fields.flatMap fun f => (t.checkType c.module f.type f.loc).2 := by
  simp only [bindFields, List.flatMap_append, List.flatMap_map]

/-! ## Bodies -/

theorem quiet_walkBody {name : String} {version : Option Version} {ret : Ty}
    {params : List Binding} {prelude block : Block}
    (quiet : Quiet strict (t.walkBody cx name version ret params prelude block)) :
    Quiet strict
        (t.walkStmts (cx.inBody name version ret params) ret ⟨[params], 0, 0⟩ prelude).2 ∧
      Quiet strict (t.walkStmts (cx.inBody name version ret params) ret
        (t.walkStmts (cx.inBody name version ret params) ret ⟨[params], 0, 0⟩ prelude).1.enter
        block).2 := by
  rw [walkBody] at quiet
  simp only [quiet_append] at quiet
  exact ⟨quiet.1.1.subset (List.subset_cons_self _ _), quiet.1.2⟩

/-- The types in a version are known, and its body is quiet. -/
structure QuietVersion (t : SymbolTable) (strict : Prop) (cx : Context) (v : Version) : Prop where
  ret : strict → (t.typeOr cx.module v.sig.ret).known = true
  params : strict → ∀ ty ∈ t.paramTypes cx.module v.sig.params, ty.known = true
  body : ∃ name, Quiet strict (t.walkStmts
    (cx.inBody name (some v) (t.typeOr cx.module v.sig.ret)
      (v.sig.params.map (t.paramBinding cx name)).reverse)
    (t.typeOr cx.module v.sig.ret)
    (⟨[(v.sig.params.map (t.paramBinding cx name)).reverse], 0, 0⟩ : BodyState).enter v.body).2

theorem quietVersion {v : Version} {i : Nat} (quiet : Quiet strict (t.walkVersion cx v i)) :
    t.QuietVersion strict cx v := by
  simp only [walkVersion, bindParams_eq, fst_checkType, quiet_append, quiet_findings,
    List.forall_mem_append, List.forall_mem_flatMap] at quiet
  obtain ⟨⟨ret, params⟩, body⟩ := quiet
  exact ⟨fun h => known_typeOr_of_tolerated h ret,
    fun h => List.forall_mem_map.2 fun p mem => known_typeOr_of_tolerated h (params p mem),
    _, (quiet_walkBody body).2⟩

/-! ## Classes -/

/-- The context outside of the bodies of a class. -/
def classContext (t : SymbolTable) (c : Entry ClassDecl) : Context := ⟨c, (t.bindFields c).1, none⟩

theorem eq_nil_of_eraseDupsBy {α : Type} {r : α → α → Bool} {l : List α}
    (h : l.eraseDupsBy r = []) : l = [] := by
  cases l with
  | nil => rfl
  | cons a l =>
    rw [List.eraseDupsBy_cons] at h
    cases h

/-- Without findings of missing methods, a class has a method for every signature that it must
have one for. -/
theorem isSome_method?_of_missingMethods (none : t.missingMethods cx = [])
    {i : Entry InterfaceDecl} (implemented : i ∈ t.implementedInterfaces cx.cls) {sig : Signature}
    (mem : sig ∈ i.decl.methods) : (cx.cls.decl.method? sig.name).isSome = true := by
  simp only [missingMethods, List.map_eq_nil_iff] at none
  have required : (sig.name, i.name) ∈ (t.implementedInterfaces cx.cls).flatMap fun i =>
      i.decl.methods.map fun sig => (sig.name, i.name) :=
    List.mem_flatMap.2 ⟨i, implemented, List.mem_map_of_mem mem⟩
  have present := List.filter_eq_nil_iff.1 (eq_nil_of_eraseDupsBy none) _ required
  simpa [Option.isSome_iff_ne_none] using present

/-- The types of the fields of a class are known, and its bodies are quiet. -/
structure QuietClass (t : SymbolTable) (strict : Prop) (c : Entry ClassDecl) : Prop where
  known : strict → ∀ b ∈ (t.bindFields c).1, b.type.known = true
  /-- The class has the methods of the interfaces that it implements. -/
  complete : strict → ∀ i ∈ t.implementedInterfaces c, ∀ sig ∈ i.decl.methods,
    (c.decl.method? sig.name).isSome = true
  init : Quiet strict (t.walkBody (t.classContext c) initBody none .unit [] (fieldInits c.decl)
    (c.decl.init.getD []))
  versions : ∀ m ∈ c.decl.methods, ∀ v ∈ m.versions, t.QuietVersion strict (t.classContext c) v

theorem known_of_quiet_bindFields (h : strict)
    (tolerated : ∀ d ∈ (t.bindFields c).2, d.Tolerated strict) :
    ∀ b ∈ (t.bindFields c).1, b.type.known = true := by
  rw [snd_bindFields] at tolerated
  simp only [List.forall_mem_append, List.forall_mem_flatMap] at tolerated
  rw [fst_bindFields]
  simp only [List.forall_mem_append, List.forall_mem_map]
  exact ⟨fun p mem => known_typeOr_of_tolerated h (tolerated.1 p mem),
    fun f mem => known_typeOr_of_tolerated h (tolerated.2 f mem)⟩

theorem QuietClass.known_params (quiet : t.QuietClass strict c) (h : strict) :
    ∀ ty ∈ t.paramTypes c.module c.decl.params, ty.known = true := by
  have known := quiet.known h
  rw [fst_bindFields] at known
  exact List.forall_mem_map.2 fun p mem =>
    known (t.classParamBinding c p) (List.mem_append_left _ (List.mem_map_of_mem mem))

theorem quietClass (quiet : Quiet strict (t.walkClass c)) : t.QuietClass strict c := by
  simp only [walkClass, quiet_append, quiet_findings, quiet_flatMap] at quiet
  obtain ⟨⟨⟨⟨⟨⟨fields, -⟩, missing⟩, init⟩, versions⟩, -⟩, -⟩ := quiet
  refine ⟨fun h => known_of_quiet_bindFields h fields, fun h i implemented sig mem => ?_, init,
    fun m hm v hv => ?_⟩
  · have none : t.missingMethods (t.classContext c) = [] :=
      List.eq_nil_iff_forall_not_mem.2 fun d hd => by
        have tolerated := missing d hd
        obtain ⟨⟨name, interface⟩, -, rfl⟩ := List.mem_map.1 hd
        exact not_tolerated_of_strict h tolerated
    exact isSome_method?_of_missingMethods none implemented mem
  · obtain ⟨i, found⟩ := List.mem_iff_getElem?.1 hv
    exact quietVersion (versions m hm (v, i) (List.mem_zipIdx_iff_getElem?.2 found))

/-! ## Interfaces -/

/-- In a quiet interface, the types in signatures are known. -/
theorem known_of_walkInterface {i : Entry InterfaceDecl} (h : strict)
    (quiet : Quiet strict (t.walkInterface i)) {sig : Signature} (mem : sig ∈ i.decl.methods) :
    (∀ ty ∈ t.paramTypes i.module sig.params, ty.known = true) ∧
      (t.typeOr i.module sig.ret).known = true := by
  simp only [walkInterface, quiet_findings, List.forall_mem_flatMap,
    List.forall_mem_append] at quiet
  obtain ⟨ret, params⟩ := quiet sig mem
  exact ⟨List.forall_mem_map.2 fun p hp => known_typeOr_of_tolerated h (params p hp),
    known_typeOr_of_tolerated h ret⟩

end SymbolTable

end DeltaLang
