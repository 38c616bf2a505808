import DeltaLang.Proofs.Run.Faults
import DeltaLang.Proofs.Typing.Assignable

/-!
# Values of static types

Given the classes of the objects in the heap, a value is of a static type.  A reference to an object
is of its class and of the interfaces that the class implements.  `null` and the unit value are of
every type, since variables start as the one and methods that return nothing yield the other.  No
value is of the unknown type, so values of a type are values of each type that it can be assigned
to, as long as that type is known.
-/

namespace DeltaLang

/-- The classes of the objects, by their places in the heap. -/
def Store.classes (s : Store) : List (Entry ClassDecl) := s.heap.toList.map (·.cls)

theorem getElem?_of_grown {classes classes' : List (Entry ClassDecl)} {id : Nat}
    {c : Entry ClassDecl} (found : classes[id]? = some c) (grown : classes <+: classes') :
    classes'[id]? = some c := by
  obtain ⟨more, rfl⟩ := grown
  rwa [List.getElem?_append_left (List.getElem?_eq_some_iff.1 found).1]

namespace Value

/-- Whether the value is of the type if the objects of the heap are of these classes. -/
def hasType (t : SymbolTable) (classes : List (Entry ClassDecl)) : Value → Ty → Bool
  | bool _, .bool | int _, .int | str _, .string => true
  | unit, ty | null, ty => ty.known
  | object id, .interface name => classes[id]?.any fun c => t.classImplements c.qualifiedName name
  | object id, .class name => classes[id]?.any fun c => c.qualifiedName == name
  | future v, .fut ty => hasType t classes v ty
  | _, _ => false

/-- The value is of the type. -/
def HasType (t : SymbolTable) (classes : List (Entry ClassDecl)) (v : Value) (ty : Ty) : Prop :=
  v.hasType t classes ty = true

instance (t : SymbolTable) (classes : List (Entry ClassDecl)) (v : Value) (ty : Ty) :
    Decidable (v.HasType t classes ty) := inferInstanceAs (Decidable (_ = true))

variable {t : SymbolTable} {classes : List (Entry ClassDecl)} {id : Nat} {name : String}

theorem hasType_interface : (object id).HasType t classes (.interface name) ↔
    ∃ c, classes[id]? = some c ∧ t.classImplements c.qualifiedName name = true :=
  Option.any_eq_true _ _

theorem hasType_class : (object id).HasType t classes (.class name) ↔
    ∃ c, classes[id]? = some c ∧ c.qualifiedName = name := by
  rw [HasType, hasType, Option.any_eq_true]
  simp only [beq_iff_eq]

end Value

namespace Value.HasType

variable {t : SymbolTable} {classes classes' : List (Entry ClassDecl)} {v : Value} {ty ty' : Ty}

theorem known (h : v.HasType t classes ty) : ty.known = true := by
  induction v generalizing ty with
  | unit | null => exact h
  | future v ih =>
    cases ty with
    | fut ty =>
      have inner : ty.known = true := ih h
      exact inner
    | _ => cases h
  | _ => cases ty <;> first | rfl | cases h

/-- New objects do not change what types values are of. -/
theorem mono (h : v.HasType t classes ty) (grown : classes <+: classes') :
    v.HasType t classes' ty := by
  induction v generalizing ty with
  | unit | null => exact h
  | future v ih =>
    cases ty with
    | fut ty =>
      have inner : v.HasType t classes' ty := ih h
      exact inner
    | _ => cases h
  | object id =>
    cases ty with
    | interface name =>
      obtain ⟨c, found, implements⟩ := hasType_interface.1 h
      exact hasType_interface.2 ⟨c, getElem?_of_grown found grown, implements⟩
    | «class» name =>
      obtain ⟨c, found, name⟩ := hasType_class.1 h
      exact hasType_class.2 ⟨c, getElem?_of_grown found grown, name⟩
    | _ => cases h
  | _ => cases ty <;> exact h

/-- Values of a type are values of the types that it can be assigned to. -/
theorem of_isAssignable (placed : t.Placed) (h : v.HasType t classes ty)
    (fits : t.isAssignable ty ty' = true) (target : ty'.known = true) :
    v.HasType t classes ty' := by
  fun_induction t.isAssignable ty ty' generalizing v with
  | case1 => cases h.known
  | case2 => cases target
  | case3 a b ih =>
    cases v with
    | unit | null => exact target
    | future v =>
      have inner : v.HasType t classes b := by
        rcases Bool.or_eq_true_iff.1 fits with same | fits
        · rwa [← beq_iff_eq.1 same]
        · exact ih h fits target
      exact inner
    | _ => cases h
  | case4 =>
    cases v with
    | unit | null => exact target
    | _ => cases h
  | case5 sub sup =>
    cases v with
    | unit | null => exact target
    | object id =>
      obtain ⟨c, found, implements⟩ := hasType_interface.1 h
      refine hasType_interface.2 ⟨c, found, ?_⟩
      rcases Bool.or_eq_true_iff.1 fits with same | edge
      · rwa [← beq_iff_eq.1 same]
      · exact t.classImplements_of_isSubinterface placed implements edge
    | _ => cases h
  | case6 cls sup =>
    cases v with
    | unit | null => exact target
    | object id =>
      obtain ⟨c, found, rfl⟩ := hasType_class.1 h
      exact hasType_interface.2 ⟨c, found, fits⟩
    | _ => cases h
  | case7 => rwa [← beq_iff_eq.1 fits]

/-! ## Lists of values -/

variable {vs : List Value} {tys tys' : List Ty}

theorem mono_all (h : List.Forall₂ (HasType t classes) vs tys) (grown : classes <+: classes') :
    List.Forall₂ (HasType t classes') vs tys := h.imp fun _ _ typed => typed.mono grown

theorem all_of_isAssignable (placed : t.Placed) (h : List.Forall₂ (HasType t classes) vs tys)
    (fit : List.Forall₂ (fun ty ty' => t.isAssignable ty ty' = true) tys tys')
    (targets : ∀ ty ∈ tys', ty.known = true) : List.Forall₂ (HasType t classes) vs tys' := by
  induction fit generalizing vs with
  | nil => exact h
  | cons fits _ ih =>
    cases h with
    | cons first rest =>
      have target := targets _ List.mem_cons_self
      exact .cons (first.of_isAssignable placed fits target)
        (ih rest fun ty mem => targets ty (List.mem_cons_of_mem _ mem))

end Value.HasType

/-! ## Results of operators -/

section

variable {t : SymbolTable} {classes : List (Entry ClassDecl)} {a b v : Value}

/-- What a future was resolved to is of the type that the future is of. -/
theorem Value.hasType_awaited {ty : Ty} (h : a.awaited = .ok v) (typed : a.HasType t classes ty)
    (loc : Option Location) : v.HasType t classes (SymbolTable.typeGet ty loc).type := by
  cases a <;> cases h
  cases ty <;> first | exact typed | cases typed

theorem UnaryOp.hasType_apply {op : UnaryOp} (h : op.apply a = .ok v) (found : Ty)
    (loc : Option Location) : v.HasType t classes (t.typeUnary op found loc).type := by
  cases op with
  | not =>
    obtain ⟨x, -, rfl⟩ := exists_of_map_eq_ok h
    trivial
  | neg =>
    obtain ⟨n, -, h⟩ := exists_of_bind_eq_ok h
    obtain ⟨x, -, rfl⟩ := exists_of_map_eq_ok h
    trivial

namespace BinaryOp

variable {op : BinaryOp} {l r : Ty} {loc : Option Location}

/-- The type of the values of an operator on operands of these types. -/
def resultType (op : BinaryOp) (l r : Ty) : Ty :=
  match op with
  | add => if l = .string ∨ r = .string then .string else .int
  | sub | mul | div | mod => .int
  | _ => .bool

theorem type_typeBinary (t : SymbolTable) (op : BinaryOp) (l r : Ty) (loc : Option Location) :
    (t.typeBinary op l r loc).type = op.resultType l r := by
  cases op with
  | eq | ne | add =>
    simp only [SymbolTable.typeBinary, resultType]
    split <;> rfl
  | _ => rfl

theorem hasType_first (h : op.first a = .ok (some v)) (l r : Ty) :
    v.HasType t classes (op.resultType l r) := by
  cases op with
  | and | or =>
    obtain ⟨x, -, eq⟩ := exists_of_map_eq_ok h
    cases x <;> cases eq
    trivial
  | eq | ne | add => cases h
  | _ =>
    obtain ⟨x, -, eq⟩ := exists_of_map_eq_ok h
    cases eq

theorem hasType_both (h : op.both a b = .ok v) (ha : a.HasType t classes l)
    (hb : b.HasType t classes r) : v.HasType t classes (op.resultType l r) := by
  cases op with
  | and | or =>
    obtain ⟨x, -, rfl⟩ := exists_of_map_eq_ok h
    trivial
  | eq | ne =>
    cases h
    trivial
  | add =>
    simp only [both] at h
    split at h
    · obtain ⟨n, -, rfl⟩ := exists_of_map_eq_ok h
      -- integers are of no other type
      cases l <;> cases ha
      cases r <;> cases hb
      trivial
    · cases h
      cases l <;> cases ha
      trivial
    · cases h
    · cases h
  | lt | le | gt | ge =>
    obtain ⟨x, -, h⟩ := exists_of_bind_eq_ok h
    obtain ⟨y, -, h⟩ := exists_of_bind_eq_ok h
    cases h
    trivial
  | _ =>
    obtain ⟨x, -, h⟩ := exists_of_bind_eq_ok h
    obtain ⟨y, -, h⟩ := exists_of_bind_eq_ok h
    obtain ⟨n, -, rfl⟩ := exists_of_map_eq_ok h
    trivial

end BinaryOp

end

end DeltaLang
