import DeltaLang.Proofs.Names.Visits
import DeltaLang.Proofs.Typing.Quiet

/-!
# Which types can be assigned to which

A type can be assigned to itself, `null` to types of references, an interface to what it extends, a
class to what it implements, and a future as the type it is a future of.  Between names this is what
interface extension reaches, so it goes on from one type to the next, also through futures.  Only
the unknown type is in between types that do not fit.
-/

namespace DeltaLang

namespace SymbolTable

variable {t : SymbolTable} {a b c : Ty} {sub mid sup cls : String}

/-! ## Names -/

theorem classImplements_iff (placed : t.Placed) :
    t.classImplements cls sup = true ↔ ∃ c i, t.classes.resolve none cls = .ok c ∧
      t.interfaces.resolve none sup = .ok i ∧ i ∈ t.implementedInterfaces c := by
  unfold classImplements
  constructor
  · intro implements
    split at implements
    · rename_i c i hc hi
      obtain ⟨j, implemented, here⟩ := List.any_eq_true.1 implements
      have inModel := mem_interfaces_of_mem_implementedInterfaces placed implemented
      obtain rfl : j = i :=
        placed j inModel i (Namespace.mem_of_resolve_eq_ok hi) (by simpa using here)
      exact ⟨c, j, hc, hi, implemented⟩
    · cases implements
  · rintro ⟨c, i, hc, hi, implemented⟩
    rw [hc, hi]
    exact List.any_eq_true.2 ⟨i, implemented, by simp⟩

/-- A class that implements an interface implements those that the interface extends. -/
theorem classImplements_of_isSubinterface (placed : t.Placed)
    (implements : t.classImplements cls sub = true) (edge : t.isSubinterface sub sup = true) :
    t.classImplements cls sup = true := by
  obtain ⟨c, i, hc, hi, implemented⟩ := (classImplements_iff placed).1 implements
  obtain ⟨i', j, hi', hj, reaches⟩ := (isSubinterface_iff placed).1 edge
  obtain rfl := Except.ok.inj (hi.symm.trans hi')
  have inherited := mem_implementedInterfaces_of_reaches placed implemented reaches
  exact (classImplements_iff placed).2 ⟨c, j, hc, hj, inherited⟩

theorem isSubinterface_trans (placed : t.Placed) (first : t.isSubinterface sub mid = true)
    (second : t.isSubinterface mid sup = true) : t.isSubinterface sub sup = true := by
  obtain ⟨i, j, hi, hj, reaches⟩ := (isSubinterface_iff placed).1 first
  obtain ⟨j', k, hj', hk, further⟩ := (isSubinterface_iff placed).1 second
  obtain rfl := Except.ok.inj (hj.symm.trans hj')
  exact (isSubinterface_iff placed).2 ⟨i, k, hi, hk, reaches.trans further⟩

/-! ## Forms of types -/

/-- Futures are told apart by what they are futures of. -/
theorem isAssignable_fut : t.isAssignable (.fut a) (.fut b) = t.isAssignable a b := by
  rw [isAssignable, Bool.or_eq_right_iff_imp]
  intro same
  rw [beq_iff_eq.1 same, isAssignable_refl]

theorem isAssignable_null (known : b.known = true) :
    t.isAssignable .null b = b.isReference := by
  cases b <;> first | rfl | cases known

theorem isAssignable_interface_iff : t.isAssignable (.interface sub) (.interface sup) = true ↔
    sub = sup ∨ t.isSubinterface sub sup = true := by
  rw [isAssignable, Bool.or_eq_true, beq_iff_eq]

/-- What a future can be assigned to is a future. -/
theorem exists_of_isAssignable_fut (known : b.known = true)
    (fits : t.isAssignable (.fut a) b = true) :
    ∃ value, b = .fut value ∧ value.known = true ∧ t.isAssignable a value = true := by
  cases b with
  | fut value => exact ⟨value, rfl, known, isAssignable_fut ▸ fits⟩
  | unknown => cases known
  | _ => cases fits

/-- What an interface can be assigned to is an interface. -/
theorem exists_of_isAssignable_interface (known : b.known = true)
    (fits : t.isAssignable (.interface sub) b = true) :
    ∃ sup, b = .interface sup ∧ (sub = sup ∨ t.isSubinterface sub sup = true) := by
  cases b with
  | interface sup => exact ⟨sup, rfl, isAssignable_interface_iff.1 fits⟩
  | unknown => cases known
  | _ => cases fits

/-- References are only assigned to types of references. -/
theorem isReference_of_isAssignable (known : b.known = true) (fits : t.isAssignable a b = true)
    (reference : a.isReference = true) : b.isReference = true := by
  fun_induction t.isAssignable a b with
  | case1 => cases reference
  | case2 => cases known
  | case3 a b ih =>
    rcases Bool.or_eq_true_iff.1 fits with same | fits
    · exact beq_iff_eq.1 same ▸ reference
    · exact ih known fits reference
  | case4 => exact fits
  | case5 | case6 => rfl
  | case7 => exact beq_iff_eq.1 fits ▸ reference

/-! ## From one type to the next -/

theorem isAssignable_trans (placed : t.Placed) (hb : b.known = true) (hc : c.known = true)
    (first : t.isAssignable a b = true) (second : t.isAssignable b c = true) :
    t.isAssignable a c = true := by
  -- The cases are the rules of the first assignment.  What the second one goes to is known, so the
  -- form of the type in between decides by which rule it does.
  fun_induction t.isAssignable a b generalizing c with
  | case1 => simp only [isAssignable]
  | case2 => cases hb
  | case3 a b ih =>
    obtain ⟨c, rfl, hc, onwards⟩ := exists_of_isAssignable_fut hc second
    rw [isAssignable_fut]
    rcases Bool.or_eq_true_iff.1 first with same | first
    · rwa [beq_iff_eq.1 same]
    · exact ih hb hc first onwards
  | case4 b =>
    rw [isAssignable_null hc]
    exact isReference_of_isAssignable hc second first
  | case5 sub mid =>
    obtain ⟨sup, rfl, onwards⟩ := exists_of_isAssignable_interface hc second
    rw [isAssignable_interface_iff]
    rcases Bool.or_eq_true_iff.1 first with same | first
    · rwa [beq_iff_eq.1 same]
    · rcases onwards with rfl | onwards
      · exact .inr first
      · exact .inr (isSubinterface_trans placed first onwards)
  | case6 cls mid =>
    obtain ⟨sup, rfl, onwards⟩ := exists_of_isAssignable_interface hc second
    rcases onwards with rfl | onwards
    · exact first
    · exact classImplements_of_isSubinterface placed first onwards
  | case7 => rwa [beq_iff_eq.1 first]

/-- A class can be assigned to what the interfaces that it names are or reach. -/
theorem isAssignable_class_iff (placed : t.Placed) :
    t.isAssignable (.class cls) (.interface sup) = true ↔ ∃ c j,
      t.classes.resolve none cls = .ok c ∧ t.interfaces.resolve none sup = .ok j ∧
        ∃ i ∈ t.implemented c, t.Reaches i j := by
  have known := fun c i => mem_interfaces_of_mem_implemented (t := t) (c := c) (i := i)
  rw [isAssignable, classImplements_iff placed]
  refine exists_congr fun c => exists_congr fun j => ?_
  exact and_congr_right fun _ => and_congr_right fun _ => mem_closure_iff placed (known c)

end SymbolTable

namespace Model

open SymbolTable

/-- Whether a type can be assigned to another is decided in the symbol table of each model: the
walks along interface extension come to their end.  Types can be assigned to themselves and, among
types that are known, to whatever they can be assigned to step by step.  An interface can be
assigned to itself and to those that it reaches, a class to those that the interfaces it names are
or reach. -/
theorem isAssignable_preorder (m : Model) :
    let t := SymbolTable.ofModel m
    ((∀ i ∈ t.interfaces, t.Walks [i] [] (t.closure [i])) ∧
      ∀ c, t.Walks (t.implemented c) [] (t.implementedInterfaces c)) ∧
    (∀ ty, t.isAssignable ty ty = true) ∧
    (∀ a b c : Ty, b.known = true → c.known = true →
      t.isAssignable a b = true → t.isAssignable b c = true → t.isAssignable a c = true) ∧
    (∀ sub sup, t.isAssignable (.interface sub) (.interface sup) = true ↔
      sub = sup ∨ ∃ i j, t.interfaces.resolve none sub = .ok i ∧
        t.interfaces.resolve none sup = .ok j ∧ t.Reaches i j) ∧
    ∀ cls sup, t.isAssignable (.class cls) (.interface sup) = true ↔
      ∃ c j, t.classes.resolve none cls = .ok c ∧ t.interfaces.resolve none sup = .ok j ∧
        ∃ i ∈ t.implemented c, t.Reaches i j := by
  intro t
  have placed : t.Placed := placed_ofModel m
  refine ⟨⟨fun i mem => ?_, fun c => ?_⟩, t.isAssignable_refl,
    fun a b c hb hc => isAssignable_trans placed hb hc, fun sub sup => ?_,
    fun cls sup => isAssignable_class_iff placed⟩
  · exact walks_closure placed fun _ here => List.mem_singleton.1 here ▸ mem
  · exact walks_closure placed fun _ mem => mem_interfaces_of_mem_implemented mem
  · rw [isAssignable_interface_iff, isSubinterface_iff placed]

/-- Where interfaces extend each other in a circle, `null` still goes by way of a future of a class
to a future of an interface that the class implements at second hand. -/
theorem isAssignable_preorder_loopedDiamondModel :
    let t := SymbolTable.ofModel loopedDiamondModel
    t.isAssignable .null (.fut (.class "M.C")) = true ∧
      t.isAssignable (.fut (.class "M.C")) (.fut (.interface "M.Base")) = true ∧
      t.isAssignable .null (.fut (.interface "M.Base")) = true := by
  intro t
  have first : t.isAssignable .null (.fut (.class "M.C")) = true := by decide +kernel
  have second : t.isAssignable (.fut (.class "M.C")) (.fut (.interface "M.Base")) = true := by
    decide +kernel
  obtain ⟨-, -, trans, -, -⟩ := isAssignable_preorder loopedDiamondModel
  exact ⟨first, second, trans _ _ _ rfl rfl first second⟩

end Model

end DeltaLang
