import DeltaLang.Proofs.Run.Faults
import DeltaLang.Proofs.Run.Rules

/-!
# References to objects

An object is referred to by its place in the heap, and the heap only grows.  So a value that refers
to objects that are there keeps doing so.  In a closed store the values of all fields are such
values, and so are those of the variables of a frame that is within the heap.
-/

namespace DeltaLang

/-! ## Values -/

/-- The value refers to no object but those of a heap of that size. -/
def Value.Within (size : Nat) : Value → Prop
  | object id => id < size
  | future v => v.Within size
  | _ => True

instance Value.decidableWithin (size : Nat) : (v : Value) → Decidable (v.Within size)
  | object id => inferInstanceAs (Decidable (id < size))
  | future v => Value.decidableWithin size v
  | bool _ | int _ | str _ | unit | null => inferInstanceAs (Decidable True)

theorem Value.Within.mono {size size' : Nat} {v : Value} (h : v.Within size)
    (grown : size ≤ size') : v.Within size' := by
  induction v with
  | object id => exact Nat.lt_of_lt_of_le h grown
  | future v ih => exact ih h
  | _ => trivial

section

variable {size : Nat} {a b v : Value}

theorem Value.within_awaited (result : a.awaited = .ok v) (h : a.Within size) :
    v.Within size := by
  cases a <;> cases result
  exact h

theorem UnaryOp.within_apply {op : UnaryOp} (result : op.apply a = .ok v) : v.Within size := by
  cases op with
  | not =>
    obtain ⟨x, -, rfl⟩ := exists_of_map_eq_ok result
    trivial
  | neg =>
    obtain ⟨n, -, result⟩ := exists_of_bind_eq_ok result
    obtain ⟨x, -, rfl⟩ := exists_of_map_eq_ok result
    trivial

namespace BinaryOp

variable {op : BinaryOp}

theorem within_first (result : op.first a = .ok (some v)) : v.Within size := by
  cases op with
  | and | or =>
    obtain ⟨x, -, eq⟩ := exists_of_map_eq_ok result
    cases x <;> cases eq
    trivial
  | eq | ne | add => cases result
  | _ =>
    obtain ⟨x, -, eq⟩ := exists_of_map_eq_ok result
    cases eq

theorem within_onInts {x y : Int} (result : op.onInts x y = .ok v) : v.Within size := by
  cases op with
  | lt | le | gt | ge =>
    cases result
    trivial
  | _ =>
    obtain ⟨n, -, rfl⟩ := exists_of_map_eq_ok result
    trivial

theorem within_both (result : op.both a b = .ok v) : v.Within size := by
  cases op with
  | and | or =>
    obtain ⟨x, -, rfl⟩ := exists_of_map_eq_ok result
    trivial
  | eq | ne =>
    cases result
    trivial
  | add =>
    simp only [both] at result
    split at result
    · exact within_onInts result
    · cases result
      trivial
    · cases result
    · cases result
  | _ =>
    obtain ⟨x, -, result⟩ := exists_of_bind_eq_ok result
    obtain ⟨y, -, result⟩ := exists_of_bind_eq_ok result
    exact within_onInts result

end BinaryOp

end

/-! ## Names with values -/

/-- The values of the names refer to no object but those of a heap of that size. -/
def Scope.Within (size : Nat) (vs : Scope) : Prop := ∀ nv ∈ vs, nv.2.Within size

namespace Scope.Within

variable {size size' : Nat} {vs vs' : Scope} {name : String} {v : Value}

theorem mono (h : vs.Within size) (grown : size ≤ size') : vs.Within size' := fun nv mem =>
  (h nv mem).mono grown

theorem nil : Scope.Within size [] := fun _ mem => absurd mem List.not_mem_nil

theorem cons (h : vs.Within size) (value : v.Within size) :
    Scope.Within size ((name, v) :: vs) := List.forall_mem_cons.2 ⟨value, h⟩

theorem append (h : vs.Within size) (h' : vs'.Within size) : Scope.Within size (vs ++ vs') :=
  List.forall_mem_append.2 ⟨h, h'⟩

theorem lookup (h : vs.Within size) (found : vs.lookup name = some v) : v.Within size := by
  obtain ⟨before, after, rfl, -⟩ := List.lookup_eq_some_iff.1 found
  exact h (name, v) (List.mem_append_right _ List.mem_cons_self)

theorem assignName (h : vs.Within size) (value : v.Within size) (name : String) :
    Scope.Within size (DeltaLang.assignName name v vs) := by
  intro nv mem
  obtain ⟨⟨n, old⟩, mem', rfl⟩ := List.mem_map.1 mem
  dsimp only
  split
  · exact value
  · exact h (n, old) mem'

theorem arguments {names : List String} {args : List Value} (h : ∀ v ∈ args, v.Within size) :
    Scope.Within size (names.zip args).reverse := fun nv mem =>
  h nv.2 (List.of_mem_zip (List.mem_reverse.1 mem)).2

theorem assignIn {scopes scopes' : List Scope} (h : ∀ vs ∈ scopes, vs.Within size)
    (value : v.Within size) (assigned : Frame.assignIn name v scopes = some scopes') :
    ∀ vs ∈ scopes', vs.Within size := by
  induction scopes generalizing scopes' with
  | nil => cases assigned
  | cons vs outer ih =>
    rw [List.forall_mem_cons] at h
    rw [Frame.assignIn] at assigned
    split at assigned
    · obtain rfl := Option.some.inj assigned
      exact List.forall_mem_cons.2 ⟨h.1.assignName value name, h.2⟩
    · obtain ⟨outer', inner, rfl⟩ := Option.map_eq_some_iff.1 assigned
      exact List.forall_mem_cons.2 ⟨h.1, ih h.2 inner⟩

end Scope.Within

/-! ## Frames -/

/-- The frame refers to no object but those of a heap of that size. -/
structure Frame.Within (size : Nat) (fr : Frame) : Prop where
  this : fr.this < size
  scopes : ∀ vs ∈ fr.scopes, vs.Within size

namespace Frame.Within

variable {size size' : Nat} {fr : Frame} {name : String} {v : Value}

theorem mono (h : fr.Within size) (grown : size ≤ size') : fr.Within size' :=
  ⟨Nat.lt_of_lt_of_le h.this grown, fun vs mem => (h.scopes vs mem).mono grown⟩

theorem lookup (h : fr.Within size) (found : fr.lookup name = some v) : v.Within size := by
  have all : Scope.Within size fr.scopes.flatten := fun nv mem => by
    obtain ⟨vs, mem, mem'⟩ := List.mem_flatten.1 mem
    exact h.scopes vs mem nv mem'
  exact all.lookup found

theorem enter (h : fr.Within size) : fr.enter.Within size :=
  ⟨h.this, List.forall_mem_cons.2 ⟨.nil, h.scopes⟩⟩

theorem leave (h : fr.Within size) : fr.leave.Within size :=
  ⟨h.this, fun vs mem => h.scopes vs (List.mem_of_mem_tail mem)⟩

theorem bind (h : fr.Within size) (value : v.Within size) (name : String) :
    (fr.bind name v).Within size := by
  refine ⟨h.this, ?_⟩
  have scopes := h.scopes
  rw [Frame.bind]
  generalize fr.scopes = outer at scopes
  cases outer with
  | nil => exact scopes
  | cons first rest =>
    rw [List.forall_mem_cons] at scopes
    exact List.forall_mem_cons.2 ⟨scopes.1.cons value, scopes.2⟩

theorem assign? (h : fr.Within size) (value : v.Within size) {fr' : Frame}
    (assigned : fr.assign? name v = some fr') : fr'.Within size := by
  obtain ⟨scopes, inner, rfl⟩ := Option.map_eq_some_iff.1 assigned
  exact ⟨h.this, Scope.Within.assignIn h.scopes value inner⟩

end Frame.Within

/-! ## Stores -/

/-- Objects refer to no object but those of the heap. -/
def Store.Closed (s : Store) : Prop := ∀ o ∈ s.heap, Scope.Within s.heap.size o.fields

namespace Store.Closed

variable {s : Store}

theorem push (h : s.Closed) {o : Object} (fields : Scope.Within s.heap.size o.fields) :
    ({ s with heap := s.heap.push o } : Store).Closed := by
  intro o' mem
  rw [Array.size_push]
  rcases Array.mem_push.1 mem with mem | rfl
  · exact (h o' mem).mono (Nat.le_succ _)
  · exact fields.mono (Nat.le_succ _)

theorem modify (h : s.Closed) {id : Nat} {g : Object → Object}
    (fields : ∀ o ∈ s.heap, Scope.Within s.heap.size (g o).fields) :
    ({ s with heap := s.heap.modify id g } : Store).Closed := by
  intro o' mem
  rw [Array.size_modify]
  obtain ⟨i, here⟩ := Array.mem_iff_getElem?.1 mem
  rw [Array.getElem?_modify] at here
  split at here
  · obtain ⟨o, found, rfl⟩ := Option.map_eq_some_iff.1 here
    exact fields o (Array.mem_of_getElem? found)
  · exact h o' (Array.mem_of_getElem? here)

end Store.Closed

/-- What an activation is given refers to no object but those of a heap of that size. -/
def Activation.Within (size : Nat) : Activation → Prop
  | .method this _ _ args => this < size ∧ ∀ v ∈ args, v.Within size
  | .creation _ args => ∀ v ∈ args, v.Within size

end DeltaLang
