import DeltaLang.Location.Lattice
import Mathlib.Data.List.Chain
import Mathlib.Order.Bounds.Basic

/-!
# The order of location types

Location types are ordered by what they admit, and joining two of them is their least upper bound.
There are infinitely many types, since far objects are told apart by their sites, but a type can
rise three times at most, so that no chain has more than four of them.  Adapting keeps the order, in
the receiver and in the declared type, and so does widening, which can only raise a type.
-/

namespace DeltaLang

namespace LocationType

/-! ## A semilattice -/

instance : LE LocationType := ⟨fun a b => a.isSubtypeOf b = true⟩

instance (a b : LocationType) : Decidable (a ≤ b) :=
  inferInstanceAs (Decidable (a.isSubtypeOf b = true))

variable {a b c : LocationType}

theorem le_def : a ≤ b ↔ a.isSubtypeOf b = true := Iff.rfl

theorem le_iff : a ≤ b ↔ a = b ∨ a = bottom ∨ b = somewhere ∨ a.isFar = true ∧ b = far := by
  simp only [le_def, isSubtypeOf, Bool.or_eq_true, Bool.and_eq_true, beq_iff_eq, or_assoc]

protected theorem le_trans (h : a ≤ b) (h' : b ≤ c) : a ≤ c := by
  rw [le_iff] at h h' ⊢
  rcases h with rfl | rfl | rfl | ⟨isFar, rfl⟩
  · exact h'
  · exact .inr (.inl rfl)
  · rcases h' with rfl | h' | rfl | ⟨isFar, -⟩
    · exact .inr (.inr (.inl rfl))
    · cases h'
    · exact .inr (.inr (.inl rfl))
    · cases isFar
  · rcases h' with rfl | h' | rfl | ⟨-, rfl⟩
    · exact .inr (.inr (.inr ⟨isFar, rfl⟩))
    · cases h'
    · exact .inr (.inr (.inl rfl))
    · exact .inr (.inr (.inr ⟨isFar, rfl⟩))

/-- How often a type has risen from the bottom, at least. -/
def height : LocationType → Nat
  | bottom => 0
  | near | farOf _ => 1
  | far => 2
  | somewhere => 3

theorem height_le (t : LocationType) : t.height ≤ 3 := by
  cases t <;> simp [height]

/-- A type that rises gains height. -/
theorem height_lt_of_ne (h : a ≤ b) (ne : a ≠ b) : a.height < b.height := by
  rw [le_iff] at h
  rcases h with same | rfl | rfl | ⟨isFar, rfl⟩
  · exact absurd same ne
  · cases b <;> simp_all [height]
  · cases a <;> simp_all [height]
  · cases a <;> simp_all [height, LocationType.isFar]

instance : PartialOrder LocationType where
  le_refl a := le_iff.2 (.inl rfl)
  le_trans _ _ _ := LocationType.le_trans
  le_antisymm a b h h' := by
    by_contra ne
    have up := height_lt_of_ne h ne
    have down := height_lt_of_ne h' (Ne.symm ne)
    omega

instance : DecidableLT LocationType := decidableLTOfDecidableLE

theorem height_lt (h : a < b) : a.height < b.height := height_lt_of_ne h.le h.ne

theorem height_mono (h : a ≤ b) : a.height ≤ b.height := by
  by_cases same : a = b
  · rw [same]
  · exact (height_lt_of_ne h same).le

protected theorem bottom_le (t : LocationType) : bottom ≤ t := le_iff.2 (.inr (.inl rfl))

protected theorem le_somewhere (t : LocationType) : t ≤ somewhere :=
  le_iff.2 (.inr (.inr (.inl rfl)))

theorem le_far (isFar : a.isFar = true) : a ≤ far := le_iff.2 (.inr (.inr (.inr ⟨isFar, rfl⟩)))

/-- Two types that are not ordered are both far, or only `somewhere` is above both of them. -/
theorem eq_somewhere_of_le (ha : a ≤ c) (hb : b ≤ c) (h : ¬ a ≤ b) (h' : ¬ b ≤ a)
    (notFar : ¬ (a.isFar = true ∧ b.isFar = true)) : c = somewhere := by
  rcases le_iff.1 ha with rfl | rfl | rfl | ⟨farA, rfl⟩
  · exact absurd hb h'
  · exact absurd (LocationType.bottom_le b) h
  · rfl
  · rcases le_iff.1 hb with rfl | rfl | top | ⟨farB, -⟩
    · exact absurd ha h
    · exact absurd (LocationType.bottom_le a) h'
    · exact top
    · exact absurd ⟨farA, farB⟩ notFar

theorem far_le_of_le (ha : a ≤ c) (hb : b ≤ c) (h : ¬ a ≤ b) (h' : ¬ b ≤ a) : far ≤ c := by
  rcases le_iff.1 ha with rfl | rfl | rfl | ⟨-, rfl⟩
  · exact absurd hb h'
  · exact absurd (LocationType.bottom_le b) h
  · exact LocationType.le_somewhere far
  · exact le_refl far

instance : SemilatticeSup LocationType where
  sup := join
  le_sup_left a b := by
    unfold join
    split
    · assumption
    · split
      · exact le_refl a
      · split
        · rename_i isFar
          exact le_far (Bool.and_eq_true_iff.1 isFar).1
        · exact LocationType.le_somewhere a
  le_sup_right a b := by
    unfold join
    split
    · exact le_refl b
    · split
      · assumption
      · split
        · rename_i isFar
          exact le_far (Bool.and_eq_true_iff.1 isFar).2
        · exact LocationType.le_somewhere b
  sup_le a b c ha hb := by
    show join a b ≤ c
    unfold join
    split
    · exact hb
    · rename_i notBelow
      split
      · exact ha
      · rename_i notAbove
        split
        · exact far_le_of_le ha hb notBelow notAbove
        · rename_i notFar
          rw [Bool.and_eq_true] at notFar
          rw [eq_somewhere_of_le ha hb notBelow notAbove notFar]

/-! ## Adapting and widening -/

theorem adapt_mono (h : a ≤ b) (declared : LocationType) :
    a.adapt declared ≤ b.adapt declared := by
  rcases le_iff.1 h with rfl | rfl | rfl | ⟨isFar, rfl⟩
  · exact le_refl _
  · cases declared <;> exact LocationType.bottom_le _
  · cases declared with
    | bottom => cases a <;> exact le_refl _
    | _ => exact LocationType.le_somewhere _
  · cases a with
    | far => exact le_refl _
    | farOf site =>
      cases declared with
      | near => exact h
      | _ => exact le_refl _
    | _ => cases isFar

/-- Receiver and declared type play the same part: the bottom type takes over, `near` gives way, and
any other two come to `somewhere`. -/
theorem adapt_comm (a b : LocationType) : a.adapt b = b.adapt a := by
  cases a <;> cases b <;> rfl

theorem adapt_mono_declared (receiver : LocationType) (h : a ≤ b) :
    receiver.adapt a ≤ receiver.adapt b := by
  rw [adapt_comm receiver a, adapt_comm receiver b]
  exact adapt_mono h receiver

theorem widen_eq_self_or_far (t : LocationType) (rank : Nat) (p : Precision) :
    t.widen rank p = t ∨ t.isFar = true ∧ t.widen rank p = far := by
  cases t with
  | farOf site =>
    by_cases wide : p.scope < rank
    · exact .inr ⟨rfl, if_pos wide⟩
    · exact .inl (if_neg wide)
  | _ => exact .inl rfl

theorem widen_mono (h : a ≤ b) (rank : Nat) (p : Precision) : a.widen rank p ≤ b.widen rank p := by
  rcases le_iff.1 h with rfl | rfl | rfl | ⟨isFar, rfl⟩
  · exact le_refl _
  · exact LocationType.bottom_le _
  · exact LocationType.le_somewhere _
  · rcases widen_eq_self_or_far a rank p with same | ⟨-, widened⟩
    · rw [same]
      exact h
    · rw [widened]
      exact le_refl _

theorem le_widen (t : LocationType) (rank : Nat) (p : Precision) : t ≤ t.widen rank p := by
  rcases widen_eq_self_or_far t rank p with same | ⟨isFar, widened⟩
  · rw [same]
  · rw [widened]
    exact le_far isFar

/-! ## Chains -/

/-- A chain climbs at every step, so what is left of it fits above the height it starts from. -/
theorem height_add_length_le {chain : List LocationType} (h : (a :: chain).IsChain (· < ·)) :
    a.height + chain.length ≤ 3 := by
  induction chain generalizing a with
  | nil => exact height_le a
  | cons b chain ih =>
    obtain ⟨first, rest⟩ := List.isChain_cons_cons.1 h
    have climbed : a.height < b.height := height_lt first
    have left : b.height + chain.length ≤ 3 := ih rest
    rw [List.length_cons]
    omega

theorem length_le_of_isChain {chain : List LocationType} (h : chain.IsChain (· < ·)) :
    chain.length ≤ 4 := by
  cases chain with
  | nil => exact Nat.zero_le 4
  | cons a chain =>
    have left := height_add_length_le h
    rw [List.length_cons]
    omega

/-- Location types are partially ordered, between the bottom type and `somewhere`; joining two of
them is their least upper bound, adapting is monotone in the receiver and in the declared type,
widening is monotone and never lowers a type, and no chain has more than four types. -/
theorem isSubtypeOf_semilattice :
    ((∀ a : LocationType, a.isSubtypeOf a) ∧
      (∀ a b c : LocationType, a.isSubtypeOf b → b.isSubtypeOf c → a.isSubtypeOf c) ∧
      ∀ a b : LocationType, a.isSubtypeOf b → b.isSubtypeOf a → a = b) ∧
    (IsBot bottom ∧ IsTop somewhere) ∧
    (∀ a b : LocationType, IsLUB {a, b} (a.join b)) ∧
    (∀ declared, Monotone fun receiver => adapt receiver declared) ∧
    (∀ receiver, Monotone (adapt receiver)) ∧
    (∀ rank p, Monotone (widen rank p) ∧ ∀ t : LocationType, t ≤ t.widen rank p) ∧
    ∀ chain : List LocationType, chain.IsChain (· < ·) → chain.length ≤ 4 := by
  refine ⟨⟨le_refl, fun _ _ _ => LocationType.le_trans, fun _ _ h h' => le_antisymm h h'⟩,
    ⟨LocationType.bottom_le, LocationType.le_somewhere⟩, fun _ _ => isLUB_pair, ?_, ?_, ?_, ?_⟩
  · exact fun declared _ _ h => adapt_mono h declared
  · exact fun receiver _ _ h => adapt_mono_declared receiver h
  · exact fun rank p => ⟨fun _ _ h => widen_mono h rank p, fun t => t.le_widen rank p⟩
  · exact fun _ => length_le_of_isChain

/-- A chain by way of one site meets the bound. -/
theorem isSubtypeOf_semilattice_site :
    [bottom, farOf 7, far, somewhere].IsChain (· < ·) ∧
      [bottom, farOf 7, far, somewhere].length ≤ 4 ∧
      (farOf 7).adapt near ≤ far.adapt near ∧ near.adapt (farOf 7) ≤ near.adapt far ∧
      (farOf 7).widen 3 .classLocal ≤ far.widen 3 .classLocal := by
  have chain : [bottom, farOf 7, far, somewhere].IsChain (· < ·) := by decide
  have below : farOf 7 ≤ far := by decide
  obtain ⟨-, -, -, receiver, declared, widening, bound⟩ := isSubtypeOf_semilattice
  exact ⟨chain, bound _ chain, receiver near below, declared near below,
    (widening 3 .classLocal).1 below⟩

end LocationType

end DeltaLang
