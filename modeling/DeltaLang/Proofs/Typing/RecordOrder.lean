import DeltaLang.Typing.Extension
import Mathlib.Data.List.Lex
import Mathlib.Data.Prod.Lex
import Mathlib.Data.String.Basic

/-!
# The order of annotations

Annotations are listed by extension, then by node.  The order is that of a key, so it is total and
transitive, and listing the annotations of some extensions only is the same as listing all and
leaving the others out.
-/

namespace DeltaLang

/-! ## Sorting and selecting -/

section

variable {α : Type} {le : α → α → Bool}

theorem takeWhile_append_of_split {a : α} {l r : List α} (hl : ∀ b ∈ l, le a b = false)
    (hr : ∀ b ∈ r, le a b = true) : (l ++ r).takeWhile (fun b => !le a b) = l := by
  rw [List.takeWhile_append_of_pos (by simpa using hl)]
  cases r with
  | nil => simp
  | cons b r => simp [hr b]

theorem le_of_mergeSort_eq (trans : ∀ a b c, le a b → le b c → le a c)
    (total : ∀ a b, le a b || le b a) {l front back : List α} {a : α}
    (h : l.mergeSort le = front ++ a :: back) : ∀ b ∈ back, le a b = true := by
  have sorted : (front ++ a :: back).Pairwise (fun x y => le x y) :=
    h ▸ List.pairwise_mergeSort trans total l
  exact (List.pairwise_cons.1 (List.pairwise_append.1 sorted).2.1).1

/-- Sorting commutes with selecting, since it is stable. -/
theorem filter_mergeSort (trans : ∀ a b c, le a b → le b c → le a c)
    (total : ∀ a b, le a b || le b a) (p : α → Bool) (l : List α) :
    (l.mergeSort le).filter p = (l.filter p).mergeSort le := by
  induction l with
  | nil => simp
  | cons a l ih =>
    obtain ⟨front, back, hal, hl, hfront⟩ := List.mergeSort_cons trans total a l
    have hback := le_of_mergeSort_eq trans total hal
    rw [hl, List.filter_append] at ih
    rw [hal, List.filter_append]
    by_cases ha : p a
    · obtain ⟨front', back', hal', hl', hfront'⟩ :=
        List.mergeSort_cons trans total a (l.filter p)
      have hback' := le_of_mergeSort_eq trans total hal'
      have same : front.filter p ++ back.filter p = front' ++ back' := ih.trans hl'
      -- Both lists are cut in front of the first element that `a` may precede.
      have cut : front.filter p = front' := by
        have above : ∀ b ∈ front.filter p, le a b = false := by
          simpa using fun b hb _ => hfront b hb
        rw [← takeWhile_append_of_split above fun b hb => hback b (List.mem_filter.1 hb).1, same]
        exact takeWhile_append_of_split (by simpa using hfront') hback'
      rw [cut, List.append_cancel_left_eq] at same
      rw [List.filter_cons_of_pos ha, List.filter_cons_of_pos ha, hal', cut, same]
    · rw [List.filter_cons_of_neg ha, List.filter_cons_of_neg ha, ih]

end

/-! ## Keys -/

/-- The key of a node as an element of a linear order. -/
def NodeRef.sortKey (n : NodeRef) : Nat ×ₗ List String ×ₗ Nat := toLex (n.key.1, toLex n.key.2)

theorem NodeRef.lt_iff (a b : NodeRef) : a.lt b = true ↔ a.sortKey < b.sortKey := by
  simp only [NodeRef.lt, NodeRef.sortKey, Prod.Lex.toLex_lt_toLex, Bool.or_eq_true,
    Bool.and_eq_true, decide_eq_true_eq, beq_iff_eq]

/-- The key that annotations are ordered by. -/
def AnnotationRecord.sortKey (r : AnnotationRecord) : String ×ₗ Nat ×ₗ List String ×ₗ Nat :=
  toLex (r.extension, r.node.sortKey)

namespace Annotations

theorem recordLt_iff (r s : AnnotationRecord) : recordLt r s = true ↔ r.sortKey < s.sortKey := by
  simp only [recordLt, AnnotationRecord.sortKey, Prod.Lex.toLex_lt_toLex, Bool.or_eq_true,
    Bool.and_eq_true, decide_eq_true_eq, beq_iff_eq, NodeRef.lt_iff]

theorem not_recordLt_iff (r s : AnnotationRecord) :
    (!recordLt s r) = true ↔ r.sortKey ≤ s.sortKey := by
  rw [Bool.not_eq_true', ← Bool.not_eq_true, recordLt_iff, not_lt]

/-- The annotations of an extension are those that it made, sorted. -/
theorem ofExtension_eq (a : Annotations) (name : String) :
    a.ofExtension name =
      (a.records.filter (·.extension == name)).mergeSort fun r s => !recordLt s r := by
  refine filter_mergeSort ?_ ?_ _ _
  · intro r s t hrs hst
    rw [not_recordLt_iff] at hrs hst ⊢
    exact hrs.trans hst
  · intro r s
    rw [Bool.or_eq_true, not_recordLt_iff, not_recordLt_iff]
    exact le_total _ _

end Annotations

end DeltaLang
