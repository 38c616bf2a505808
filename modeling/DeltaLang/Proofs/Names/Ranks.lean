import Mathlib.Data.Finset.Dedup
import Mathlib.Data.Finset.Filter
import Mathlib.Data.Finset.Card
import Mathlib.Logic.Relation

/-!
# Relations without cycles

A relation on the elements of a list has no cycle if and only if its elements can be ranked so that
the rank falls along it.  Then fewer ranks are enough than there are elements.
-/

namespace DeltaLang

section

variable {α : Type} {r : α → α → Prop} {l : List α}

/-- Where the rank falls along the relation, nothing leads back to itself. -/
theorem not_transGen_of_rank {rank : α → Nat} (stays : ∀ a ∈ l, ∀ b, r a b → b ∈ l)
    (descends : ∀ a ∈ l, ∀ b, r a b → rank b < rank a) {a : α} (mem : a ∈ l) :
    ¬ Relation.TransGen r a a := by
  intro cycle
  suffices h : ∀ {b}, Relation.TransGen r a b → b ∈ l ∧ rank b < rank a from
    absurd (h cycle).2 (Nat.lt_irrefl _)
  intro b leads
  induction leads with
  | single step => exact ⟨stays a mem _ step, descends a mem _ step⟩
  | tail _ step ih =>
    exact ⟨stays _ ih.1 _ step, Nat.lt_trans (descends _ ih.1 _ step) ih.2⟩

/-- Without a cycle, the number of elements that are led to is a rank. -/
theorem exists_rank_of_acyclic (acyclic : ∀ a ∈ l, ¬ Relation.TransGen r a a) :
    ∃ rank : α → Nat, (∀ a ∈ l, rank a < l.length) ∧
      ∀ a, ∀ b ∈ l, r a b → rank b < rank a := by
  classical
  let led (a : α) : Finset α := l.toFinset.filter (Relation.TransGen r a)
  refine ⟨fun a => (led a).card, fun a mem => ?_, fun a b mem step => ?_⟩
  · have fewer : led a ⊂ l.toFinset := Finset.filter_ssubset.2
      ⟨a, List.mem_toFinset.2 mem, acyclic a mem⟩
    exact Nat.lt_of_lt_of_le (Finset.card_lt_card fewer) (List.toFinset_card_le l)
  · refine Finset.card_lt_card <|
      Finset.ssubset_iff_subset_ne.2 ⟨fun c further => ?_, fun same => ?_⟩
    · obtain ⟨mem', leads⟩ := Finset.mem_filter.1 further
      exact Finset.mem_filter.2 ⟨mem', .head step leads⟩
    · have here : b ∈ led a := Finset.mem_filter.2 ⟨List.mem_toFinset.2 mem, .single step⟩
      rw [← same] at here
      exact acyclic b mem (Finset.mem_filter.1 here).2

end

end DeltaLang
