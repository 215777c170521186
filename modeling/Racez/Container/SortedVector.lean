import Mathlib.Data.List.Pairwise
import Mathlib.Order.Lattice

/-!
# Sorted vectors

`std::sort` and `std::lower_bound` over an order given by a comparison. The sort is not stable, so
it is any function whose results are sorted rearrangements. The lower bound separates the elements
that are less from the others, so a step back from it leads to a greatest one among those
(`not_lt_of_getElem?_pred_lowerBound`).

Nothing is assumed of the sort beyond what the standard says, so that a result holds for each of its
implementations.
-/

namespace SortedVector

variable {α : Type*} {lt : α → α → Prop} {l : List α} {a b x : α}

/-- `std::sort`. -/
structure Sorting (lt : α → α → Prop) where
  /-- The sorted list. -/
  sort : List α → List α
  /-- It has the same members. -/
  perm : ∀ l, (sort l).Perm l
  /-- No member is less than one in front of it. -/
  pairwise : ∀ l, (sort l).Pairwise fun a b ↦ ¬lt b a

theorem pairwise_mergeSort_key {β : Type*} [LinearOrder β] (key : α → β) (l : List α) :
    (l.mergeSort fun a b ↦ key a ≤ key b).Pairwise fun a b ↦ key a ≤ key b := by
  refine (List.pairwise_mergeSort ?_ ?_ l).imp fun h ↦ of_decide_eq_true h
  · intro a b c hab hbc
    simp only [decide_eq_true_eq] at hab hbc ⊢
    exact le_trans hab hbc
  · intro a b
    simpa using le_total (key a) (key b)

variable [DecidableRel lt]

/-- `std::lower_bound`: the position of the first element that is not less, the end if there is
none. -/
def lowerBound (lt : α → α → Prop) [DecidableRel lt] (l : List α) (x : α) : ℕ :=
  l.findIdx fun a ↦ ¬lt a x

theorem lowerBound_le_length : lowerBound lt l x ≤ l.length := List.findIdx_le_length

theorem not_lt_of_getElem?_lowerBound (h : l[lowerBound lt l x]? = some a) : ¬lt a x := by
  rw [lowerBound] at h
  obtain ⟨hlt, rfl⟩ := List.getElem?_eq_some_iff.mp h
  simpa using List.findIdx_getElem (w := hlt)

theorem lt_of_lt_lowerBound {i : ℕ} (hi : i < lowerBound lt l x) (ha : l[i]? = some a) :
    lt a x := by
  obtain ⟨hlt, rfl⟩ := List.getElem?_eq_some_iff.mp ha
  simpa using List.not_of_lt_findIdx hi

section Sorted

variable (hl : l.Pairwise fun a b ↦ ¬lt b a) (hneg : ∀ a b c, lt a c → lt a b ∨ lt b c)
include hl hneg

theorem lt_lowerBound_of_lt {j : ℕ} (hj : l[j]? = some b) (hbx : lt b x) :
    j < lowerBound lt l x := by
  by_contra hnot
  have hle : lowerBound lt l x ≤ j := Nat.le_of_not_lt hnot
  obtain ⟨hlt, rfl⟩ := List.getElem?_eq_some_iff.mp hj
  have hk : lowerBound lt l x < l.length := Nat.lt_of_le_of_lt hle hlt
  have hstop : ¬lt l[lowerBound lt l x] x :=
    not_lt_of_getElem?_lowerBound (List.getElem?_eq_getElem hk)
  rcases hneg _ l[lowerBound lt l x] _ hbx with h | h
  · rcases Nat.eq_or_lt_of_le hle with heq | hlt'
    · simp only [← heq] at hbx
      exact hstop hbx
    · exact List.pairwise_iff_getElem.mp hl _ _ hk hlt hlt' h
  · exact hstop h

/-- The element before the lower bound is a greatest one among those that are less. -/
theorem not_lt_of_getElem?_pred_lowerBound (hirrefl : ∀ a, ¬lt a a)
    (ha : l[lowerBound lt l x - 1]? = some a) (hb : b ∈ l) (hbx : lt b x) : ¬lt a b := by
  obtain ⟨j, hj⟩ := List.getElem?_of_mem hb
  have hjk : j < lowerBound lt l x := lt_lowerBound_of_lt hl hneg hj hbx
  obtain ⟨hlt, rfl⟩ := List.getElem?_eq_some_iff.mp hj
  obtain ⟨hk, rfl⟩ := List.getElem?_eq_some_iff.mp ha
  rcases Nat.eq_or_lt_of_le (Nat.le_sub_one_of_lt hjk) with heq | hlt'
  · simp only [heq]
    exact hirrefl _
  · exact List.pairwise_iff_getElem.mp hl _ _ hlt hk hlt'

end Sorted

end SortedVector
