import Racez.Lockset.Basic

/-!
# The lockset against the mutexes held

The array of ten slots is an account of the mutexes the thread holds, kept by calls of
`add_one_mutex` and `remove_one_mutex`. Beyond the tenth mutex it is incomplete: what does not fit
is dropped, and when a mutex is held several times the release may take out another copy than the
one that was refused. `lockset_refines` says what the array is worth nevertheless.

`Consistent.n_range` is the part that does not mention the mutexes held.
-/

open Container

namespace Racez

namespace Lockset

variable {s : Lockset} {l : List Address}

/-- The counter of a consistent lockset is in range, and the flag says that it is at its maximum. -/
theorem Consistent.n_range (h : s.Consistent l) :
    0 ≤ s.n ∧ s.n ≤ 10 ∧ (s.overflow = true ↔ s.n = 10) := by
  have hlen := h.length_le
  have hn := h.n_eq
  refine ⟨by omega, by omega, ?_⟩
  rw [h.overflow_iff]
  omega

/-- **The lockset refines the mutexes held.** After any sequence of calls no store has left the
array, the counter and the flag are in order, and the counted slots are mutexes held; they are all
of them if they were at some point and no more than ten have been held since; and none if none is
held. -/
theorem lockset_refines (slots : Vector Address 10) (w : List (Call Address)) :
    ∃ s, (fresh slots).applyAll w = some s
      ∧ (0 ≤ s.n ∧ s.n ≤ 10 ∧ (s.overflow = true ↔ s.n = 10))
      ∧ (s.locks : Multiset Address) ≤ holdAll 0 w
      ∧ (∀ before since s₀, w = before ++ since → (fresh slots).applyAll before = some s₀ →
        (s₀.locks : Multiset Address) = holdAll 0 before →
        (∀ w', w' <+: since → (holdAll 0 (before ++ w')).card ≤ 10) →
        (s.locks : Multiset Address) = holdAll 0 w)
      ∧ (holdAll 0 w = 0 → s.locks = []) := by
  obtain ⟨s, hs, hcons⟩ := (consistent_fresh slots).applyAll w
  have hle : (s.locks : Multiset Address) ≤ holdAll 0 w := by
    rw [hcons.locks_eq]
    exact execAll_le_holdAll le_rfl w
  refine ⟨s, hs, hcons.n_range, hle, ?_, ?_⟩
  · rintro before since s₀ rfl hs₀ heq hcard
    obtain ⟨s₀', hs₀', hcons₀⟩ := (consistent_fresh slots).applyAll before
    obtain rfl := Option.some.inj (hs₀.symm.trans hs₀')
    rw [hcons₀.locks_eq] at heq
    -- from the point of agreement on
    have hsince := @execAll_eq_holdAll _ _ 10 _ _ heq since fun w' hw' ↦ by
      simpa only [holdAll, List.foldl_append] using hcard w' hw'
    rw [hcons.locks_eq]
    simpa only [holdAll, execAll, List.foldl_append] using hsince
  · intro hnone
    rw [hnone] at hle
    exact (Multiset.coe_eq_zero _).mp (Multiset.le_zero.mp hle)

end Lockset

end Racez
