import Mathlib.Data.List.Basic
import Mathlib.Data.List.TakeWhile
import Mathlib.Order.WithBot

/-!
# Points that take the next slot

Points and slots on a line. The points come in increasing order, several of them possibly at one
place, and each takes the first slot left that is not below it; slots that were passed are gone. A
point may lie at a slot of its own, and then all points at that place take this slot together.

Here is when this goes well, that is, when no point runs out of slots, none at a slot of its own
finds it taken, and the last point has no slot of its own. `served_iff` is a counting condition in
the manner of a marriage theorem: in every interval that ends at a slot with points of its own, or
does not end, there are at least as many slots without such points as there are points without a
slot.

## Why counting suffices

A point that takes a slot leaves the slots behind it, so the rest of the problem is of the same
kind, with fewer slots. If the first point takes a slot of another place, that slot must not be one
that other points need (`mem_rest_of_balanced`); if it lies at a slot of its own, the whole group
there takes it, and the points behind the group go on (`countIn_slots_of_take`). Both steps keep the
counts of the intervals in balance, in either direction, and `served_iff` is the induction over the
points.

The order of the points at one place does not matter, and the last point is the one at the greatest
place, so the condition can be stated for the points in any order (`balanced_perm`).
-/

namespace Greedy

variable {α : Type*} [LinearOrder α]

/-- Each point takes the first slot not below it. The points for which `own` holds belong to a slot
at their place; they take it as a group, and there has to be a point after them. -/
inductive Served (own : α → Prop) : List α → List α → Prop
  | nil (slots : List α) : Served own slots []
  | skip {slots rest points : List α} {s a : α} (hs : ¬own s)
      (hslot : slots.dropWhile (· < s) = a :: rest) (h : Served own rest points) :
      Served own slots (s :: points)
  | take {slots rest points : List α} {s : α} (hs : own s)
      (hslot : slots.dropWhile (· < s) = s :: rest) (hmore : points.dropWhile (· = s) ≠ [])
      (h : Served own rest (points.dropWhile (· = s))) : Served own slots (s :: points)

/-- The number of members from `x` on and before `y`. -/
def countIn (x : α) (y : WithTop α) (l : List α) : ℕ :=
  l.countP fun a ↦ x ≤ a ∧ (a : WithTop α) < y

/-- There are enough slots without points of their own for the points without a slot. -/
def Balanced (own : α → Prop) [DecidablePred own] (slots points : List α) : Prop :=
  ∀ (x : α) (y : WithTop α), (y = ⊤ ∨ ∃ t ∈ points, own t ∧ y = t) →
    countIn x y (points.filter fun s ↦ ¬own s) ≤ countIn x y (slots.filter fun a ↦ a ∉ points)

/-- Each point at a slot of its own finds it, the last point is at no slot, and in each interval
there are enough slots. -/
structure Enough (own : α → Prop) [DecidablePred own] (slots points : List α) : Prop where
  /-- A point with a slot of its own finds it. -/
  mem : ∀ t ∈ points, own t → t ∈ slots
  /-- The last point has none. -/
  last : ∀ t ∈ points.getLast?, ¬own t
  /-- Between two slots of their own the other points find free ones. -/
  balanced : Balanced own slots points

/-! ## Counting -/

section Count

variable {x x' : α} {y : WithTop α} {l l' : List α} {a : α}

@[simp] theorem countIn_append : countIn x y (l ++ l') = countIn x y l + countIn x y l' :=
  List.countP_append

theorem countIn_cons :
    countIn x y (a :: l) = countIn x y l + if x ≤ a ∧ (a : WithTop α) < y then 1 else 0 := by
  rw [countIn, List.countP_cons, countIn]
  simp

theorem countIn_eq_zero (h : ∀ a ∈ l, x ≤ a → ¬(a : WithTop α) < y) : countIn x y l = 0 := by
  rw [countIn, List.countP_eq_zero]
  intro a ha hcount
  obtain ⟨hx, hy⟩ := of_decide_eq_true hcount
  exact h a ha hx hy

theorem countIn_eq_zero_of_lt (h : ∀ a ∈ l, a < x) : countIn x y l = 0 :=
  countIn_eq_zero fun a ha hx ↦ absurd (h a ha) (not_lt.mpr hx)

private theorem countIn_le_of_forall_le (h : ∀ a ∈ l, x' ≤ a) : countIn x y l ≤ countIn x' y l := by
  refine List.countP_mono_left fun a ha hcount ↦ ?_
  simp only [decide_eq_true_eq] at hcount ⊢
  exact ⟨h a ha, hcount.2⟩

private theorem countIn_max (h : ∀ a ∈ l, x' ≤ a) : countIn (max x x') y l = countIn x y l := by
  refine List.countP_congr fun a ha ↦ ?_
  simp [h a ha]

end Count

/-! ## Lists in order -/

section Order

variable {s a : α} {slots rest points : List α}

private theorem exists_append_of_dropWhile (h : slots.dropWhile (· < s) = a :: rest) :
    ∃ passed, slots = passed ++ a :: rest ∧ (∀ b ∈ passed, b < s) ∧ s ≤ a := by
  refine ⟨slots.takeWhile (· < s), ?_, ?_, ?_⟩
  · rw [← h, List.takeWhile_append_dropWhile]
  · intro b hb
    simpa using List.mem_takeWhile_imp hb
  · have hne : slots.dropWhile (· < s) ≠ [] := by simp [h]
    have hhead := List.head_dropWhile_not (fun b ↦ decide (b < s)) hne
    simp only [h, List.head_cons, decide_eq_false_iff_not, not_lt] at hhead
    exact hhead

theorem dropWhile_eq_cons (hslots : slots.Pairwise (· < ·)) (h : s ∈ slots) :
    ∃ rest, slots.dropWhile (· < s) = s :: rest := by
  induction slots with
  | nil => exact absurd h (by simp)
  | cons b slots ih =>
    obtain ⟨hb, hslots⟩ := List.pairwise_cons.mp hslots
    rcases List.mem_cons.mp h with rfl | h
    · exact ⟨slots, by rw [List.dropWhile_cons_of_neg (by simp)]⟩
    · obtain ⟨rest, hrest⟩ := ih hslots h
      exact ⟨rest, by rw [List.dropWhile_cons_of_pos (by simpa using hb s h), hrest]⟩

private theorem exists_append_of_group (hpoints : (s :: points).Pairwise (· ≤ ·)) :
    ∃ group, points = group ++ points.dropWhile (· = s) ∧ (∀ t ∈ group, t = s)
      ∧ ∀ t ∈ points.dropWhile (· = s), s < t := by
  refine ⟨points.takeWhile (· = s), List.takeWhile_append_dropWhile.symm, ?_, ?_⟩
  · intro t ht
    simpa using List.mem_takeWhile_imp ht
  · induction points with
    | nil => simp
    | cons t points ih =>
      obtain ⟨hs, ht⟩ := List.pairwise_cons.mp hpoints
      by_cases hts : t = s
      · rw [List.dropWhile_cons_of_pos (by simpa using hts)]
        refine ih (List.pairwise_cons.mpr ⟨?_, (List.pairwise_cons.mp ht).2⟩)
        intro u hu
        exact hs u (List.mem_cons_of_mem t hu)
      · rw [List.dropWhile_cons_of_neg (by simpa using hts)]
        have hlt : s < t := lt_of_le_of_ne (hs t List.mem_cons_self) (Ne.symm hts)
        intro u hu
        rcases List.mem_cons.mp hu with rfl | hu
        · exact hlt
        · exact hlt.trans_le ((List.pairwise_cons.mp ht).1 u hu)

private theorem le_getLast (hpoints : points.Pairwise (· ≤ ·)) (h : a ∈ points.getLast?) :
    ∀ t ∈ points, t ≤ a := by
  obtain ⟨near, rfl⟩ := List.getLast?_eq_some_iff.mp h
  intro t ht
  rcases List.mem_append.mp ht with ht | ht
  · exact (List.pairwise_append.mp hpoints).2.2 t ht a (List.mem_singleton_self a)
  · exact (List.mem_singleton.mp ht).le

theorem forall_getLast?_iff {P : α → Prop} (hpoints : points.Pairwise (· ≤ ·)) :
    (∀ t ∈ points.getLast?, P t) ↔ ∀ t ∈ points, (∀ u ∈ points, u ≤ t) → P t := by
  constructor
  · intro h t ht hgreatest
    obtain ⟨l, hl⟩ : ∃ l, points.getLast? = some l :=
      Option.isSome_iff_exists.mp (by simpa using List.ne_nil_of_mem ht)
    have heq : l = t :=
      le_antisymm (hgreatest l (List.mem_of_getLast? hl)) (le_getLast hpoints hl t ht)
    exact heq ▸ h l hl
  · intro h t ht
    exact h t (List.mem_of_getLast? ht) (le_getLast hpoints ht)

end Order

theorem balanced_perm {own : α → Prop} [DecidablePred own] {slots points points' : List α}
    (h : points.Perm points') : Balanced own slots points ↔ Balanced own slots points' := by
  have hpoints : ∀ (x : α) (y : WithTop α), countIn x y (points.filter fun s ↦ ¬own s)
      = countIn x y (points'.filter fun s ↦ ¬own s) := fun x y ↦ (h.filter _).countP_eq _
  simp only [Balanced, hpoints, h.mem_iff]

/-! ## One point -/

section Skip

variable {own : α → Prop} {passed rest points : List α} {s a : α} {x : α} {y : WithTop α}
  (hs : ¬own s) (hslots : (passed ++ a :: rest).Pairwise (· < ·))
  (hpoints : (s :: points).Pairwise (· ≤ ·)) (hown : ∀ b ∈ passed ++ a :: rest, own b)
  (hpassed : ∀ b ∈ passed, b < s) (hsa : s ≤ a)

include hs hown in
private theorem countIn_slots_of_skip :
    countIn x y ((passed ++ a :: rest).filter fun b ↦ b ∉ s :: points)
      = countIn x y (passed.filter fun b ↦ b ∉ points)
        + countIn x y ([a].filter fun b ↦ b ∉ points)
        + countIn x y (rest.filter fun b ↦ b ∉ points) := by
  have hfilter : ((passed ++ a :: rest).filter fun b ↦ b ∉ s :: points)
      = (passed ++ a :: rest).filter fun b ↦ b ∉ points := by
    refine List.filter_congr fun b hb ↦ ?_
    have hne : b ≠ s := by
      rintro rfl
      exact hs (hown b hb)
    simp [hne]
  rw [hfilter, List.append_cons, List.filter_append, List.filter_append, countIn_append,
    countIn_append]

include hpassed in
private theorem countIn_passed_eq_zero (hx : s ≤ x) :
    countIn x y (passed.filter fun b ↦ b ∉ points) = 0 :=
  countIn_eq_zero_of_lt fun b hb ↦ (hpassed b (List.mem_of_mem_filter hb)).trans_le hx

include hs hpoints in
private theorem lt_of_own (hy : y = ⊤ ∨ ∃ t ∈ points, own t ∧ y = t) : (s : WithTop α) < y := by
  rcases hy with rfl | ⟨t, ht, htown, rfl⟩
  · exact WithTop.coe_lt_top s
  · refine WithTop.coe_lt_coe.mpr (lt_of_le_of_ne ((List.pairwise_cons.mp hpoints).1 t ht) ?_)
    rintro rfl
    exact hs htown

variable [DecidablePred own]

include hs hslots hpoints hown hpassed hsa

/-- A point without a slot must not take a slot that other points need. -/
theorem mem_rest_of_balanced (hmem : ∀ t ∈ points, own t → t ∈ passed ++ a :: rest)
    (hbal : Balanced own (passed ++ a :: rest) (s :: points)) :
    ∀ t ∈ points, own t → t ∈ rest := by
  have hrest : ∀ b ∈ rest, a < b :=
    (List.pairwise_cons.mp (List.pairwise_append.mp hslots).2.1).1
  intro t ht htown
  rcases List.mem_append.mp (hmem t ht htown) with hp | hp
  · exact absurd (hpassed t hp) (not_lt.mpr ((List.pairwise_cons.mp hpoints).1 t ht))
  rcases List.mem_cons.mp hp with rfl | hp
  · -- between the point and the slot there is nothing else to take
    have hle := hbal s t (Or.inr ⟨t, List.mem_cons_of_mem s ht, htown, rfl⟩)
    have hst := lt_of_own hs hpoints (Or.inr ⟨t, ht, htown, rfl⟩)
    rw [List.filter_cons_of_pos (by simpa using hs), countIn_cons, if_pos ⟨le_rfl, hst⟩,
      countIn_slots_of_skip hs hown, countIn_passed_eq_zero hpassed le_rfl] at hle
    have hself : countIn s t ([t].filter fun b ↦ b ∉ points) = 0 := by
      refine countIn_eq_zero fun b hb _ ↦ ?_
      obtain rfl := List.mem_singleton.mp (List.mem_of_mem_filter hb)
      exact lt_irrefl _
    have hbehind : countIn s t (rest.filter fun b ↦ b ∉ points) = 0 := by
      refine countIn_eq_zero fun b hb _ ↦ ?_
      exact not_lt.mpr (WithTop.coe_le_coe.mpr (hrest b (List.mem_of_mem_filter hb)).le)
    omega
  · exact hp

private theorem Balanced.of_skip (hbal : Balanced own (passed ++ a :: rest) (s :: points)) :
    Balanced own rest points := by
  have hrest : ∀ b ∈ rest, a < b :=
    (List.pairwise_cons.mp (List.pairwise_append.mp hslots).2.1).1
  intro x y hy
  have hsy := lt_of_own hs hpoints hy
  have hy' : y = ⊤ ∨ ∃ t ∈ s :: points, own t ∧ y = t :=
    hy.imp_right fun ⟨t, ht, h⟩ ↦ ⟨t, List.mem_cons_of_mem s ht, h⟩
  rcases le_or_gt x a with hxa | hax
  · -- from the point on there is one slot for it
    have hle := hbal s y hy'
    rw [List.filter_cons_of_pos (by simpa using hs), countIn_cons, if_pos ⟨le_rfl, hsy⟩,
      countIn_slots_of_skip hs hown, countIn_passed_eq_zero hpassed le_rfl] at hle
    have hone : countIn s y ([a].filter fun b ↦ b ∉ points) ≤ 1 :=
      List.countP_le_length.trans (List.length_filter_le _ _)
    have hfirst : countIn x y (points.filter fun t ↦ ¬own t)
        ≤ countIn s y (points.filter fun t ↦ ¬own t) :=
      countIn_le_of_forall_le fun t ht ↦
        (List.pairwise_cons.mp hpoints).1 t (List.mem_of_mem_filter ht)
    have hlast : countIn s y (rest.filter fun b ↦ b ∉ points)
        ≤ countIn x y (rest.filter fun b ↦ b ∉ points) :=
      countIn_le_of_forall_le fun b hb ↦ hxa.trans (hrest b (List.mem_of_mem_filter hb)).le
    omega
  · have hle := hbal x y hy'
    rw [List.filter_cons_of_pos (by simpa using hs), countIn_cons,
      if_neg fun h ↦ absurd (hax.trans_le h.1) (not_lt.mpr hsa), countIn_slots_of_skip hs hown,
      countIn_passed_eq_zero hpassed (hsa.trans hax.le)] at hle
    have hself : countIn x y ([a].filter fun b ↦ b ∉ points) = 0 := by
      refine countIn_eq_zero_of_lt fun b hb ↦ ?_
      obtain rfl := List.mem_singleton.mp (List.mem_of_mem_filter hb)
      exact hax
    omega

omit hpassed in
theorem Balanced.skip (hmem : ∀ t ∈ points, own t → t ∈ rest) (hbal : Balanced own rest points) :
    Balanced own (passed ++ a :: rest) (s :: points) := by
  have hrest : ∀ b ∈ rest, a < b :=
    (List.pairwise_cons.mp (List.pairwise_append.mp hslots).2.1).1
  have hfree : a ∉ points := fun ha ↦ lt_irrefl a (hrest a (hmem a ha (hown a (by simp))))
  intro x y hy
  have hy' : y = ⊤ ∨ ∃ t ∈ points, own t ∧ y = t := by
    refine hy.imp_right ?_
    rintro ⟨t, ht, htown, rfl⟩
    rcases List.mem_cons.mp ht with rfl | ht
    · exact absurd htown hs
    · exact ⟨t, ht, htown, rfl⟩
  have hay : (a : WithTop α) < y := by
    rcases hy' with rfl | ⟨t, ht, htown, rfl⟩
    · exact WithTop.coe_lt_top a
    · exact WithTop.coe_lt_coe.mpr (hrest t (hmem t ht htown))
  have hle := hbal x y hy'
  rw [List.filter_cons_of_pos (by simpa using hs), countIn_cons, countIn_slots_of_skip hs hown,
    List.filter_cons_of_pos (by simpa using hfree), List.filter_nil, countIn_cons]
  -- the slot counts whenever the point does
  by_cases hxs : x ≤ s
  · have hslot : (if x ≤ a ∧ (a : WithTop α) < y then 1 else 0) = 1 :=
      if_pos ⟨hxs.trans hsa, hay⟩
    rw [hslot]
    split_ifs <;> omega
  · rw [if_neg fun h ↦ hxs h.1]
    omega

end Skip

section Take

variable {own : α → Prop} {passed rest later group : List α} {s : α} {x : α} {y : WithTop α}
  (hs : own s) (hslots : (passed ++ s :: rest).Pairwise (· < ·))
  (hpassed : ∀ b ∈ passed, b < s) (hgroup : ∀ t ∈ group, t = s) (hlater : ∀ t ∈ later, s < t)

omit [LinearOrder α] in
include hs hgroup in
private theorem filter_points_of_take [DecidablePred own] :
    ((s :: (group ++ later)).filter fun t ↦ ¬own t) = later.filter fun t ↦ ¬own t := by
  have hnil : (group.filter fun t ↦ ¬own t) = [] := by
    rw [List.filter_eq_nil_iff]
    intro t ht
    simpa [hgroup t ht] using hs
  rw [List.filter_cons_of_neg (by simpa using hs), List.filter_append, hnil, List.nil_append]

include hslots hgroup in
theorem countIn_slots_of_take :
    countIn x y ((passed ++ s :: rest).filter fun b ↦ b ∉ s :: (group ++ later))
      = countIn x y (passed.filter fun b ↦ b ∉ s :: (group ++ later))
        + countIn x y (rest.filter fun b ↦ b ∉ later) := by
  have hrest : ∀ b ∈ rest, s < b :=
    (List.pairwise_cons.mp (List.pairwise_append.mp hslots).2.1).1
  have hbehind : (rest.filter fun b ↦ b ∉ s :: (group ++ later))
      = rest.filter fun b ↦ b ∉ later := by
    refine List.filter_congr fun b hb ↦ ?_
    have hne : b ≠ s := (hrest b hb).ne'
    have hnot : b ∉ group := fun h ↦ hne (hgroup b h)
    simp [hne, hnot]
  rw [List.filter_append, List.filter_cons_of_neg (by simp), hbehind, countIn_append]

variable [DecidablePred own]

include hs hslots hgroup hlater

private theorem Balanced.of_take (hpassed : ∀ b ∈ passed, b < s)
    (hbal : Balanced own (passed ++ s :: rest) (s :: (group ++ later))) :
    Balanced own rest later := by
  have hrest : ∀ b ∈ rest, s < b :=
    (List.pairwise_cons.mp (List.pairwise_append.mp hslots).2.1).1
  intro x y hy
  have hy' : y = ⊤ ∨ ∃ t ∈ s :: (group ++ later), own t ∧ y = t :=
    hy.imp_right fun ⟨t, ht, h⟩ ↦ ⟨t, by simp [ht], h⟩
  -- below the slot nothing is left to count
  have hle := hbal (max x s) y hy'
  have hzero : countIn (max x s) y (passed.filter fun b ↦ b ∉ s :: (group ++ later)) = 0 :=
    countIn_eq_zero_of_lt fun b hb ↦
      (hpassed b (List.mem_of_mem_filter hb)).trans_le (le_max_right x s)
  rw [filter_points_of_take hs hgroup, countIn_slots_of_take hslots hgroup, hzero, Nat.zero_add,
    countIn_max fun t ht ↦ (hlater t (List.mem_of_mem_filter ht)).le,
    countIn_max fun b hb ↦ (hrest b (List.mem_of_mem_filter hb)).le] at hle
  exact hle

theorem Balanced.take (hbal : Balanced own rest later) :
    Balanced own (passed ++ s :: rest) (s :: (group ++ later)) := by
  intro x y hy
  rw [filter_points_of_take hs hgroup, countIn_slots_of_take hslots hgroup]
  have hy' : y = s ∨ y = ⊤ ∨ ∃ t ∈ later, own t ∧ y = t := by
    rcases hy with rfl | ⟨t, ht, htown, rfl⟩
    · exact Or.inr (Or.inl rfl)
    · rcases List.mem_cons.mp ht with rfl | ht
      · exact Or.inl rfl
      rcases List.mem_append.mp ht with ht | ht
      · exact Or.inl (by rw [hgroup t ht])
      · exact Or.inr (Or.inr ⟨t, ht, htown, rfl⟩)
  rcases hy' with rfl | hy'
  · have hzero : countIn x s (later.filter fun t ↦ ¬own t) = 0 := by
      refine countIn_eq_zero fun t ht _ ↦ ?_
      exact not_lt.mpr (WithTop.coe_le_coe.mpr (hlater t (List.mem_of_mem_filter ht)).le)
    omega
  · exact (hbal x y hy').trans (Nat.le_add_left _ _)

end Take

/-! ## All points -/

section Served

variable {own : α → Prop} {slots rest points group later : List α} {s a : α}

theorem not_served_of_dropWhile_eq_nil (h : slots.dropWhile (· < s) = []) :
    ¬Served own slots (s :: points) := by
  intro hserved
  cases hserved with
  | skip _ hslot => exact absurd (h.symm.trans hslot) (by simp)
  | take _ hslot => exact absurd (h.symm.trans hslot) (by simp)

theorem not_served_of_last (hs : own s) (h : points.dropWhile (· = s) = []) :
    ¬Served own slots (s :: points) := by
  intro hserved
  cases hserved with
  | skip hs' => exact hs' hs
  | take _ _ hmore => exact hmore h

private theorem Served.mem_of_own (h : Served own slots (s :: points)) (hs : own s) :
    s ∈ slots := by
  cases h with
  | skip hs' => exact absurd hs hs'
  | take _ hslot =>
    refine (List.dropWhile_sublist (· < s)).subset ?_
    rw [hslot]
    exact List.mem_cons_self

theorem served_cons_iff_of_ne (hslot : slots.dropWhile (· < s) = a :: rest) (hne : s ≠ a) :
    Served own slots (s :: points) ↔ ¬own s ∧ Served own rest points := by
  constructor
  · intro hserved
    cases hserved with
    | skip hs hslot' h =>
      obtain ⟨-, rfl⟩ := List.cons.inj (hslot.symm.trans hslot')
      exact ⟨hs, h⟩
    | take _ hslot' => exact absurd (List.cons.inj (hslot.symm.trans hslot')).1.symm hne
  · rintro ⟨hs, h⟩
    exact .skip hs hslot h

theorem served_cons_iff_of_own (hslot : slots.dropWhile (· < s) = s :: rest) (hs : own s)
    (hmore : points.dropWhile (· = s) ≠ []) :
    Served own slots (s :: points) ↔ Served own rest (points.dropWhile (· = s)) := by
  constructor
  · intro hserved
    cases hserved with
    | skip hs' => exact absurd hs hs'
    | take _ hslot' _ h =>
      obtain ⟨-, rfl⟩ := List.cons.inj (hslot.symm.trans hslot')
      exact h
  · exact .take hs hslot hmore

omit [LinearOrder α] in
theorem last_cons_iff (hs : ¬own s) :
    (∀ t ∈ (s :: points).getLast?, ¬own t) ↔ ∀ t ∈ points.getLast?, ¬own t := by
  rw [List.getLast?_cons]
  cases points.getLast? with
  | none => simpa using hs
  | some t => simp

omit [LinearOrder α] in
/-- With a group of points at a slot first, the last point has no slot only if others follow. -/
theorem last_group_iff (hs : own s) (hgroup : ∀ t ∈ group, t = s) :
    (∀ t ∈ (s :: (group ++ later)).getLast?, ¬own t)
      ↔ later ≠ [] ∧ ∀ t ∈ later.getLast?, ¬own t := by
  by_cases hlater : later = []
  · subst hlater
    rw [List.append_nil]
    refine iff_of_false ?_ (by simp)
    intro hlast
    have hmem := List.getLast_mem (List.cons_ne_nil s group)
    have heq : (s :: group).getLast (List.cons_ne_nil s group) = s := by
      rcases List.mem_cons.mp hmem with h | h
      · exact h
      · exact hgroup _ h
    refine hlast s ?_ hs
    rw [List.getLast?_eq_getLast_of_ne_nil (List.cons_ne_nil s group), heq]
    rfl
  · rw [← List.cons_append, List.getLast?_append_of_ne_nil _ hlater]
    exact (and_iff_right hlater).symm

variable [DecidablePred own]

private theorem exists_slot_of_balanced (hs : ¬own s) (hbal : Balanced own slots (s :: points)) :
    ∃ a rest, slots.dropWhile (· < s) = a :: rest := by
  cases hslot : slots.dropWhile (· < s) with
  | cons a rest => exact ⟨a, rest, rfl⟩
  | nil =>
    have hle := hbal s ⊤ (Or.inl rfl)
    rw [List.filter_cons_of_pos (by simpa using hs), countIn_cons,
      if_pos ⟨le_rfl, WithTop.coe_lt_top s⟩] at hle
    have hzero : countIn s ⊤ (slots.filter fun b ↦ b ∉ s :: points) = 0 := by
      refine countIn_eq_zero_of_lt fun b hb ↦ ?_
      simpa using List.dropWhile_eq_nil_iff.mp hslot b (List.mem_of_mem_filter hb)
    omega

omit [DecidablePred own] in
private theorem pairwise_rest {passed rest : List α} {a : α}
    (h : (passed ++ a :: rest).Pairwise (· < ·)) : rest.Pairwise (· < ·) :=
  (List.pairwise_cons.mp (List.pairwise_append.mp h).2.1).2

section Step

variable {passed : List α} (hslots : (passed ++ a :: rest).Pairwise (· < ·))
  (hpassed : ∀ b ∈ passed, b < s)

include hslots hpassed

theorem enough_skip_iff (hs : ¬own s) (hpoints : (s :: points).Pairwise (· ≤ ·))
    (hown : ∀ b ∈ passed ++ a :: rest, own b) (hsa : s ≤ a) :
    Enough own (passed ++ a :: rest) (s :: points) ↔ Enough own rest points := by
  constructor
  · rintro ⟨hmem, hlast, hbal⟩
    refine ⟨mem_rest_of_balanced hs hslots hpoints hown hpassed hsa ?_ hbal,
      (last_cons_iff hs).mp hlast, hbal.of_skip hs hslots hpoints hown hpassed hsa⟩
    intro t ht
    exact hmem t (List.mem_cons_of_mem s ht)
  · rintro ⟨hmem, hlast, hbal⟩
    refine ⟨?_, (last_cons_iff hs).mpr hlast, hbal.skip hs hslots hpoints hown hsa hmem⟩
    intro t ht htown
    rcases List.mem_cons.mp ht with rfl | ht
    · exact absurd htown hs
    · simp [hmem t ht htown]

theorem enough_take_iff (ha : a = s) (hs : own s) (hgroup : ∀ t ∈ group, t = s)
    (hlater : ∀ t ∈ later, s < t) :
    Enough own (passed ++ a :: rest) (s :: (group ++ later))
      ↔ later ≠ [] ∧ Enough own rest later := by
  subst ha
  constructor
  · rintro ⟨hmem, hlast, hbal⟩
    obtain ⟨hmore, hlast⟩ := (last_group_iff hs hgroup).mp hlast
    refine ⟨hmore, ?_, hlast, hbal.of_take hs hslots hgroup hlater hpassed⟩
    intro t ht htown
    have hat := hlater t ht
    rcases List.mem_append.mp (hmem t (by simp [ht]) htown) with hp | hp
    · exact absurd (hpassed t hp) hat.not_gt
    · exact (List.mem_cons.mp hp).resolve_left hat.ne'
  · rintro ⟨hmore, hmem, hlast, hbal⟩
    refine ⟨?_, (last_group_iff hs hgroup).mpr ⟨hmore, hlast⟩,
      hbal.take hs hslots hgroup hlater⟩
    intro t ht htown
    rcases List.mem_cons.mp ht with rfl | ht
    · simp
    rcases List.mem_append.mp ht with ht | ht
    · simp [hgroup t ht]
    · simp [hmem t ht htown]

end Step

/-- **When all points are served.** -/
theorem served_iff (hslots : slots.Pairwise (· < ·)) (hpoints : points.Pairwise (· ≤ ·))
    (hown : ∀ b ∈ slots, own b) : Served own slots points ↔ Enough own slots points := by
  -- the points left become fewer, by one or by a whole group
  induction hn : points.length using Nat.strong_induction_on generalizing slots points with
  | _ n ih =>
  cases points with
  | nil => exact iff_of_true (.nil slots) ⟨by simp, by simp, fun x y _ ↦ by simp [countIn]⟩
  | cons s points =>
    have hpoints' := (List.pairwise_cons.mp hpoints).2
    by_cases hs : own s
    · by_cases hmem : s ∈ slots
      · obtain ⟨rest, hslot⟩ := dropWhile_eq_cons hslots hmem
        obtain ⟨passed, rfl, hpassed, -⟩ := exists_append_of_dropWhile hslot
        obtain ⟨group, hsplit, hgroup, hlater⟩ := exists_append_of_group hpoints
        have henough := enough_take_iff hslots hpassed rfl hs hgroup hlater
        rw [← hsplit] at henough
        by_cases hmore : points.dropWhile (· = s) = []
        · exact iff_of_false (not_served_of_last hs hmore) fun h ↦ (henough.mp h).1 hmore
        · have hshorter : (points.dropWhile (· = s)).length < n := by
            rw [← hn]
            exact Nat.lt_succ_of_le (List.length_dropWhile_le _ _)
          rw [served_cons_iff_of_own hslot hs hmore, henough, and_iff_right hmore]
          exact ih _ hshorter (pairwise_rest hslots)
            (hpoints'.sublist (List.dropWhile_sublist _)) (fun b hb ↦ hown b (by simp [hb])) rfl
      · exact iff_of_false (fun h ↦ hmem (h.mem_of_own hs)) fun h ↦
          hmem (h.mem s List.mem_cons_self hs)
    · cases hslot : slots.dropWhile (· < s) with
      | nil =>
        refine iff_of_false (not_served_of_dropWhile_eq_nil hslot) fun h ↦ ?_
        obtain ⟨a, rest, hslot'⟩ := exists_slot_of_balanced hs h.balanced
        exact absurd (hslot.symm.trans hslot') (by simp)
      | cons a rest =>
        obtain ⟨passed, rfl, hpassed, hsa⟩ := exists_append_of_dropWhile hslot
        have hne : s ≠ a := by
          rintro rfl
          exact hs (hown s (by simp))
        rw [served_cons_iff_of_ne hslot hne, and_iff_right hs,
          enough_skip_iff hslots hpassed hs hpoints hown hsa]
        exact ih points.length (hn ▸ Nat.lt_succ_self _) (pairwise_rest hslots) hpoints'
          (fun b hb ↦ hown b (by simp [hb])) rfl

/-- If own places without a slot are behind all slots, the first condition follows from the
others: the last point would find nothing. -/
theorem served_iff_balanced (hslots : slots.Pairwise (· < ·)) (hpoints : points.Pairwise (· ≤ ·))
    (hown : ∀ b ∈ slots, own b) (hbehind : ∀ t, own t → t ∉ slots → ∀ b ∈ slots, b < t) :
    Served own slots points
      ↔ (∀ t ∈ points.getLast?, ¬own t) ∧ Balanced own slots points := by
  rw [served_iff hslots hpoints hown]
  refine ⟨fun h ↦ ⟨h.last, h.balanced⟩, ?_⟩
  rintro ⟨hlast, hbal⟩
  refine ⟨?_, hlast, hbal⟩
  intro t ht htown
  by_contra hslot
  obtain ⟨l, hl⟩ : ∃ l, points.getLast? = some l :=
    Option.isSome_iff_exists.mp (by simpa using List.ne_nil_of_mem ht)
  have hle : countIn l ⊤ (points.filter fun s ↦ ¬own s)
      ≤ countIn l ⊤ (slots.filter fun a ↦ a ∉ points) := hbal l ⊤ (Or.inl rfl)
  have hpos : 0 < countIn l ⊤ (points.filter fun s ↦ ¬own s) := by
    refine List.countP_pos_iff.mpr ⟨l, List.mem_filter.mpr ⟨List.mem_of_getLast? hl, ?_⟩, ?_⟩
    · simpa using hlast l hl
    · simp
  have hzero : countIn l ⊤ (slots.filter fun a ↦ a ∉ points) = 0 :=
    countIn_eq_zero_of_lt fun b hb ↦
      (hbehind t htown hslot b (List.mem_of_mem_filter hb)).trans_le (le_getLast hpoints hl t ht)
  omega

end Served

end Greedy
