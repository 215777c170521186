import Mathlib.Order.RelClasses
import Mathlib.Data.List.Basic
import Mathlib.Data.List.Induction
import Mathlib.Data.List.Perm.Basic
import Mathlib.Data.List.Sort

/-!
# Ordered sets under a strict weak order

The container of the C++ standard library that keeps its elements in the order of a comparison
`lt` and holds at most one element of each equivalence class (two elements are *equivalent* when
neither is below the other). Iteration order is observable, so the representation is the sorted
list itself, and an iterator is a position in it; the past-the-end iterator is the length.

Insertion never replaces: an element equivalent to the new one stays, and the new one is dropped.
That asymmetry is the point of this module. A client that wants its element to be in the set
afterwards has to know that nothing equivalent was there, and `elems_insert_perm` is the form in
which it uses that knowledge.

## Insertion in any order

When equivalent elements are equal an insertion of something that is there changes nothing at all,
so the set is the set of what was inserted: order and repetitions do not matter
(`ofList_eq_ofList`). In general the representative of a class is the member that was inserted
first, and `firsts` lists these.
-/

namespace Container

variable {α : Type*} (lt : α → α → Prop)

/-- Neither element is below the other. -/
def Equivalent (x y : α) : Prop := ¬lt x y ∧ ¬lt y x

instance [DecidableRel lt] : DecidableRel (Equivalent lt) := fun _ _ ↦
  inferInstanceAs (Decidable (_ ∧ _))

variable {lt} in
theorem Equivalent.symm {x y : α} (h : Equivalent lt x y) : Equivalent lt y x := ⟨h.2, h.1⟩

/-! ## Sorted insertion -/

variable [DecidableRel lt]

/-- Insertion into a sorted list; an equivalent element already present wins. -/
def insertSorted (x : α) : List α → List α
  | [] => [x]
  | y :: ys =>
    if lt x y then x :: y :: ys
    else if lt y x then y :: insertSorted x ys
    else y :: ys

variable {lt}

private theorem mem_of_mem_insertSorted {x y : α} {l : List α} (h : y ∈ insertSorted lt x l) :
    y = x ∨ y ∈ l := by
  induction l with
  | nil => exact Or.inl (List.mem_singleton.mp h)
  | cons z zs ih =>
    rw [insertSorted] at h
    split_ifs at h with h₁ h₂
    · exact List.mem_cons.mp h
    · rcases List.mem_cons.mp h with rfl | h
      · exact Or.inr List.mem_cons_self
      · exact (ih h).imp_right (List.mem_cons_of_mem z)
    · exact Or.inr h

private theorem pairwise_insertSorted [IsTrans α lt] {x : α} {l : List α} (h : l.Pairwise lt) :
    (insertSorted lt x l).Pairwise lt := by
  induction l with
  | nil => exact List.pairwise_singleton lt x
  | cons y ys ih =>
    rw [insertSorted]
    obtain ⟨hy, hys⟩ := List.pairwise_cons.mp h
    split_ifs with h₁ h₂
    · refine List.pairwise_cons.mpr ⟨?_, h⟩
      intro z hz
      rcases List.mem_cons.mp hz with rfl | hz
      · exact h₁
      · exact IsTrans.trans _ _ _ h₁ (hy z hz)
    · refine List.pairwise_cons.mpr ⟨?_, ih hys⟩
      intro z hz
      rcases mem_of_mem_insertSorted hz with rfl | hz
      · exact h₂
      · exact hy z hz
    · exact h

private theorem perm_insertSorted_of_fresh {x : α} {l : List α} (h : ∀ y ∈ l, ¬Equivalent lt x y) :
    (insertSorted lt x l).Perm (x :: l) := by
  induction l with
  | nil => exact List.Perm.refl _
  | cons y ys ih =>
    rw [insertSorted]
    split_ifs with h₁ h₂
    · exact List.Perm.refl _
    · exact ((ih fun z hz ↦ h z (List.mem_cons_of_mem y hz)).cons y).trans (List.Perm.swap x y ys)
    · exact absurd ⟨h₁, h₂⟩ (h y List.mem_cons_self)

private theorem insertSorted_of_equivalent [IsStrictWeakOrder α lt] {x y : α} {l : List α}
    (hl : l.Pairwise lt) (hy : y ∈ l) (h : Equivalent lt x y) : insertSorted lt x l = l := by
  induction l with
  | nil => exact absurd hy (by simp)
  | cons z zs ih =>
    obtain ⟨hz, hzs⟩ := List.pairwise_cons.mp hl
    rcases List.mem_cons.mp hy with rfl | hy
    · rw [insertSorted, if_neg h.1, if_neg h.2]
    · have hzy : lt z y := hz y hy
      -- were `x` not above `z`, the weak order would make `z` and `y` comparable the wrong way
      have hxz : ¬lt x z := fun hxz ↦ h.1 (IsTrans.trans _ _ _ hxz hzy)
      rw [insertSorted, if_neg hxz]
      by_cases hzx : lt z x
      · rw [if_pos hzx, ih hzs hy]
      · exact absurd hzy (IsStrictWeakOrder.incomp_trans z x y ⟨hzx, hxz⟩ h).1

/-! ## The set -/

variable (lt) in
/-- A list in strictly increasing order: at most one element of each equivalence class. -/
structure OrderedSet where
  /-- The elements in iteration order. -/
  elems : List α
  /-- Iteration order is the order of the comparison. -/
  sorted : elems.Pairwise lt

namespace OrderedSet

instance : Membership α (OrderedSet lt) := ⟨fun s x ↦ x ∈ s.elems⟩

omit [DecidableRel lt] in
/-- A set is determined by the order it is iterated in. -/
theorem elems_injective {s t : OrderedSet lt} (h : s.elems = t.elems) : s = t := by
  obtain ⟨_, _⟩ := s
  obtain ⟨_, _⟩ := t
  obtain rfl := h
  rfl

instance [DecidableEq α] : DecidableEq (OrderedSet lt) := fun s t ↦
  decidable_of_iff (s.elems = t.elems) ⟨fun h ↦ by cases s; cases t; cases h; rfl, fun h ↦ h ▸ rfl⟩

/-- The set with no elements. -/
def empty : OrderedSet lt := ⟨[], List.Pairwise.nil⟩

/-- The number of elements. -/
def size (s : OrderedSet lt) : ℕ := s.elems.length

/-- The element an iterator points to; `none` past the end. -/
def get? (s : OrderedSet lt) (i : ℕ) : Option α := s.elems[i]?

/-- Removal of the element an iterator points to. -/
def eraseAt (s : OrderedSet lt) (i : ℕ) : OrderedSet lt :=
  ⟨s.elems.eraseIdx i, s.sorted.sublist (List.eraseIdx_sublist _ _)⟩

omit [DecidableRel lt] in
theorem elems_perm_of_get? {s : OrderedSet lt} {i : ℕ} {x : α} (h : s.get? i = some x) :
    s.elems.Perm (x :: (s.eraseAt i).elems) := by
  obtain ⟨hi, rfl⟩ := List.getElem?_eq_some_iff.mp h
  exact (List.getElem_cons_eraseIdx_perm hi).symm

section Insert

variable [IsTrans α lt]

/-- Insertion, which is dropped when an equivalent element is present. -/
def insert (s : OrderedSet lt) (x : α) : OrderedSet lt :=
  ⟨insertSorted lt x s.elems, pairwise_insertSorted s.sorted⟩

/-- Successive insertion of the members of a list into the empty set. -/
def ofList (l : List α) : OrderedSet lt := l.foldl insert empty

@[simp] theorem elems_insert (s : OrderedSet lt) (x : α) :
    (s.insert x).elems = insertSorted lt x s.elems := rfl

theorem elems_insert_perm {s : OrderedSet lt} {x : α} (h : ∀ y ∈ s, ¬Equivalent lt x y) :
    (s.insert x).elems.Perm (x :: s.elems) :=
  perm_insertSorted_of_fresh h

@[simp] theorem ofList_append_singleton (l : List α) (x : α) :
    (ofList (l ++ [x]) : OrderedSet lt) = (ofList l).insert x := by
  rw [ofList, List.foldl_append, List.foldl_cons, List.foldl_nil, ← ofList]

end Insert

/-! ## Duplicates

Filling a set from a list keeps the first member of each equivalence class. -/

variable (lt) in
/-- The members of a list that have no equivalent before them. -/
def firsts (l : List α) : List α :=
  l.foldl (fun acc x ↦ if ∃ y ∈ acc, Equivalent lt x y then acc else acc ++ [x]) []

theorem firsts_append_singleton (l : List α) (x : α) :
    firsts lt (l ++ [x])
      = if ∃ y ∈ firsts lt l, Equivalent lt x y then firsts lt l else firsts lt l ++ [x] := by
  rw [firsts, List.foldl_append, List.foldl_cons, List.foldl_nil, ← firsts]

theorem mem_of_mem_firsts {l : List α} {x : α} (h : x ∈ firsts lt l) : x ∈ l := by
  induction l using List.reverseRecOn with
  | nil => cases h
  | append_singleton l y ih =>
    rw [firsts_append_singleton] at h
    split_ifs at h
    · exact List.mem_append_left _ (ih h)
    · rcases List.mem_append.mp h with h | h
      · exact List.mem_append_left _ (ih h)
      · exact List.mem_append_right l h

theorem exists_mem_firsts {l : List α} {x : α} (h : x ∈ l) :
    ∃ y ∈ firsts lt l, y = x ∨ Equivalent lt x y := by
  induction l using List.reverseRecOn with
  | nil => exact absurd h (by simp)
  | append_singleton l z ih =>
    rw [firsts_append_singleton]
    rcases List.mem_append.mp h with h | h
    · obtain ⟨y, hy, hyx⟩ := ih h
      refine ⟨y, ?_, hyx⟩
      split_ifs
      · exact hy
      · exact List.mem_append_left _ hy
    · rw [List.mem_singleton] at h
      subst h
      split_ifs with hdup
      · obtain ⟨y, hy, hyx⟩ := hdup
        exact ⟨y, hy, Or.inr hyx⟩
      · exact ⟨x, List.mem_append_right _ (List.mem_singleton_self x), Or.inl rfl⟩

theorem elems_ofList_perm [IsStrictWeakOrder α lt] (l : List α) :
    (ofList l : OrderedSet lt).elems.Perm (firsts lt l) := by
  induction l using List.reverseRecOn with
  | nil => exact List.Perm.refl _
  | append_singleton l x ih =>
    rw [ofList_append_singleton, firsts_append_singleton, elems_insert]
    split_ifs with hdup
    · obtain ⟨y, hy, hxy⟩ := hdup
      rwa [insertSorted_of_equivalent (ofList l).sorted (ih.mem_iff.mpr hy) hxy]
    · have hfresh : ∀ y ∈ (ofList l : OrderedSet lt).elems, ¬Equivalent lt x y := by
        intro y hy hxy
        exact hdup ⟨y, ih.mem_iff.mp hy, hxy⟩
      exact ((perm_insertSorted_of_fresh hfresh).trans (ih.cons x)).trans
        (List.perm_append_singleton x _).symm

theorem mem_elems_ofList_iff [IsStrictWeakOrder α lt] {l : List α}
    (hl : ∀ x ∈ l, ∀ y ∈ l, Equivalent lt x y → x = y) {x : α} :
    x ∈ (ofList l : OrderedSet lt).elems ↔ x ∈ l := by
  rw [(elems_ofList_perm l).mem_iff]
  constructor
  · exact mem_of_mem_firsts
  · intro hx
    obtain ⟨y, hy, rfl | hxy⟩ := @exists_mem_firsts _ lt _ _ _ hx
    · exact hy
    · rwa [hl x hx y (mem_of_mem_firsts hy) hxy]

/-- The set depends neither on the order of the insertions nor on their number. -/
theorem ofList_eq_ofList [IsStrictWeakOrder α lt] {l l' : List α} (hmem : ∀ x, x ∈ l ↔ x ∈ l')
    (hl : ∀ x ∈ l, ∀ y ∈ l, Equivalent lt x y → x = y) :
    (ofList l : OrderedSet lt) = ofList l' := by
  have hl' : ∀ x ∈ l', ∀ y ∈ l', Equivalent lt x y → x = y := by
    intro x hx y hy
    exact hl x ((hmem x).mpr hx) y ((hmem y).mpr hy)
  have helems : (ofList l : OrderedSet lt).elems = (ofList l' : OrderedSet lt).elems := by
    refine (ofList l).sorted.eq_of_mem_iff (ofList l').sorted ?_
    intro x
    rw [mem_elems_ofList_iff hl, mem_elems_ofList_iff hl', hmem]
  exact elems_injective helems

/-! ## Repetitions -/

theorem ofList_append [IsTrans α lt] (l m : List α) :
    (ofList (l ++ m) : OrderedSet lt) = m.foldl insert (ofList l) := by
  rw [ofList, List.foldl_append, ← ofList]

private theorem exists_equivalent_of_mem [IsStrictWeakOrder α lt] {l : List α} {x : α} (h : x ∈ l) :
    ∃ y ∈ (ofList l : OrderedSet lt).elems, Equivalent lt x y := by
  obtain ⟨y, hy, hyx⟩ := @exists_mem_firsts _ lt _ _ _ h
  refine ⟨y, (elems_ofList_perm l).mem_iff.mpr hy, ?_⟩
  rcases hyx with rfl | hxy
  · exact ⟨irrefl_of lt y, irrefl_of lt y⟩
  · exact hxy

private theorem insert_of_equivalent [IsStrictWeakOrder α lt] {s : OrderedSet lt} {x y : α}
    (hy : y ∈ s.elems) (h : Equivalent lt x y) : s.insert x = s :=
  elems_injective (insertSorted_of_equivalent s.sorted hy h)

theorem ofList_append_of_subset [IsStrictWeakOrder α lt] {l m : List α} (h : m ⊆ l) :
    (ofList (l ++ m) : OrderedSet lt) = ofList l := by
  rw [ofList_append]
  induction m with
  | nil => rfl
  | cons x m ih =>
    obtain ⟨hx, hm⟩ := List.cons_subset.mp h
    obtain ⟨y, hy, hxy⟩ := @exists_equivalent_of_mem _ lt _ _ _ _ hx
    rw [List.foldl_cons, insert_of_equivalent hy hxy]
    exact ih hm

end OrderedSet

end Container
