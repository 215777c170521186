import Racez.Container.BoundedBag
import Racez.Record.Basic

/-!
# The lockset of a thread

Every thread keeps the mutexes it holds in an array of ten slots with a counter and a flag that is
set while the array is full. An access outside the array is an error here (`none`); that none
happens is a result about the states the code reaches, not an assumption.

The statements of `add_one_mutex` and `remove_one_mutex` are separate functions, since a signal can
arrive between any two of them. The busy loops in front of both, which only spend time, are left
out.

## The array as a bag

`Shows s l` says that the counted slots of `s` are the list `l`. Advancing the counter shows one
more slot, with whatever is in it; a store replaces one member. From these two the whole functions
are the operations `push` and `swapRemove` of a bounded bag, provided the flag is right.

## The two functions

`Consistent` adds to `Shows` that the flag says whether the array is full. Under it `add_one_mutex`
is `push` with capacity ten and `remove_one_mutex` is `swapRemove`, and so is every sequence of
calls (`Consistent.applyAll`). That no access leaves the array is part of these lemmas: the
functions are partial, and the lemmas say that they are defined. Between two statements of a
function a lockset is not consistent, and the results for interrupted functions work with `Shows`
alone.
-/

open Container

namespace Racez

/-- `LOCKSET`. -/
structure Lockset where
  /-- The number of mutexes. -/
  n : ℤ
  /-- Whether the array is full. -/
  overflow : Bool
  /-- The array. -/
  lockset : Vector Address 10
  deriving DecidableEq

namespace Lockset

/-! ## The statements -/

/-- The lockset `SetPerThreadLockset` allocates; the slots keep what was in the memory. -/
def fresh (slots : Vector Address 10) : Lockset := ⟨0, false, slots⟩

/-- `lockset_[i]`. -/
def slot (s : Lockset) (i : ℤ) : Option Address :=
  if 0 ≤ i then s.lockset[i.toNat]? else none

/-- `lockset_[i] = x`. -/
def setSlot (s : Lockset) (i : ℤ) (x : Address) : Option Lockset :=
  if h : 0 ≤ i ∧ i < 10 then
    some { s with lockset := s.lockset.set i.toNat x (by omega) }
  else none

/-- `n++`. -/
def incr (s : Lockset) : Lockset := { s with n := s.n + 1 }

/-- `n--`. -/
def decr (s : Lockset) : Lockset := { s with n := s.n - 1 }

/-- `if (n == 10) overflow = true`. -/
def noteFull (s : Lockset) : Lockset := if s.n = 10 then { s with overflow := true } else s

/-- `if (overflow == true) overflow = false`. -/
def clearOverflow (s : Lockset) : Lockset :=
  if s.overflow = true then { s with overflow := false } else s

/-- `lockset_[i] = lockset_[lock_count - 1]`. -/
def moveLast (s : Lockset) (i lockCount : ℤ) : Option Lockset := do
  let last ← s.slot (lockCount - 1)
  s.setSlot i last

/-- The search loop from index `i` on, with `count` indices left. -/
def findFrom (s : Lockset) (mutex : Address) : ℕ → ℤ → Option (Option ℤ)
  | 0, _ => some none
  | count + 1, i => do
    let x ← s.slot i
    if x = mutex then some (some i) else s.findFrom mutex count (i + 1)

/-- The first index below `lockCount` at which the mutex is. -/
def find (s : Lockset) (mutex : Address) (lockCount : ℤ) : Option (Option ℤ) :=
  s.findFrom mutex lockCount.toNat 0

/-- `add_one_mutex`. -/
def addOneMutex (s : Lockset) (mutex : Address) : Option Lockset :=
  if s.overflow = false then do
    let s := s.incr
    let s ← s.setSlot (s.n - 1) mutex
    return s.noteFull
  else
    return s

/-- `remove_one_mutex`. -/
def removeOneMutex (s : Lockset) (mutex : Address) : Option Lockset := do
  let lockCount := s.n
  match ← s.find mutex lockCount with
  | none => return s
  | some i =>
    let s := s.decr
    let s ← s.moveLast i lockCount
    return s.clearOverflow

/-- One of the two. -/
def apply (s : Lockset) : Call Address → Option Lockset
  | .add mutex => s.addOneMutex mutex
  | .remove mutex => s.removeOneMutex mutex

/-- A sequence of calls. -/
def applyAll (s : Lockset) (w : List (Call Address)) : Option Lockset := w.foldlM apply s

/-- The counted slots. -/
def locks (s : Lockset) : List Address := s.lockset.toList.take s.n.toNat

/-! ## Counted slots -/

/-- The counted slots of `s` are `l`. -/
structure Shows (s : Lockset) (l : List Address) : Prop where
  /-- The counter is the length of the list. -/
  n_eq : s.n = l.length
  /-- The slots below it are the list. -/
  isPrefix : l <+: s.lockset.toList

section Shows

variable {s : Lockset} {l base mid : List Address} {x y : Address}

theorem Shows.locks_eq (h : s.Shows l) : s.locks = l := by
  rw [locks, h.n_eq, Int.toNat_natCast]
  exact (List.prefix_iff_eq_take.mp h.isPrefix).symm

theorem Shows.length_le (h : s.Shows l) : l.length ≤ 10 := by
  have hlen := h.isPrefix.length_le
  rwa [Vector.length_toList] at hlen

theorem shows_fresh (slots : Vector Address 10) : (fresh slots).Shows [] := ⟨rfl, List.nil_prefix⟩

@[simp] theorem slot_natCast (s : Lockset) (i : ℕ) : s.slot i = s.lockset.toList[i]? := by
  rw [slot, if_pos (Int.natCast_nonneg i), Int.toNat_natCast, Vector.getElem?_toList]

theorem Shows.slot_eq (h : s.Shows (base ++ x :: mid)) : s.slot base.length = some x := by
  obtain ⟨rest, hrest⟩ := h.isPrefix
  rw [slot_natCast, ← hrest, List.append_assoc, List.getElem?_append_right le_rfl, Nat.sub_self]
  rfl

theorem exists_slot (s : Lockset) {i : ℕ} (hi : i < 10) : ∃ x, s.slot i = some x := by
  rw [slot_natCast]
  exact ⟨_, List.getElem?_eq_getElem (by rwa [Vector.length_toList])⟩

/-- Advancing the counter counts one more slot, whatever is in it. -/
theorem Shows.incr (h : s.Shows l) (hx : s.slot l.length = some x) : s.incr.Shows (l ++ [x]) := by
  obtain ⟨rest, hrest⟩ := h.isPrefix
  rw [slot_natCast, ← hrest, List.getElem?_append_right le_rfl, Nat.sub_self] at hx
  refine ⟨?_, ?_⟩
  · rw [Lockset.incr, h.n_eq, List.length_append, List.length_singleton, Nat.cast_add, Nat.cast_one]
  · obtain ⟨rest', rfl⟩ : ∃ rest', rest = x :: rest' := by
      cases rest with
      | nil => exact absurd hx (by simp)
      | cons y rest' =>
        cases hx
        exact ⟨rest', rfl⟩
    rw [Lockset.incr, ← hrest]
    exact ⟨rest', by rw [List.append_assoc, List.singleton_append]⟩

theorem Shows.decr (h : s.Shows (l ++ [x])) : s.decr.Shows l := by
  refine ⟨?_, (List.prefix_append l [x]).trans h.isPrefix⟩
  rw [Lockset.decr, h.n_eq, List.length_append, List.length_singleton]
  push_cast
  omega

private theorem exists_setSlot (s : Lockset) {i : ℕ} (hi : i < 10) (y : Address) :
    ∃ s', s.setSlot i y = some s' ∧ s'.n = s.n ∧ s'.overflow = s.overflow
      ∧ s'.lockset.toList = s.lockset.toList.set i y := by
  have hbound : (0 : ℤ) ≤ i ∧ (i : ℤ) < 10 := by omega
  refine ⟨_, dif_pos hbound, rfl, rfl, ?_⟩
  simp only [Int.toNat_natCast, Vector.toList_set]

theorem Shows.setSlot (h : s.Shows (base ++ x :: mid)) (y : Address) :
    ∃ s', s.setSlot base.length y = some s' ∧ s'.Shows (base ++ y :: mid)
      ∧ s'.overflow = s.overflow := by
  have hi : base.length < 10 := by
    have hle := h.length_le
    rw [List.length_append, List.length_cons] at hle
    omega
  obtain ⟨s', hset, hn, hflag, hslots⟩ := exists_setSlot s hi y
  refine ⟨s', hset, ⟨?_, ?_⟩, hflag⟩
  · rw [hn, h.n_eq, List.length_append, List.length_append, List.length_cons, List.length_cons]
  · obtain ⟨rest, hrest⟩ := h.isPrefix
    rw [hslots, ← hrest]
    refine ⟨rest, ?_⟩
    rw [List.append_assoc, List.append_assoc, List.set_append_right _ _ le_rfl, Nat.sub_self]
    rfl

private theorem Shows.setSlot_of_le (h : s.Shows l) {i : ℕ} (hl : l.length ≤ i) (hi : i < 10)
    (y : Address) :
    ∃ s', s.setSlot i y = some s' ∧ s'.Shows l ∧ s'.overflow = s.overflow
      ∧ s'.slot i = some y := by
  obtain ⟨s', hset, hn, hflag, hslots⟩ := exists_setSlot s hi y
  refine ⟨s', hset, ⟨hn.trans h.n_eq, ?_⟩, hflag, ?_⟩
  · obtain ⟨rest, hrest⟩ := h.isPrefix
    rw [hslots, ← hrest, List.set_append_right _ _ hl]
    exact List.prefix_append l _
  · rw [slot_natCast, hslots, List.getElem?_set_self]
    rwa [Vector.length_toList]

private theorem findFrom_eq {rest : List Address} (h : s.Shows (base ++ rest)) (hx : x ∉ base) :
    s.findFrom x rest.length base.length
      = some (if x ∈ base ++ rest then some ((base ++ rest).idxOf x : ℤ) else none) := by
  induction rest generalizing base with
  | nil =>
    rw [List.append_nil, if_neg hx]
    rfl
  | cons y rest ih =>
    rw [List.length_cons, findFrom, h.slot_eq, Option.bind_eq_bind, Option.bind_some]
    by_cases hy : y = x
    · subst hy
      rw [if_pos rfl, if_pos (by simp), List.idxOf_append_of_notMem hx, List.idxOf_cons_self,
        Nat.add_zero]
    · have happ : base ++ y :: rest = (base ++ [y]) ++ rest := by
        rw [List.append_assoc, List.singleton_append]
      have hx' : x ∉ base ++ [y] := by
        simp only [List.mem_append, List.mem_singleton, not_or]
        exact ⟨hx, Ne.symm hy⟩
      have hlen : (base.length : ℤ) + 1 = (base ++ [y]).length := by simp
      rw [if_neg hy, happ, hlen]
      exact ih (happ ▸ h) hx'

theorem Shows.find_eq (h : s.Shows l) (x : Address) :
    s.find x l.length = some (if x ∈ l then some (l.idxOf x : ℤ) else none) := by
  rw [find, Int.toNat_natCast]
  exact @findFrom_eq s [] x l h (List.not_mem_nil)

end Shows

/-! ## The functions on a consistent lockset -/

/-- The counted slots are `l`, and the flag says whether the array is full. -/
structure Consistent (s : Lockset) (l : List Address) : Prop extends s.Shows l where
  /-- The flag is right. -/
  overflow_iff : s.overflow = true ↔ l.length = 10

section Consistent

variable {s : Lockset} {l base : List Address} {x : Address}

theorem consistent_fresh (slots : Vector Address 10) : (fresh slots).Consistent [] where
  toShows := shows_fresh slots
  overflow_iff := by simp [fresh]

theorem Shows.consistent (h : s.Shows l) (hflag : s.overflow = false) (hlen : l.length < 10) :
    s.Consistent l := by
  refine ⟨h, ?_⟩
  rw [hflag]
  simp only [Bool.false_eq_true, false_iff]
  omega

theorem Shows.noteFull (h : s.Shows l) (hflag : s.overflow = false) : s.noteFull.Consistent l := by
  rw [Lockset.noteFull]
  have hn := h.n_eq
  split_ifs with hfull
  · exact ⟨⟨hn, h.isPrefix⟩, by simp only [true_iff]; omega⟩
  · exact h.consistent hflag (lt_of_le_of_ne h.length_le (by omega))

theorem Shows.clearOverflow (h : s.Shows l) (hlen : l.length < 10) :
    s.clearOverflow.Consistent l := by
  rw [Lockset.clearOverflow]
  split_ifs with hflag
  · exact ⟨⟨h.n_eq, h.isPrefix⟩, by simp only [Bool.false_eq_true, false_iff]; omega⟩
  · exact h.consistent (Bool.eq_false_of_not_eq_true hflag) hlen

theorem addOneMutex_of_overflow (h : s.overflow = true) (x : Address) :
    s.addOneMutex x = some s := by
  rw [addOneMutex, if_neg (by rw [h]; decide)]
  rfl

theorem Consistent.addOneMutex (h : s.Consistent l) (x : Address) :
    ∃ s', s.addOneMutex x = some s' ∧ s'.Consistent (push 10 l x) := by
  by_cases hflag : s.overflow = true
  · have hfull : l.length = 10 := h.overflow_iff.mp hflag
    refine ⟨s, addOneMutex_of_overflow hflag x, ?_⟩
    rwa [push, if_neg (by omega)]
  · have hroom : l.length < 10 :=
      lt_of_le_of_ne h.length_le fun heq ↦ hflag (h.overflow_iff.mpr heq)
    rw [Bool.not_eq_true] at hflag
    obtain ⟨g, hg⟩ := exists_slot s hroom
    have hincr := h.toShows.incr hg
    obtain ⟨s', hset, hshows, hflag'⟩ := hincr.setSlot x
    refine ⟨s'.noteFull, ?_, ?_⟩
    · have hindex : s.incr.n - 1 = l.length := by
        rw [hincr.n_eq]
        simp
      rw [Lockset.addOneMutex, if_pos hflag]
      simp only [hindex, hset, Option.bind_eq_bind, Option.bind_some]
      rfl
    · rw [push, if_pos hroom]
      exact hshows.noteFull (hflag'.trans hflag)

theorem Shows.removeOneMutex_of_not_mem (h : s.Shows l) (hx : x ∉ l) :
    s.removeOneMutex x = some s := by
  rw [removeOneMutex, h.n_eq, h.find_eq x, if_neg hx]
  rfl

private theorem Shows.removeOneMutex_of_mem (h : s.Shows l) (hx : x ∈ l) :
    s.removeOneMutex x = (s.decr.moveLast (l.idxOf x) l.length).map Lockset.clearOverflow := by
  rw [removeOneMutex, h.n_eq, h.find_eq x, if_pos hx]
  change (s.decr.moveLast (l.idxOf x) l.length >>= fun s' ↦ some s'.clearOverflow) = _
  cases s.decr.moveLast (l.idxOf x) l.length <;> rfl

theorem Shows.moveLast_self (h : s.Shows base) (hx : s.slot base.length = some x)
    (hlen : base.length < 10) :
    ∃ s', s.moveLast base.length (base.length + 1) = some s' ∧ s'.Shows base
      ∧ s'.overflow = s.overflow ∧ s'.slot base.length = some x := by
  obtain ⟨s', hset, hshows, hflag, hslot⟩ := h.setSlot_of_le le_rfl hlen x
  refine ⟨s', ?_, hshows, hflag, hslot⟩
  rw [moveLast, add_sub_cancel_right, hx]
  exact hset

theorem Shows.moveLast_cons {mid : List Address} {y : Address} (h : s.Shows (base ++ x :: mid))
    (hy : s.slot (base ++ x :: mid).length = some y) :
    ∃ s', s.moveLast base.length ((base ++ x :: mid).length + 1) = some s'
      ∧ s'.Shows (base ++ y :: mid) ∧ s'.overflow = s.overflow := by
  obtain ⟨s', hset, hshows, hflag⟩ := h.setSlot y
  refine ⟨s', ?_, hshows, hflag⟩
  rw [moveLast, add_sub_cancel_right, hy]
  exact hset

@[simp] theorem slot_decr (s : Lockset) (i : ℤ) : s.decr.slot i = s.slot i := rfl

@[simp] theorem slot_clearOverflow (s : Lockset) (i : ℤ) : s.clearOverflow.slot i = s.slot i := by
  rw [Lockset.clearOverflow]
  split_ifs <;> rfl

/-- A mutex in the last counted slot only stays in that slot, which is not counted any more. -/
theorem Shows.removeOneMutex_last (h : s.Shows (base ++ [x])) (hx : x ∉ base) :
    ∃ s', s.removeOneMutex x = some s' ∧ s'.Consistent base ∧ s'.slot base.length = some x := by
  have hlen : base.length < 10 := by
    have hle := h.length_le
    rw [List.length_append, List.length_singleton] at hle
    omega
  obtain ⟨s', hmove, hshows, -, hslot⟩ := h.decr.moveLast_self h.slot_eq hlen
  refine ⟨s'.clearOverflow, ?_, hshows.clearOverflow hlen, by rwa [slot_clearOverflow]⟩
  rw [h.removeOneMutex_of_mem (by simp), List.idxOf_append_of_notMem hx, List.idxOf_cons_self,
    List.length_append, List.length_singleton, Nat.add_zero, Nat.cast_add, Nat.cast_one, hmove]
  rfl

theorem Consistent.removeOneMutex (h : s.Consistent l) (x : Address) :
    ∃ s', s.removeOneMutex x = some s' ∧ s'.Consistent (swapRemove l x) := by
  by_cases hx : x ∈ l
  · obtain ⟨base, hbase, rfl | ⟨mid, y, rfl⟩⟩ := exists_split_of_mem hx
    · obtain ⟨s', hremove, hcons, -⟩ := h.toShows.removeOneMutex_last hbase
      refine ⟨s', hremove, ?_⟩
      rwa [swapRemove_append_singleton hbase]
    · have hlen : (base ++ y :: mid).length < 10 := by
        have hle := h.length_le
        simp only [List.length_append, List.length_cons] at hle ⊢
        omega
      obtain ⟨s', hmove, hshows, -⟩ := h.toShows.decr.moveLast_cons h.toShows.slot_eq
      refine ⟨s'.clearOverflow, ?_, ?_⟩
      · rw [h.toShows.removeOneMutex_of_mem hx, List.append_assoc,
          List.idxOf_append_of_notMem hbase, List.cons_append, List.idxOf_cons_self, Nat.add_zero,
          ← List.cons_append, ← List.append_assoc, List.length_append, List.length_singleton,
          Nat.cast_add, Nat.cast_one, hmove]
        rfl
      · rw [swapRemove_append_cons_append hbase]
        exact hshows.clearOverflow hlen
  · refine ⟨s, h.toShows.removeOneMutex_of_not_mem hx, ?_⟩
    rwa [swapRemove_of_not_mem hx]

/-- The functions are the operations of a bag of capacity ten. -/
theorem Consistent.apply (h : s.Consistent l) (call : Call Address) :
    ∃ s', s.apply call = some s' ∧ s'.Consistent (exec 10 l call) := by
  cases call with
  | add x => exact h.addOneMutex x
  | remove x => exact h.removeOneMutex x

theorem Consistent.applyAll (h : s.Consistent l) (w : List (Call Address)) :
    ∃ s', s.applyAll w = some s' ∧ s'.Consistent (execAll 10 l w) := by
  induction w generalizing s l with
  | nil => exact ⟨s, rfl, h⟩
  | cons call w ih =>
    obtain ⟨s₁, hs₁, hcons⟩ := h.apply call
    obtain ⟨s', hs', hcons'⟩ := ih hcons
    refine ⟨s', ?_, hcons'⟩
    rw [Lockset.applyAll, List.foldlM_cons, hs₁]
    exact hs'

end Consistent

end Lockset

end Racez
