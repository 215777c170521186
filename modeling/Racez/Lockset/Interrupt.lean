import Racez.Lockset.Basic

/-!
# Lockset updates interrupted by signals

A signal handler may run between any two statements of `add_one_mutex` and `remove_one_mutex`. It
calls the same functions on the same lockset, for mutexes of its own, and releases what it takes.
The handlers that run at each boundary are lists of calls here, so that the uninterrupted function
is the one with empty lists.

Both functions advance the counter before they touch a slot, with the intention that a handler finds
a lockset in order at every boundary. The results say what that achieves.

* In `add_one_mutex` a handler behind the increment finds one more slot counted than the flag knows
  of: with nine mutexes held it is led to store outside the array. It also finds a slot with foreign
  content; if it is refused room for a mutex it finds there, the slot is removed in its place.
* In `remove_one_mutex` a handler behind the decrement finds the last slot free and overwrites it,
  before the interrupted function has moved its content.

## What a handler can do

A handler takes mutexes of its own and releases them before it returns, so its calls are balanced
and none of its mutexes is one of the thread's. On a lockset that is in order it leaves nothing
behind, whether there was room for it or not. Two situations in the middle of a function are
different.

One more slot is counted than the flag knows of. If the array is full then, the first mutex of the
handler goes to the slot behind the array. Otherwise the handler works with the slot as with any
other, and unless it is refused room for just the mutex it finds there it leaves the slot alone
(`Undisturbed`).

The last slot is not counted any more, though the function still needs it. Any handler that takes a
mutex writes there (`Consistent.slotIs_of_handler`), and the function copies what it finds. This
does no harm only if the slot itself is the one that is removed, or if the handler does nothing at
that point.

Both results are equivalences for all reachable locksets and all handlers, at each boundary of the
functions.
-/

open Container

namespace Racez

namespace Lockset

/-! ## The interrupted functions -/

/-- `add_one_mutex` with handlers after the test of the flag, the increment and the store. -/
def addInterrupted (s : Lockset) (mutex : Address) (w₁ w₂ w₃ : List (Call Address)) :
    Option Lockset :=
  if s.overflow = false then do
    let s ← s.applyAll w₁
    let s := s.incr
    let s ← s.applyAll w₂
    let s ← s.setSlot (s.n - 1) mutex
    let s ← s.applyAll w₃
    return s.noteFull
  else
    return s

/-- `remove_one_mutex` with handlers after reading the counter, the search, the decrement and the
store. -/
def removeInterrupted (s : Lockset) (mutex : Address) (w₁ w₂ w₃ w₄ : List (Call Address)) :
    Option Lockset := do
  let lockCount := s.n
  let s ← s.applyAll w₁
  match ← s.find mutex lockCount with
  | none => return s
  | some i =>
    let s ← s.applyAll w₂
    let s := s.decr
    let s ← s.applyAll w₃
    let s ← s.moveLast i lockCount
    let s ← s.applyAll w₄
    return s.clearOverflow

@[simp] theorem addInterrupted_nil (s : Lockset) (mutex : Address) :
    s.addInterrupted mutex [] [] [] = s.addOneMutex mutex := rfl

@[simp] theorem removeInterrupted_nil (s : Lockset) (mutex : Address) :
    s.removeInterrupted mutex [] [] [] [] = s.removeOneMutex mutex := rfl

/-! ## Reachable locksets and handlers -/

/-- The locksets of a thread between two calls, with the mutexes the thread holds. -/
inductive Reachable : Lockset → Multiset Address → Prop
  | fresh (slots : Vector Address 10) : Reachable (fresh slots) 0
  | add {s s' : Lockset} {held : Multiset Address} (mutex : Address) :
      Reachable s held → s.addOneMutex mutex = some s' → Reachable s' (mutex ::ₘ held)
  | remove {s s' : Lockset} {held : Multiset Address} (mutex : Address) :
      Reachable s held → s.removeOneMutex mutex = some s' → Reachable s' (held.erase mutex)

/-- A handler run by a thread that holds the mutexes in `held`. -/
structure Handler (held : Multiset Address) (w : List (Call Address)) : Prop where
  /-- It releases what it takes. -/
  balanced : Balanced w
  /-- Its mutexes are not those of the thread. -/
  foreign : ∀ call ∈ w, call.arg ∉ held

/-- The counter, the flag and the counted slots agree, the latter up to order. -/
structure SameLocks (s s' : Lockset) : Prop where
  /-- The counters are the same. -/
  n_eq : s.n = s'.n
  /-- So are the flags. -/
  overflow_eq : s.overflow = s'.overflow
  /-- So are the counted mutexes, in some order. -/
  locks_eq : (s.locks : Multiset Address) = s'.locks

section Handlers

variable {s : Lockset} {l base : List Address} {held : Multiset Address} {w : List (Call Address)}
  {x : Address}

/-- The lockset is in order, and counts no more than the thread holds. -/
theorem Reachable.exists_consistent (h : Reachable s held) :
    ∃ l : List Address, s.Consistent l ∧ (l : Multiset Address) ≤ held := by
  induction h with
  | fresh slots => exact ⟨[], consistent_fresh slots, Multiset.zero_le 0⟩
  | add mutex _ hadd ih =>
    obtain ⟨l, hcons, hle⟩ := ih
    obtain ⟨s', hadd', hcons'⟩ := hcons.addOneMutex mutex
    obtain rfl := Option.some.inj (hadd.symm.trans hadd')
    exact ⟨_, hcons', coe_push_le hle⟩
  | remove mutex _ hremove ih =>
    obtain ⟨l, hcons, hle⟩ := ih
    obtain ⟨s', hremove', hcons'⟩ := hcons.removeOneMutex mutex
    obtain rfl := Option.some.inj (hremove.symm.trans hremove')
    refine ⟨_, hcons', ?_⟩
    rw [coe_swapRemove]
    exact Multiset.erase_le_erase mutex hle

theorem Consistent.sameLocks {s' : Lockset} {l' : List Address} (h : s.Consistent l)
    (h' : s'.Consistent l') (hperm : l.Perm l') : SameLocks s s' where
  n_eq := by rw [h.n_eq, h'.n_eq, hperm.length_eq]
  overflow_eq := by rw [Bool.eq_iff_iff, h.overflow_iff, h'.overflow_iff, hperm.length_eq]
  locks_eq := by
    rw [h.locks_eq, h'.locks_eq]
    exact Multiset.coe_eq_coe.mpr hperm

theorem Handler.not_mem (hw : Handler held w) (hle : (l : Multiset Address) ≤ held) :
    ∀ call ∈ w, call.arg ∉ l :=
  fun call hcall hmem ↦ hw.foreign call hcall (Multiset.mem_of_le hle (Multiset.mem_coe.mpr hmem))

private theorem Shows.applyAll_of_overflow (h : s.Shows l) (hflag : s.overflow = true)
    (hw : ∀ call ∈ w, call.arg ∉ l) : s.applyAll w = some s := by
  induction w with
  | nil => rfl
  | cons call w ih =>
    have happly : s.apply call = some s := by
      rcases call with mutex | mutex
      · exact addOneMutex_of_overflow hflag mutex
      · exact h.removeOneMutex_of_not_mem (hw _ List.mem_cons_self)
    rw [applyAll, List.foldlM_cons, happly]
    exact ih fun call' hcall ↦ hw call' (List.mem_cons_of_mem call hcall)

theorem Shows.applyAll_handler (h : s.Shows l) (hflag : s.overflow = true ∨ l.length < 10)
    (hw : Handler held w) (hle : (l : Multiset Address) ≤ held) :
    ∃ s', s.applyAll w = some s' ∧ s'.Shows l ∧ s'.overflow = s.overflow := by
  have hnot := hw.not_mem hle
  by_cases hover : s.overflow = true
  · exact ⟨s, h.applyAll_of_overflow hover hnot, h, rfl⟩
  · have hlen := hflag.resolve_left hover
    rw [Bool.not_eq_true] at hover
    obtain ⟨s', hrun, hcons⟩ := (h.consistent hover hlen).applyAll w
    rw [execAll_append_of_settles hnot hw.balanced] at hcons
    refine ⟨s', hrun, hcons.toShows, ?_⟩
    rw [hover, ← Bool.not_eq_true, hcons.overflow_iff]
    exact hlen.ne

end Handlers

/-! ## `add_one_mutex` -/

/-- A handler that finds `count` slots in order and one more with content `g` leaves them alone if
it does nothing, or if the array is not full and it is never refused room for `g`. -/
def Undisturbed (count : ℕ) (g : Address) (w : List (Call Address)) : Prop :=
  w = [] ∨ count + 1 < 10 ∧ ¬Refused g (10 - count) [g] w

instance (count : ℕ) (g : Address) (w : List (Call Address)) :
    Decidable (Undisturbed count g w) :=
  inferInstanceAs (Decidable (_ ∨ _ ∧ _))

/-- The interrupted call stores inside the array only, and leaves what the uninterrupted one
does. -/
def AddSafe (s : Lockset) (mutex : Address) (w₁ w₂ w₃ : List (Call Address)) : Prop :=
  ∃ s' s₀, s.addInterrupted mutex w₁ w₂ w₃ = some s' ∧ s.addOneMutex mutex = some s₀
    ∧ SameLocks s' s₀

section Add

variable {s : Lockset} {l : List Address} {held : Multiset Address}
  {w w₁ w₂ w₃ : List (Call Address)} {g m : Address}

/-- With nine slots in order and one more counted, the first mutex of a handler is stored outside
the array. -/
theorem Shows.applyAll_eq_none (h : s.Shows (l ++ [g])) (hflag : s.overflow = false)
    (hlen : l.length = 9) (hw : Balanced w) (hne : w ≠ []) : s.applyAll w = none := by
  obtain ⟨x, w', rfl⟩ := hw.exists_add hne
  have hn : s.incr.n - 1 = 10 := by
    rw [Lockset.incr, h.n_eq, List.length_append, hlen]
    rfl
  have hset : s.incr.setSlot (s.incr.n - 1) x = none := by
    rw [hn]
    exact dif_neg (by decide)
  have hadd : s.apply (.add x) = none := by
    rw [apply, addOneMutex, if_pos hflag]
    change (s.incr.setSlot (s.incr.n - 1) x >>= fun s' ↦ some s'.noteFull) = none
    rw [hset]
    rfl
  rw [applyAll, List.foldlM_cons, hadd]
  rfl

section Slot

variable (h : s.Shows (l ++ [g])) (hflag : s.overflow = false) (hw : Handler held w)
  (hle : (l : Multiset Address) ≤ held)

include h hflag hw hle

private theorem Shows.applyAll_of_undisturbed (hquiet : Undisturbed l.length g w) :
    ∃ s', s.applyAll w = some s' ∧ s'.Shows (l ++ [g]) ∧ s'.overflow = false := by
  rcases hquiet with rfl | ⟨hroom, hrefused⟩
  · exact ⟨s, rfl, h, hflag⟩
  · have hlen : (l ++ [g]).length < 10 := by rwa [List.length_append, List.length_singleton]
    obtain ⟨s', hrun, hcons⟩ := (h.consistent hflag hlen).applyAll w
    rw [execAll_stale (hw.not_mem hle) hw.balanced, if_neg hrefused] at hcons
    refine ⟨s', hrun, hcons.toShows, ?_⟩
    rw [← Bool.not_eq_true, hcons.overflow_iff]
    exact hlen.ne

/-- A handler that disturbs the slot stores outside the array or takes the slot away. -/
theorem Shows.applyAll_of_not_undisturbed (hnot : ¬Undisturbed l.length g w) {s' : Lockset}
    (hrun : s.applyAll w = some s') : s'.Consistent l := by
  have hne : w ≠ [] := fun hnil ↦ hnot (Or.inl hnil)
  have hle' : l.length + 1 ≤ 10 := by
    have hlen := h.length_le
    rwa [List.length_append, List.length_singleton] at hlen
  rcases eq_or_lt_of_le hle' with hfull | hroom
  · have hnone := h.applyAll_eq_none hflag (Nat.succ_injective hfull) hw.balanced hne
    exact absurd (hnone.symm.trans hrun) (Option.some_ne_none s').symm
  · have hrefused : Refused g (10 - l.length) [g] w := by
      by_contra hrefused
      exact hnot (Or.inr ⟨hroom, hrefused⟩)
    have hlen : (l ++ [g]).length < 10 := by rwa [List.length_append, List.length_singleton]
    obtain ⟨s'', hrun', hcons⟩ := (h.consistent hflag hlen).applyAll w
    obtain rfl := Option.some.inj (hrun.symm.trans hrun')
    rwa [execAll_stale (hw.not_mem hle) hw.balanced, if_pos hrefused, List.append_nil] at hcons

/-- Disturbed or not, the handler does not leave more slots counted than it found. -/
theorem Shows.n_applyAll_le {s' : Lockset} (hrun : s.applyAll w = some s') :
    s'.n ≤ l.length + 1 := by
  by_cases hquiet : Undisturbed l.length g w
  · obtain ⟨s'', hrun', hshows, -⟩ := h.applyAll_of_undisturbed hflag hw hle hquiet
    obtain rfl := Option.some.inj (hrun.symm.trans hrun')
    rw [hshows.n_eq, List.length_append]
    exact le_rfl
  · rw [(h.applyAll_of_not_undisturbed hflag hw hle hquiet hrun).n_eq]
    omega

end Slot

@[simp] theorem n_noteFull (s : Lockset) : s.noteFull.n = s.n := by
  rw [noteFull]
  split_ifs <;> rfl

theorem Shows.setSlot_last (h : s.Shows (l ++ [g])) (m : Address) :
    ∃ s', s.setSlot (s.n - 1) m = some s' ∧ s'.Shows (l ++ [m]) ∧ s'.overflow = s.overflow := by
  have hindex : s.n - 1 = l.length := by
    rw [h.n_eq, List.length_append, List.length_singleton]
    push_cast
    omega
  rw [hindex]
  exact h.setSlot m

private theorem addInterrupted_eq_some {s' : Lockset} (hflag : s.overflow = false) :
    s.addInterrupted m w₁ w₂ w₃ = some s'
      ↔ ∃ s₁ s₂ s₃ s₄, s.applyAll w₁ = some s₁ ∧ s₁.incr.applyAll w₂ = some s₂
        ∧ s₂.setSlot (s₂.n - 1) m = some s₃ ∧ s₃.applyAll w₃ = some s₄ ∧ s₄.noteFull = s' := by
  rw [addInterrupted, if_pos hflag]
  simp only [Option.bind_eq_bind, Option.bind_eq_some_iff, Option.pure_def, Option.some.injEq]
  constructor
  · rintro ⟨s₁, h₁, s₂, h₂, s₃, h₃, s₄, h₄, h⟩
    exact ⟨s₁, s₂, s₃, s₄, h₁, h₂, h₃, h₄, h⟩
  · rintro ⟨s₁, s₂, s₃, s₄, h₁, h₂, h₃, h₄, h⟩
    exact ⟨s₁, h₁, s₂, h₂, s₃, h₃, s₄, h₄, h⟩

/-- After a second handler that took the claimed slot away, too few slots are counted at the end. -/
theorem Consistent.n_le_of_setSlot (h : s.Consistent l) (hlen : l.length < 10)
    (hw : Handler held w) (hle : (l : Multiset Address) ≤ held) {s₃ s₄ : Lockset}
    (hset : s.setSlot (s.n - 1) m = some s₃) (hrun : s₃.applyAll w = some s₄) :
    s₄.n ≤ l.length := by
  have hflag : s.overflow = false := by
    rw [← Bool.not_eq_true, h.overflow_iff]
    exact hlen.ne
  rcases List.eq_nil_or_concat l with rfl | ⟨l', z, rfl⟩
  · -- the store would go in front of the array
    have hnone : s.setSlot (s.n - 1) m = none := by
      rw [h.n_eq]
      exact dif_neg (by decide)
    exact absurd (hnone.symm.trans hset) (Option.some_ne_none s₃).symm
  · rw [List.concat_eq_append] at h hle ⊢
    obtain ⟨s₃', hset', hshows, hflag'⟩ := h.toShows.setSlot_last m
    obtain rfl := Option.some.inj (hset.symm.trans hset')
    have hle' : (l' : Multiset Address) ≤ held :=
      le_trans (Multiset.coe_le.mpr (List.sublist_append_left l' [z]).subperm) hle
    refine (hshows.n_applyAll_le (hflag'.trans hflag) hw hle' hrun).trans ?_
    rw [List.length_append]
    exact le_rfl

/-- **`add_one_mutex` under interruption.** The interrupted call is safe exactly when the lockset is
full, or the handlers behind the increment and behind the store both leave the claimed slot alone:
the one behind the increment finds there what the first handler left, the one behind the store finds
the new mutex. -/
theorem addInterrupted_safe_iff (h : Reachable s held) (h₁ : Handler held w₁)
    (h₂ : Handler held w₂) (h₃ : Handler held w₃) :
    AddSafe s m w₁ w₂ w₃ ↔ s.overflow = true
      ∨ ∃ s₁ g, s.applyAll w₁ = some s₁ ∧ s₁.slot s.n = some g
        ∧ Undisturbed s.n.toNat g w₂ ∧ Undisturbed s.n.toNat m w₃ := by
  obtain ⟨l, hcons, hle⟩ := h.exists_consistent
  by_cases hflag : s.overflow = true
  · -- a full set is left alone
    refine iff_of_true ⟨s, s, ?_, addOneMutex_of_overflow hflag m, hcons.sameLocks hcons (.refl _)⟩
      (Or.inl hflag)
    rw [addInterrupted, if_neg (by rw [hflag]; decide)]
    rfl
  have hlen : l.length < 10 :=
    lt_of_le_of_ne hcons.length_le fun heq ↦ hflag (hcons.overflow_iff.mpr heq)
  rw [or_iff_right hflag]
  rw [Bool.not_eq_true] at hflag
  obtain ⟨s₀, hadd, hcons₀⟩ := hcons.addOneMutex m
  rw [push, if_pos hlen] at hcons₀
  obtain ⟨s₁, hrun₁, hshows₁, hflag₁⟩ := hcons.toShows.applyAll_handler (Or.inr hlen) h₁ hle
  obtain ⟨g, hg⟩ := exists_slot s₁ hlen
  have hincr : s₁.incr.Shows (l ++ [g]) := hshows₁.incr hg
  have hflag₁' : s₁.incr.overflow = false := hflag₁.trans hflag
  rw [hcons.n_eq, Int.toNat_natCast]
  constructor
  · rintro ⟨s', s₀', hinter, hadd', hsame⟩
    obtain rfl := Option.some.inj (hadd.symm.trans hadd')
    obtain ⟨s₁', s₂, s₃, s₄, hrun₁', hrun₂, hset, hrun₃, rfl⟩ :=
      (addInterrupted_eq_some hflag).mp hinter
    obtain rfl := Option.some.inj (hrun₁.symm.trans hrun₁')
    have hn : s₄.n = l.length + 1 := by
      rw [← n_noteFull, hsame.n_eq, hcons₀.n_eq, List.length_append]
      rfl
    -- a handler that disturbs the slot takes it away, and nobody counts it again
    have hquiet₂ : Undisturbed l.length g w₂ := by
      by_contra hnot
      have hcons₂ := hincr.applyAll_of_not_undisturbed hflag₁' h₂ hle hnot hrun₂
      have hle₄ := hcons₂.n_le_of_setSlot hlen h₃ hle hset hrun₃
      omega
    refine ⟨s₁, g, hrun₁, hg, hquiet₂, ?_⟩
    by_contra hnot
    obtain ⟨s₂', hrun₂', hshows₂, hflag₂⟩ := hincr.applyAll_of_undisturbed hflag₁' h₂ hle hquiet₂
    obtain rfl := Option.some.inj (hrun₂.symm.trans hrun₂')
    obtain ⟨s₃', hset', hshows₃, hflag₃⟩ := hshows₂.setSlot_last m
    obtain rfl := Option.some.inj (hset.symm.trans hset')
    have hcons₄ :=
      hshows₃.applyAll_of_not_undisturbed (hflag₃.trans hflag₂) h₃ hle hnot hrun₃
    have hn₄ := hcons₄.n_eq
    omega
  · rintro ⟨s₁', g', hrun₁', hg', hquiet₂, hquiet₃⟩
    obtain rfl := Option.some.inj (hrun₁.symm.trans hrun₁')
    obtain rfl := Option.some.inj (hg.symm.trans hg')
    -- undisturbed, the slot holds the mutex in the end
    obtain ⟨s₂, hrun₂, hshows₂, hflag₂⟩ := hincr.applyAll_of_undisturbed hflag₁' h₂ hle hquiet₂
    obtain ⟨s₃, hset, hshows₃, hflag₃⟩ := hshows₂.setSlot_last m
    obtain ⟨s₄, hrun₃, hshows₄, hflag₄⟩ :=
      hshows₃.applyAll_of_undisturbed (hflag₃.trans hflag₂) h₃ hle hquiet₃
    refine ⟨s₄.noteFull, s₀, ?_, hadd, (hshows₄.noteFull hflag₄).sameLocks hcons₀ (.refl _)⟩
    exact (addInterrupted_eq_some hflag).mpr ⟨s₁, s₂, s₃, s₄, hrun₁, hrun₂, hset, hrun₃, rfl⟩

end Add

/-- A handler that takes one mutex and releases it. -/
def briefHandler : List (Call Address) := [.add 96, .remove 96]

/-- The lockset of a thread that has taken the first `n` of nine mutexes. -/
def sampleLockset (n : ℕ) : Lockset :=
  ⟨n, false, Vector.ofFn fun i ↦ if i < n then BitVec.ofNat 64 (8 * i + 8) else 0⟩

/-- The mutexes that thread holds. -/
def sampleHeld (n : ℕ) : Multiset Address :=
  ((List.range n).map fun i ↦ BitVec.ofNat 64 (8 * i + 8) : List Address)

private theorem reachable_sampleLockset : ∀ n ≤ 9, Reachable (sampleLockset n) (sampleHeld n) := by
  intro n hn
  induction n with
  | zero => exact Reachable.fresh (Vector.replicate 10 0)
  | succ n ih =>
    have hadd : ∀ n < 9, (sampleLockset n).addOneMutex (BitVec.ofNat 64 (8 * n + 8))
        = some (sampleLockset (n + 1)) := by
      decide
    have hheld : sampleHeld (n + 1) = BitVec.ofNat 64 (8 * n + 8) ::ₘ sampleHeld n := by
      rw [sampleHeld, List.range_succ, List.map_append, List.map_singleton, coe_append_singleton,
        ← sampleHeld]
    rw [hheld]
    exact (ih (by omega)).add _ (hadd n hn)

theorem addInterrupted_safe_briefHandler :
    AddSafe (sampleLockset 2) 80 briefHandler briefHandler briefHandler :=
  have hhandler : Handler (sampleHeld 2) briefHandler := ⟨by decide, by decide⟩
  (addInterrupted_safe_iff (reachable_sampleLockset 2 (by decide)) hhandler hhandler
    hhandler).mpr (Or.inr ⟨_, _, rfl, rfl, by decide, by decide⟩)

/-- With nine mutexes held, a handler behind the increment stores outside the array. -/
theorem not_addSafe_nine :
    Reachable (sampleLockset 9) (sampleHeld 9) ∧ Handler (sampleHeld 9) briefHandler
      ∧ (sampleLockset 9).addInterrupted 80 [] briefHandler [] = none
      ∧ ¬AddSafe (sampleLockset 9) 80 [] briefHandler [] := by
  have hnone : (sampleLockset 9).addInterrupted 80 [] briefHandler [] = none := by decide
  refine ⟨reachable_sampleLockset 9 (by decide), ⟨by decide, by decide⟩, hnone, ?_⟩
  rintro ⟨s', s₀, hinter, -⟩
  exact absurd (hnone.symm.trans hinter) (Option.some_ne_none s').symm

/-! ## `remove_one_mutex` -/

/-- The interrupted call leaves what the uninterrupted one does. -/
def RemoveSafe (s : Lockset) (mutex : Address) (w₁ w₂ w₃ w₄ : List (Call Address)) : Prop :=
  ∃ s' s₀, s.removeInterrupted mutex w₁ w₂ w₃ w₄ = some s' ∧ s.removeOneMutex mutex = some s₀
    ∧ SameLocks s' s₀

section Remove

variable {s : Lockset} {l base mid r : List Address} {held : Multiset Address}
  {w w₁ w₂ w₃ w₄ : List (Call Address)} {m x y z : Address} {call : Call Address}

/-! ### The slot behind the counted ones -/

/-- The slot behind `base` holds an address with property `Q`. -/
def SlotIs (s : Lockset) (base : List Address) (Q : Address → Prop) : Prop :=
  ∃ z, s.slot base.length = some z ∧ Q z

/-- The handler's mutexes sit behind `base`. One call keeps the first slot there in its hands, even
when the slot stops being counted. -/
theorem Consistent.apply_slotIs {Q : Address → Prop} (h : s.Consistent (base ++ r))
    (hlen : base.length < 10) (hr : ∀ x ∈ r, Q x) (hslot : s.SlotIs base Q)
    (hbase : call.arg ∉ base) (hcall : Q call.arg) :
    ∃ s' r', s.apply call = some s' ∧ s'.Consistent (base ++ r') ∧ (∀ x ∈ r', Q x)
      ∧ s'.SlotIs base Q := by
  obtain ⟨s', happly, hcons⟩ := h.apply call
  rw [exec_append hbase] at hcons
  have hr' : ∀ x ∈ exec (10 - base.length) r call, Q x := by
    intro x hx
    rcases mem_of_mem_exec hx with hx | rfl
    · exact hr x hx
    · exact hcall
  refine ⟨s', _, happly, hcons, hr', ?_⟩
  rcases hexec : exec (10 - base.length) r call with _ | ⟨z, rest⟩
  · obtain ⟨hremove, rfl | rfl⟩ := eq_singleton_or_nil_of_exec_eq_nil hexec (by omega)
    · obtain ⟨s'', happly', -, hslot'⟩ := h.toShows.removeOneMutex_last hbase
      rw [hremove, Lockset.apply, happly'] at happly
      obtain rfl := Option.some.inj happly
      exact ⟨_, hslot', hcall⟩
    · have hnot : call.arg ∉ base ++ [] := by rwa [List.append_nil]
      rw [hremove, Lockset.apply, h.toShows.removeOneMutex_of_not_mem hnot] at happly
      obtain rfl := Option.some.inj happly
      exact hslot
  · rw [hexec] at hcons hr'
    exact ⟨z, hcons.toShows.slot_eq, hr' z List.mem_cons_self⟩

private theorem Consistent.applyAll_slotIs {Q : Address → Prop} {s' : Lockset}
    (h : s.Consistent (base ++ r)) (hlen : base.length < 10) (hr : ∀ x ∈ r, Q x)
    (hslot : s.SlotIs base Q) (hw : ∀ call ∈ w, call.arg ∉ base ∧ Q call.arg)
    (hrun : s.applyAll w = some s') : s'.SlotIs base Q := by
  induction w generalizing s r with
  | nil =>
    obtain rfl := Option.some.inj hrun
    exact hslot
  | cons call w ih =>
    obtain ⟨hbase, hcall⟩ := hw call List.mem_cons_self
    obtain ⟨s₁, r₁, happly, hcons, hr₁, hslot₁⟩ := h.apply_slotIs hlen hr hslot hbase hcall
    rw [Lockset.applyAll, List.foldlM_cons, happly] at hrun
    exact ih hcons hr₁ hslot₁ (fun call' hcall' ↦ hw call' (List.mem_cons_of_mem call hcall')) hrun

/-- A handler that does anything leaves one of its mutexes in the first slot it finds free. -/
theorem Consistent.slotIs_of_handler {s' : Lockset} (h : s.Consistent base)
    (hlen : base.length < 10) (hw : Handler held w) (hne : w ≠ [])
    (hle : (base : Multiset Address) ≤ held) (hrun : s.applyAll w = some s') :
    s'.SlotIs base fun z ↦ z ∉ held := by
  have hall : ∀ call ∈ w, call.arg ∉ base ∧ call.arg ∉ held := by
    intro call hcall
    exact ⟨hw.not_mem hle call hcall, hw.foreign call hcall⟩
  obtain ⟨x, w', rfl⟩ := hw.balanced.exists_add hne
  obtain ⟨s₁, hadd, hcons⟩ := h.addOneMutex x
  rw [push, if_pos hlen] at hcons
  have hx : x ∉ held := (hall _ List.mem_cons_self).2
  rw [Lockset.applyAll, List.foldlM_cons, Lockset.apply, hadd] at hrun
  refine hcons.applyAll_slotIs hlen ?_ ⟨x, hcons.toShows.slot_eq, hx⟩
    (fun call hcall ↦ hall call (List.mem_cons_of_mem _ hcall)) hrun
  intro y hy
  rwa [List.mem_singleton.mp hy]

/-! ### The interrupted call -/

private theorem Consistent.removeInterrupted_eq (h : s.Consistent l) (hm : m ∈ l)
    (hle : (l : Multiset Address) ≤ held) (h₁ : Handler held w₁) (h₂ : Handler held w₂)
    (w₃ w₄ : List (Call Address)) :
    ∃ s₂ : Lockset, s₂.Shows l ∧ s₂.overflow = s.overflow
      ∧ s.removeInterrupted m w₁ w₂ w₃ w₄
        = (do
          let s₃ ← s₂.decr.applyAll w₃
          let s₄ ← s₃.moveLast (l.idxOf m) l.length
          let s₅ ← s₄.applyAll w₄
          return s₅.clearOverflow) := by
  have hflag : s.overflow = true ∨ l.length < 10 := by
    rcases eq_or_lt_of_le h.length_le with hfull | hroom
    · exact Or.inl (h.overflow_iff.mpr hfull)
    · exact Or.inr hroom
  obtain ⟨s₁, hrun₁, hshows₁, hflag₁⟩ := h.toShows.applyAll_handler hflag h₁ hle
  obtain ⟨s₂, hrun₂, hshows₂, hflag₂⟩ := hshows₁.applyAll_handler (by rwa [hflag₁]) h₂ hle
  refine ⟨s₂, hshows₂, hflag₂.trans hflag₁, ?_⟩
  rw [removeInterrupted, hrun₁, Option.bind_eq_bind, Option.bind_some, h.n_eq, hshows₁.find_eq m,
    if_pos hm, Option.bind_eq_bind, Option.bind_some]
  change (s₁.applyAll w₂ >>= _) = _
  rw [hrun₂]
  rfl

/-- The mutex in the last counted slot: whatever a handler leaves in that slot, it is not counted
any more. -/
theorem Consistent.removeSafe_last (h : s.Consistent (base ++ [m])) (hm : m ∉ base)
    (hle : ((base ++ [m] : List Address) : Multiset Address) ≤ held) (h₁ : Handler held w₁)
    (h₂ : Handler held w₂) (h₃ : Handler held w₃) (h₄ : Handler held w₄) :
    RemoveSafe s m w₁ w₂ w₃ w₄ := by
  have hmem : m ∈ base ++ [m] := List.mem_append_right base (List.mem_singleton_self m)
  have hlen : base.length < 10 := by
    have hlen := h.length_le
    rwa [List.length_append, List.length_singleton] at hlen
  have hle' : (base : Multiset Address) ≤ held :=
    le_trans (Multiset.coe_le.mpr (List.sublist_append_left base [m]).subperm) hle
  obtain ⟨s₂, hshows₂, -, heq⟩ := h.removeInterrupted_eq hmem hle h₁ h₂ w₃ w₄
  obtain ⟨s₃, hrun₃, hshows₃, -⟩ := hshows₂.decr.applyAll_handler (Or.inr hlen) h₃ hle'
  obtain ⟨z, hz⟩ := exists_slot s₃ hlen
  obtain ⟨s₄, hmove, hshows₄, -, -⟩ := hshows₃.moveLast_self hz hlen
  obtain ⟨s₅, hrun₄, hshows₅, -⟩ := hshows₄.applyAll_handler (Or.inr hlen) h₄ hle'
  obtain ⟨s₀, hremove, hcons₀⟩ := h.removeOneMutex m
  rw [swapRemove_append_singleton hm] at hcons₀
  refine ⟨s₅.clearOverflow, s₀, ?_, hremove,
    (hshows₅.clearOverflow hlen).sameLocks hcons₀ (.refl _)⟩
  rw [List.idxOf_append_of_notMem hm, List.idxOf_cons_self, List.length_append,
    List.length_singleton, Nat.add_zero, Nat.cast_add, Nat.cast_one, hrun₃] at heq
  rw [heq, Option.bind_eq_bind, Option.bind_some, hmove, Option.bind_some, hrun₄]
  rfl

/-- The mutex in another slot: the slot gets what the last counted one holds after the third
handler, which is its own content or a mutex of the handler. -/
theorem Consistent.removeInterrupted_cons (h : s.Consistent (base ++ m :: mid ++ [y]))
    (hm : m ∉ base) (hle : ((base ++ m :: mid ++ [y] : List Address) : Multiset Address) ≤ held)
    (h₁ : Handler held w₁) (h₂ : Handler held w₂) (h₃ : Handler held w₃)
    (w₄ : List (Call Address)) :
    ∃ (s₄ : Lockset) (z : Address), s₄.Shows (base ++ z :: mid) ∧ s₄.overflow = s.overflow
      ∧ s.removeInterrupted m w₁ w₂ w₃ w₄ = (s₄.applyAll w₄).map Lockset.clearOverflow
      ∧ (w₃ = [] ∨ s.overflow = true → z = y)
      ∧ (¬(w₃ = [] ∨ s.overflow = true) → z ∉ held) := by
  have hmem : m ∈ base ++ m :: mid ++ [y] := by simp
  have hlen : (base ++ m :: mid).length < 10 := by
    have hlen := h.length_le
    rwa [List.length_append, List.length_singleton] at hlen
  have hsub : ((base ++ m :: mid : List Address) : Multiset Address) ≤ held :=
    le_trans (Multiset.coe_le.mpr (List.sublist_append_left _ [y]).subperm) hle
  obtain ⟨s₂, hshows₂, hflag₂, heq⟩ := h.removeInterrupted_eq hmem hle h₁ h₂ w₃ w₄
  obtain ⟨s₃, hrun₃, hshows₃, hflag₃⟩ := hshows₂.decr.applyAll_handler (Or.inr hlen) h₃ hsub
  -- what is moved is read after the count went down: `y`, unless a handler wrote there
  obtain ⟨z, hz⟩ := exists_slot s₃ hlen
  obtain ⟨s₄, hmove, hshows₄, hflag₄⟩ := hshows₃.moveLast_cons hz
  refine ⟨s₄, z, hshows₄, hflag₄.trans (hflag₃.trans hflag₂), ?_, ?_, ?_⟩
  · have hidx : (base ++ m :: mid ++ [y]).idxOf m = base.length := by
      rw [List.append_assoc, List.idxOf_append_of_notMem hm, List.cons_append,
        List.idxOf_cons_self, Nat.add_zero]
    rw [heq, hidx, List.length_append, List.length_singleton, Nat.cast_add, Nat.cast_one, hrun₃,
      Option.bind_eq_bind, Option.bind_some, hmove, Option.bind_some]
    cases s₄.applyAll w₄ <;> rfl
  · intro hsafe
    have hstill : s₂.decr.applyAll w₃ = some s₂.decr := by
      rcases hsafe with rfl | hflag
      · rfl
      · exact hshows₂.decr.applyAll_of_overflow (hflag₂.trans hflag) (h₃.not_mem hsub)
    rw [hrun₃] at hstill
    rw [Option.some.inj hstill, slot_decr, hshows₂.slot_eq] at hz
    exact (Option.some.inj hz).symm
  · intro hsafe
    rw [not_or, Bool.not_eq_true] at hsafe
    have hcons := hshows₂.decr.consistent (hflag₂.trans hsafe.2) hlen
    obtain ⟨z', hz', hforeign⟩ := hcons.slotIs_of_handler hlen h₃ hsafe.1 hsub hrun₃
    obtain rfl := Option.some.inj (hz.symm.trans hz')
    exact hforeign

@[simp] theorem locks_clearOverflow (s : Lockset) : s.clearOverflow.locks = s.locks := by
  rw [Lockset.clearOverflow]
  split_ifs <;> rfl

/-- A lockset that counts a mutex the thread does not hold in the place of one it holds is not
repaired by the fourth handler. -/
theorem Consistent.not_sameLocks_of_foreign {s₀ s' : Lockset} (h : s.Consistent (base ++ z :: mid))
    (h₀ : s₀.Consistent (base ++ y :: mid)) (hz : z ∉ held) (hy : y ∈ held) (hw : Handler held w)
    (hrun : s.applyAll w = some s') : ¬SameLocks s'.clearOverflow s₀ := by
  intro hsame
  obtain ⟨s'', hrun', hcons⟩ := h.applyAll w
  obtain rfl := Option.some.inj (hrun.symm.trans hrun')
  have hperm := Multiset.coe_eq_coe.mp hsame.locks_eq
  rw [locks_clearOverflow, hcons.locks_eq, h₀.locks_eq] at hperm
  have hcount := hperm.countP_eq fun x ↦ decide (x ∈ held)
  rw [countP_execAll (fun call hcall ↦ by simpa using hw.foreign call hcall)] at hcount
  simp [hz, hy] at hcount

/-- The mutex in another slot: the call is safe exactly when no handler found the last counted slot
free in the meantime. -/
theorem Consistent.removeSafe_cons_iff (h : s.Consistent (base ++ m :: mid ++ [y])) (hm : m ∉ base)
    (hle : ((base ++ m :: mid ++ [y] : List Address) : Multiset Address) ≤ held)
    (h₁ : Handler held w₁) (h₂ : Handler held w₂) (h₃ : Handler held w₃) (h₄ : Handler held w₄) :
    RemoveSafe s m w₁ w₂ w₃ w₄ ↔ w₃ = [] ∨ s.overflow = true := by
  obtain ⟨s₄, z, hshows₄, hflag₄, heq, hown, hforeign⟩ :=
    h.removeInterrupted_cons hm hle h₁ h₂ h₃ w₄
  obtain ⟨s₀, hremove, hcons₀⟩ := h.removeOneMutex m
  have hle₀ : ((base ++ y :: mid : List Address) : Multiset Address) ≤ held := by
    rw [← swapRemove_append_cons_append hm, coe_swapRemove]
    exact (Multiset.erase_le m _).trans hle
  rw [swapRemove_append_cons_append hm] at hcons₀
  have hlen : (base ++ z :: mid).length < 10 := by
    have hlen := h.length_le
    simp only [List.length_append, List.length_cons, List.length_nil] at hlen ⊢
    omega
  by_cases hsafe : w₃ = [] ∨ s.overflow = true
  · obtain rfl := hown hsafe
    obtain ⟨s₅, hrun₄, hshows₅, -⟩ := hshows₄.applyAll_handler (Or.inr hlen) h₄ hle₀
    refine iff_of_true ⟨s₅.clearOverflow, s₀, ?_, hremove,
      (hshows₅.clearOverflow hlen).sameLocks hcons₀ (.refl _)⟩ hsafe
    rw [heq, hrun₄, Option.map_some]
  · refine iff_of_false ?_ hsafe
    rintro ⟨s', s₀', hinter, hremove', hsame⟩
    obtain rfl := Option.some.inj (hremove.symm.trans hremove')
    rw [heq, Option.map_eq_some_iff] at hinter
    obtain ⟨s₅, hrun₄, rfl⟩ := hinter
    have hflag : s.overflow = false := by
      rw [not_or, Bool.not_eq_true] at hsafe
      exact hsafe.2
    have hy : y ∈ held := Multiset.mem_of_le hle₀ (by simp)
    exact (hshows₄.consistent (hflag₄.trans hflag) hlen).not_sameLocks_of_foreign hcons₀
      (hforeign hsafe) hy h₄ hrun₄ hsame

/-- **`remove_one_mutex` under interruption.** The interrupted call is safe exactly when no handler
runs behind the decrement, or the lockset is full, or the mutex is in the last counted slot. -/
theorem removeInterrupted_safe_iff (h : Reachable s held) (hm : m ∈ s.locks)
    (h₁ : Handler held w₁) (h₂ : Handler held w₂) (h₃ : Handler held w₃) (h₄ : Handler held w₄) :
    RemoveSafe s m w₁ w₂ w₃ w₄ ↔ w₃ = [] ∨ s.n = 10 ∨ (s.locks.idxOf m : ℤ) + 1 = s.n := by
  obtain ⟨l, hcons, hle⟩ := h.exists_consistent
  rw [hcons.locks_eq] at hm ⊢
  rw [hcons.n_eq]
  obtain ⟨base, hbase, rfl | ⟨mid, y, rfl⟩⟩ := exists_split_of_mem hm
  · refine iff_of_true (hcons.removeSafe_last hbase hle h₁ h₂ h₃ h₄) (Or.inr (Or.inr ?_))
    rw [List.idxOf_append_of_notMem hbase, List.idxOf_cons_self, List.length_append]
    rfl
  · have hidx :
        ¬((base ++ m :: mid ++ [y]).idxOf m : ℤ) + 1 = (base ++ m :: mid ++ [y]).length := by
      rw [List.append_assoc, List.idxOf_append_of_notMem hbase, List.cons_append,
        List.idxOf_cons_self, List.length_append, List.length_cons, List.length_append,
        List.length_singleton]
      omega
    have hfull : s.overflow = true ↔ ((base ++ m :: mid ++ [y]).length : ℤ) = 10 := by
      rw [hcons.overflow_iff]
      omega
    rw [hcons.removeSafe_cons_iff hbase hle h₁ h₂ h₃ h₄, or_iff_left hidx, hfull]

end Remove

theorem removeInterrupted_safe_briefHandler :
    RemoveSafe (sampleLockset 3) 24 briefHandler briefHandler briefHandler briefHandler :=
  have hhandler : Handler (sampleHeld 3) briefHandler := ⟨by decide, by decide⟩
  (removeInterrupted_safe_iff (reachable_sampleLockset 3 (by decide)) (by decide) hhandler hhandler
    hhandler hhandler).mpr (by decide)

/-- With two mutexes held, a handler behind the decrement replaces the second one. -/
theorem not_removeSafe_two :
    Reachable (sampleLockset 2) (sampleHeld 2) ∧ Handler (sampleHeld 2) briefHandler
      ∧ (∃ s', (sampleLockset 2).removeInterrupted 8 [] [] briefHandler [] = some s'
        ∧ s'.locks = [96])
      ∧ (∃ s₀, (sampleLockset 2).removeOneMutex 8 = some s₀ ∧ s₀.locks = [16])
      ∧ ¬RemoveSafe (sampleLockset 2) 8 [] [] briefHandler [] := by
  refine ⟨reachable_sampleLockset 2 (by decide), ⟨by decide, by decide⟩, ⟨_, rfl, by decide⟩,
    ⟨_, rfl, by decide⟩, ?_⟩
  rintro ⟨s', s₀, hinter, hremove, hsame⟩
  obtain rfl := Option.some.inj hinter
  obtain rfl := Option.some.inj hremove
  exact absurd hsame.locks_eq (by decide)

end Lockset

end Racez
