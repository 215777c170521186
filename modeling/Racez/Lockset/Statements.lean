import Racez.Lockset.Hooks
import Racez.Lockset.Interrupt

/-!
# The hooks, statement by statement

A signal can arrive between any two statements of `add_one_mutex` and `remove_one_mutex`, and the
handler copies the lockset as it finds it. So a thread goes through the hooks in steps here, each of
which makes one change. The steps of a hook, one after the other, are the hook (`steps_lock`,
`steps_unlock`). A handler that only copies the lockset leaves it alone, and what it finds depends
on the step it comes after (`HostThread.Fits.counts`).

* Behind `n++` a slot is counted that the new mutex has not been stored in yet. What was left in it
  is copied.
* From then on, and until the real function has returned, the new mutex is there already.
* Behind `n--` the last slot is not counted any more, and its mutex has not been copied yet. Unless
  it is the one that is being removed, a mutex is missing that the thread holds.

A mutex that is released while `racez_enable` is not set stays in the lockset, where it is *stale*.

## Representation

A step is as large as it can be without a second change. The test of `overflow` goes with `n++`, and
reading `n` and the search go with `n--`. The test of `racez_enable` is a step of its own, since the
flag can be cleared behind it.

## What is kept

`HookPoint.Fits` is the invariant of a thread, one case for each point of a hook, in terms of the
mutexes it has to account for: those it holds and those that are stale. In the middle of a function
the lockset is not in order, and the case says what is missing. Each step of a hook has one lemma
about the lockset alone, under the name of the statement, and `HostThread.Fits.step` puts them
together. The invariant is stronger than what a handler sees: it also knows the slot that is counted
or not counted any more, and the index that was found.

A thread whose lockset is full is not sampled in this model: a mutex that did not fit would be
missing. So the invariant needs room whenever a mutex is taken (`HookMove.Room`), and not otherwise.
-/

open Container

namespace Racez

/-! ## Steps -/

/-- How far a thread has got in a hook. -/
inductive HookPoint
  | outside
  /-- In `add_one_mutex`, behind `n++`. -/
  | counted (m : Address)
  /-- Behind the store. -/
  | stored (m : Address)
  /-- Before the real lock function. -/
  | locking (m : Address)
  /-- After the real unlock function. -/
  | unlocking (m : Address)
  /-- In `remove_one_mutex`. -/
  | removing (m : Address)
  /-- Behind `n--`, with the index that was found and `lock_count`. -/
  | uncounted (m : Address) (i lockCount : ℤ)
  /-- Behind the copy. -/
  | moved
  deriving DecidableEq

/-- A thread of the profiled program, in or outside of a mutex hook. -/
structure HostThread where
  /-- The lockset in its thread-local storage. -/
  tlsLockset : Option Lockset
  /-- The mutexes it holds. -/
  held : Multiset Address
  /-- How far it has got. -/
  point : HookPoint
  /-- The mutexes it has released while `racez_enable` was not set. -/
  stale : Multiset Address

/-- A thread that begins. -/
def HostThread.begun : HostThread := ⟨none, 0, .outside, 0⟩

inductive HookMove
  /-- `SetPerThreadLockset`. -/
  | setPerThreadLockset
  /-- `pthread_mutex_lock` is called, and runs up to `n++`. -/
  | lock (m : Address)
  /-- `pthread_mutex_unlock` is called, and the real function succeeds. -/
  | unlock (m : Address)
  /-- The next step of the hook. -/
  | next
  deriving DecidableEq

/-- An access to the array that may be outside of it. -/
def inBounds {α : Type} : Option α → Except HookFault α
  | some x => .ok x
  | none => .error .outOfBounds

namespace HostThread

variable (slots : Vector Address 10) (racezLockset racezEnable : Bool) (t : HostThread)

/-- `GetPerThreadLockset`, preceded by `SetPerThreadLockset` if there is none. -/
def lockset : Lockset := t.tlsLockset.getD (.fresh slots)

/-- The next step. -/
def next : Except HookFault HostThread :=
  match t.point with
  | .outside => pure t
  | .counted m => do
    let s ← inBounds ((t.lockset slots).setSlot ((t.lockset slots).n - 1) m)
    return { t with tlsLockset := some s, point := .stored m }
  | .stored m => pure { t with tlsLockset := some (t.lockset slots).noteFull, point := .locking m }
  | .locking m => pure { t with held := m ::ₘ t.held, point := .outside }
  | .unlocking m =>
    if racezLockset && racezEnable then pure { t with point := .removing m }
    else pure { t with point := .outside, stale := m ::ₘ t.stale }
  | .removing m => do
    let lockCount := (t.lockset slots).n
    match ← inBounds ((t.lockset slots).find m lockCount) with
    | none => return { t with tlsLockset := some (t.lockset slots), point := .outside }
    | some i =>
      return { t with
        tlsLockset := some (t.lockset slots).decr
        point := .uncounted m i lockCount }
  | .uncounted _ i lockCount => do
    let s ← inBounds ((t.lockset slots).moveLast i lockCount)
    return { t with tlsLockset := some s, point := .moved }
  | .moved => pure { t with tlsLockset := some (t.lockset slots).clearOverflow, point := .outside }

/-- One step. The argument `slots` is the content of the memory the lockset is allocated in. -/
def step : HookMove → Except HookFault HostThread
  | .setPerThreadLockset => pure { t with tlsLockset := some (t.lockset slots) }
  | .lock m =>
    let s := t.lockset slots
    if racezLockset then
      if s.overflow = false then pure { t with tlsLockset := some s.incr, point := .counted m }
      else pure { t with tlsLockset := some s, point := .locking m }
    else pure { t with point := .locking m }
  | .unlock m => pure { t with held := t.held.erase m, point := .unlocking m }
  | .next => t.next slots racezLockset racezEnable

/-- What the hooks see of the thread and of the flags. -/
def hook : HookState := ⟨racezLockset, racezEnable, t.tlsLockset, t.held⟩

end HostThread

/-! ## The steps of a hook -/

section Hooks

variable {slots : Vector Address 10} {racezLockset racezEnable : Bool} {t : HostThread}

/-- The steps of a lock, one after the other, are the lock hook. -/
theorem steps_lock (hpoint : t.point = .outside) (m : Address) :
    [.lock m, .next, .next, .next].foldlM (HostThread.step slots racezLockset racezEnable) t
      = ((t.hook racezLockset racezEnable).pthreadMutexLock slots m 0).map
          fun s ↦ { t with tlsLockset := s.tlsLockset, held := s.held } := by
  obtain ⟨tls, held, point, stale⟩ := t
  obtain rfl : point = .outside := hpoint
  rcases racezLockset with _ | _
  · rfl
  obtain ⟨s, hs⟩ : ∃ s, tls.getD (Lockset.fresh slots) = s := ⟨_, rfl⟩
  simp only [List.foldlM_cons, List.foldlM_nil, HostThread.step, HostThread.hook,
    HostThread.lockset, HookState.pthreadMutexLock, HookState.update, HookState.perThreadLockset,
    Lockset.apply, Lockset.addOneMutex, if_true, hs]
  by_cases hflag : s.overflow = false
  · rw [if_pos hflag, if_pos hflag]
    rcases hset : s.incr.setSlot (s.incr.n - 1) m with _ | s'
    · simp [HostThread.next, HostThread.lockset, hset, inBounds]
      rfl
    · simp [HostThread.next, HostThread.lockset, hset, inBounds]
      rfl
  · rw [if_neg hflag, if_neg hflag]
    rfl

/-- The steps of an unlock are the unlock hook. -/
theorem steps_unlock (hpoint : t.point = .outside) (m : Address) :
    [.unlock m, .next, .next, .next, .next].foldlM
        (HostThread.step slots racezLockset racezEnable) t
      = ((t.hook racezLockset racezEnable).pthreadMutexUnlock slots m 0).map
          fun s ↦ { t with
            tlsLockset := s.tlsLockset
            held := s.held
            stale := if racezLockset && racezEnable then t.stale else m ::ₘ t.stale } := by
  obtain ⟨tls, held, point, stale⟩ := t
  obtain rfl : point = .outside := hpoint
  obtain ⟨s, hs⟩ : ∃ s, tls.getD (Lockset.fresh slots) = s := ⟨_, rfl⟩
  by_cases hon : (racezLockset && racezEnable) = true
  · simp only [List.foldlM_cons, List.foldlM_nil, HostThread.step, HostThread.hook,
      HookState.pthreadMutexUnlock, HookState.update, HookState.perThreadLockset, Lockset.apply,
      Lockset.removeOneMutex, HostThread.next, HostThread.lockset, hon, if_true, hs, pure_bind,
      HookState.realMutexUnlock]
    rcases s.find m s.n with _ | _ | i
    · rfl
    · rfl
    · rw [Option.bind_eq_bind, Option.bind_some]
      dsimp only [inBounds, bind, Except.bind, pure, Except.pure, Option.getD_some]
      rcases s.decr.moveLast i s.n with _ | s' <;> rfl
  · rcases racezLockset with _ | _
    · rfl
    · obtain rfl : racezEnable = false := Bool.eq_false_of_not_eq_true hon
      rfl

end Hooks

/-! ## What the lockset has -/

/-- The lockset `s` at a point of a hook, in a thread that has to account for the mutexes in `c`. -/
def HookPoint.Fits (s : Lockset) (c : Multiset Address) : HookPoint → Prop
  | .outside => ∃ l : List Address, s.Consistent l ∧ (l : Multiset Address) = c
  | .counted _ => ∃ (l : List Address) (x : Address), s.Shows (l ++ [x]) ∧ s.overflow = false
    ∧ (l : Multiset Address) = c
  | .stored m => ∃ l : List Address, s.Shows (l ++ [m]) ∧ s.overflow = false
    ∧ (l : Multiset Address) = c
  | .locking m => ∃ l : List Address, s.Consistent l
    ∧ ((l : Multiset Address) = m ::ₘ c ∨ (l : Multiset Address) = c ∧ c.card = 10)
  | .unlocking m | .removing m => ∃ l : List Address, s.Consistent l
    ∧ (l : Multiset Address) = m ::ₘ c
  | .uncounted m i lockCount => ∃ (l : List Address) (x : Address), s.Shows l
    ∧ s.slot l.length = some x ∧ i = (l ++ [x]).idxOf m ∧ lockCount = (l.length : ℤ) + 1
    ∧ l.length < 10 ∧ x ::ₘ (l : Multiset Address) = m ::ₘ c
  | .moved => ∃ l : List Address, s.Shows l ∧ l.length < 10 ∧ (l : Multiset Address) = c

/-- The lockset accounts for what the thread holds and for what is stale. -/
def HostThread.Fits (slots : Vector Address 10) (t : HostThread) : Prop :=
  t.point.Fits (t.lockset slots) (t.held + t.stale)

/-- A hook is called where no other hook is being executed, and a mutex is released by its
holder. -/
def HookMove.Legal (t : HostThread) : HookMove → Prop
  | .setPerThreadLockset => t.tlsLockset = none
  | .lock _ => t.point = .outside
  | .unlock m => t.point = .outside ∧ m ∈ t.held
  | .next => t.point ≠ .outside

/-- The thread takes a mutex next. -/
def HookPoint.acquires : HookPoint → Bool
  | .locking _ => true
  | _ => false

/-- There is room for a mutex when the real lock function succeeds. -/
def HookMove.Room (t : HostThread) : HookMove → Prop
  | .next => t.point.acquires = true → t.held.card + t.stale.card < 10
  | _ => True

instance HookMove.decidableLegal (t : HostThread) : ∀ e : HookMove, Decidable (e.Legal t)
  | .setPerThreadLockset => inferInstanceAs (Decidable (_ = _))
  | .lock _ => inferInstanceAs (Decidable (_ = _))
  | .unlock _ => inferInstanceAs (Decidable (_ ∧ _))
  | .next => inferInstanceAs (Decidable (_ ≠ _))

instance HookMove.decidableRoom (t : HostThread) : ∀ e : HookMove, Decidable (e.Room t)
  | .setPerThreadLockset | .lock _ | .unlock _ => inferInstanceAs (Decidable True)
  | .next => inferInstanceAs (Decidable (_ → _))

namespace HookPoint.Fits

variable {s : Lockset} {c : Multiset Address} {m : Address} {i lockCount : ℤ}

theorem incr (h : HookPoint.outside.Fits s c) (hflag : s.overflow = false) (m : Address) :
    (HookPoint.counted m).Fits s.incr c := by
  obtain ⟨l, hcons, hc⟩ := h
  have hroom : l.length < 10 := by
    refine lt_of_le_of_ne hcons.toShows.length_le fun hfull ↦ ?_
    rw [hcons.overflow_iff.mpr hfull] at hflag
    exact absurd hflag (by simp)
  obtain ⟨x, hx⟩ := s.exists_slot hroom
  exact ⟨l, x, hcons.toShows.incr hx, hflag, hc⟩

theorem setSlot (h : (HookPoint.counted m).Fits s c) :
    ∃ s', s.setSlot (s.n - 1) m = some s' ∧ (HookPoint.stored m).Fits s' c := by
  obtain ⟨l, x, hshows, hflag, hc⟩ := h
  obtain ⟨s', hset, hshows', hflag'⟩ := hshows.setSlot_last m
  exact ⟨s', hset, l, hshows', hflag'.trans hflag, hc⟩

theorem noteFull (h : (HookPoint.stored m).Fits s c) : (HookPoint.locking m).Fits s.noteFull c := by
  obtain ⟨l, hshows, hflag, rfl⟩ := h
  exact ⟨l ++ [m], hshows.noteFull hflag, Or.inl (coe_append_singleton l m)⟩

private theorem locking_of_overflow (h : HookPoint.outside.Fits s c) (hflag : s.overflow ≠ false)
    (m : Address) : (HookPoint.locking m).Fits s c := by
  obtain ⟨l, hcons, rfl⟩ := h
  exact ⟨l, hcons, Or.inr ⟨rfl, hcons.overflow_iff.mp (Bool.eq_true_of_not_eq_false hflag)⟩⟩

theorem find (h : (HookPoint.removing m).Fits s c) :
    ∃ i, s.find m s.n = some (some i) ∧ (HookPoint.uncounted m i s.n).Fits s.decr c := by
  obtain ⟨l, hcons, hc⟩ := h
  have hm : m ∈ l := Multiset.mem_coe.mp (hc ▸ Multiset.mem_cons_self m c)
  refine ⟨l.idxOf m, ?_, ?_⟩
  · rw [hcons.n_eq, hcons.toShows.find_eq m, if_pos hm]
  obtain rfl | ⟨l, x, rfl⟩ := List.eq_nil_or_concat l
  · exact absurd hm List.not_mem_nil
  rw [List.concat_eq_append] at *
  have hlen : (l ++ [x]).length ≤ 10 := hcons.toShows.length_le
  rw [List.length_append, List.length_singleton] at hlen
  refine ⟨l, x, hcons.toShows.decr, hcons.toShows.slot_eq, rfl, ?_, hlen, ?_⟩
  · rw [hcons.n_eq, List.length_append, List.length_singleton, Nat.cast_add, Nat.cast_one]
  · rw [← hc, coe_append_singleton]

theorem moveLast (h : (HookPoint.uncounted m i lockCount).Fits s c) :
    ∃ s', s.moveLast i lockCount = some s' ∧ HookPoint.moved.Fits s' c := by
  obtain ⟨l, x, hshows, hx, rfl, rfl, hlen, hc⟩ := h
  have hl : (l ++ [x] : List Address) = m ::ₘ c := by
    rw [← hc, coe_append_singleton]
  have hm : m ∈ l ++ [x] := Multiset.mem_coe.mp (hl ▸ Multiset.mem_cons_self m c)
  obtain ⟨base, hbase, hsplit | ⟨mid, y, hsplit⟩⟩ := exists_split_of_mem hm
  · -- it is the last one itself
    obtain ⟨rfl, hxm⟩ := List.append_inj' hsplit rfl
    obtain rfl := List.singleton_inj.mp hxm
    obtain ⟨s', hmove, hshows', -⟩ := hshows.moveLast_self hx hlen
    refine ⟨s', ?_, l, hshows', hlen, (Multiset.cons_inj_right x).mp hc⟩
    rwa [List.idxOf_append_of_notMem hbase, List.idxOf_cons_self, Nat.add_zero]
  · obtain ⟨rfl, hxy⟩ := List.append_inj' hsplit rfl
    obtain rfl := List.singleton_inj.mp hxy
    obtain ⟨s', hmove, hshows', -⟩ := hshows.moveLast_cons hx
    refine ⟨s', ?_, base ++ x :: mid, hshows', ?_, ?_⟩
    · rwa [List.append_assoc, List.idxOf_append_of_notMem hbase, List.cons_append,
        List.idxOf_cons_self, Nat.add_zero]
    · rw [List.length_append, List.length_cons] at hlen ⊢
      exact hlen
    · -- `m` and `x` change places
      refine (Multiset.cons_inj_right m).mp ?_
      rw [← hc, Multiset.cons_coe, Multiset.cons_coe, Multiset.coe_eq_coe]
      calc m :: (base ++ x :: mid)
        List.Perm _ (m :: x :: (base ++ mid)) := List.perm_middle.cons m
        List.Perm _ (x :: m :: (base ++ mid)) := List.Perm.swap x m _
        List.Perm _ (x :: (base ++ m :: mid)) := List.perm_middle.symm.cons x

theorem clearOverflow (h : HookPoint.moved.Fits s c) :
    HookPoint.outside.Fits s.clearOverflow c := by
  obtain ⟨l, hshows, hlen, hc⟩ := h
  exact ⟨l, hshows.clearOverflow hlen, hc⟩

end HookPoint.Fits

section Fits

variable {slots : Vector Address 10} {racezEnable : Bool} {t t' : HostThread} {e : HookMove}

theorem HostThread.fits_begun : HostThread.begun.Fits slots :=
  ⟨[], Lockset.consistent_fresh slots, rfl⟩

/-- The next step of a hook, in a thread with room, stays inside the array. -/
theorem HostThread.Fits.next (h : t.Fits slots) (hlegal : HookMove.next.Legal t)
    (hroom : HookMove.next.Room t) :
    ∃ t', t.next slots true racezEnable = .ok t' ∧ t'.Fits slots := by
  obtain ⟨tls, held, point, stale⟩ := t
  rcases point with _ | m | m | m | m | m | ⟨m, i, lockCount⟩ | _
  · exact absurd rfl hlegal
  · obtain ⟨s', hset, hfits⟩ := HookPoint.Fits.setSlot h
    refine ⟨⟨some s', held, .stored m, stale⟩, ?_, hfits⟩
    exact Run.bind_eq_ok.mpr ⟨s', by rw [hset]; rfl, rfl⟩
  · exact ⟨_, rfl, HookPoint.Fits.noteFull h⟩
  · obtain ⟨l, hcons, hc | ⟨-, hfull⟩⟩ := h
    · refine ⟨_, rfl, l, hcons, ?_⟩
      rw [hc, ← Multiset.cons_add]
    · have hlt := hroom rfl
      rw [Multiset.card_add] at hfull
      exact absurd hfull hlt.ne
  · rcases racezEnable with _ | _
    · obtain ⟨l, hcons, hc⟩ := h
      refine ⟨_, rfl, l, hcons, ?_⟩
      rw [hc, ← Multiset.add_cons]
    · exact ⟨_, rfl, h⟩
  · obtain ⟨i, hfind, hfits⟩ := HookPoint.Fits.find h
    refine ⟨⟨some _, held, .uncounted m i _, stale⟩, ?_, hfits⟩
    exact Run.bind_eq_ok.mpr ⟨some i, by rw [hfind]; rfl, rfl⟩
  · obtain ⟨s', hmove, hfits⟩ := HookPoint.Fits.moveLast h
    refine ⟨⟨some s', held, .moved, stale⟩, ?_, hfits⟩
    exact Run.bind_eq_ok.mpr ⟨s', by rw [hmove]; rfl, rfl⟩
  · exact ⟨_, rfl, HookPoint.Fits.clearOverflow h⟩

theorem HostThread.Fits.step (h : t.Fits slots) (hlegal : e.Legal t) (hroom : e.Room t) :
    ∃ t', t.step slots true racezEnable e = .ok t' ∧ t'.Fits slots := by
  rcases e with _ | m | m | _
  · exact ⟨_, rfl, h⟩
  · obtain ⟨tls, held, point, stale⟩ := t
    obtain rfl : point = .outside := hlegal
    by_cases hflag : (HostThread.lockset slots ⟨tls, held, .outside, stale⟩).overflow = false
    · exact ⟨_, if_pos hflag, h.incr hflag m⟩
    · exact ⟨_, if_neg hflag, h.locking_of_overflow hflag m⟩
  · obtain ⟨tls, held, point, stale⟩ := t
    obtain ⟨rfl, hm⟩ : point = .outside ∧ m ∈ held := hlegal
    obtain ⟨l, hcons, hc⟩ := h
    refine ⟨_, rfl, l, hcons, ?_⟩
    rw [hc, ← Multiset.cons_add, Multiset.cons_erase hm]
  · exact h.next hlegal hroom

/-- While profiling is on no mutex becomes stale. -/
theorem HostThread.stale_of_step (hstep : t.step slots true true e = .ok t') :
    t'.stale = t.stale := by
  rcases e with _ | m | m | _
  · obtain rfl := Except.ok.inj hstep
    rfl
  · rw [HostThread.step, if_pos rfl] at hstep
    split_ifs at hstep <;> (obtain rfl := Except.ok.inj hstep; rfl)
  · obtain rfl := Except.ok.inj hstep
    rfl
  · obtain ⟨tls, held, point, stale⟩ := t
    rcases point with _ | m | m | m | m | m | ⟨m, i, lockCount⟩ | _
    · obtain rfl := Except.ok.inj hstep
      rfl
    · obtain ⟨s', -, hstep⟩ := Run.bind_eq_ok.mp hstep
      obtain rfl := Except.ok.inj hstep
      rfl
    · obtain rfl := Except.ok.inj hstep
      rfl
    · obtain rfl := Except.ok.inj hstep
      rfl
    · obtain rfl := Except.ok.inj hstep
      rfl
    · obtain ⟨found, -, hstep⟩ := Run.bind_eq_ok.mp hstep
      rcases found with _ | i <;> (obtain rfl := Except.ok.inj hstep; rfl)
    · obtain ⟨s', -, hstep⟩ := Run.bind_eq_ok.mp hstep
      obtain rfl := Except.ok.inj hstep
      rfl
    · obtain rfl := Except.ok.inj hstep
      rfl

/-! ## What a handler copies -/

/-- The counted slots at a point of a hook. -/
def HookPoint.Counts (c : Multiset Address) (l : List Address) : HookPoint → Prop
  | .outside | .moved => (l : Multiset Address) = c
  | .counted _ => ∃ x, (l : Multiset Address) = x ::ₘ c
  | .stored m | .unlocking m | .removing m => (l : Multiset Address) = m ::ₘ c
  | .locking m => (l : Multiset Address) = m ::ₘ c ∨ (l : Multiset Address) = c ∧ c.card = 10
  | .uncounted m _ _ => ∃ x, x ::ₘ (l : Multiset Address) = m ::ₘ c

/-- The point behind `n--`, where a mutex may be missing. -/
def HookPoint.Misses : HookPoint → Prop
  | .uncounted _ _ _ => True
  | _ => False

instance HookPoint.decidableMisses : ∀ p : HookPoint, Decidable p.Misses
  | .uncounted _ _ _ => inferInstanceAs (Decidable True)
  | .outside | .counted _ | .stored _ | .locking _ | .unlocking _ | .removing _ | .moved =>
    inferInstanceAs (Decidable False)

/-- Everywhere else nothing is missing. -/
theorem HookPoint.Counts.subset {p : HookPoint} {c : Multiset Address} {l : List Address}
    (h : p.Counts c l) (hp : ¬p.Misses) {m : Address} (hm : m ∈ c) : m ∈ l := by
  refine Multiset.mem_coe.mp ?_
  rcases p with _ | m' | m' | m' | m' | m' | ⟨m', i, lockCount⟩ | _
  · exact h ▸ hm
  · obtain ⟨x, hx⟩ := h
    exact hx ▸ Multiset.mem_cons_of_mem hm
  · exact h ▸ Multiset.mem_cons_of_mem hm
  · rcases h with h | ⟨h, -⟩
    · exact h ▸ Multiset.mem_cons_of_mem hm
    · exact h ▸ hm
  · exact h ▸ Multiset.mem_cons_of_mem hm
  · exact h ▸ Multiset.mem_cons_of_mem hm
  · exact absurd trivial hp
  · exact h ▸ hm

private theorem HookPoint.Fits.exists_shows {p : HookPoint} {s : Lockset} {c : Multiset Address}
    (h : p.Fits s c) : ∃ l, s.Shows l ∧ p.Counts c l := by
  rcases p with _ | m | m | m | m | m | ⟨m, i, lockCount⟩ | _
  · obtain ⟨l, hcons, hc⟩ := h
    exact ⟨l, hcons.toShows, hc⟩
  · obtain ⟨l, x, hshows, -, hc⟩ := h
    exact ⟨l ++ [x], hshows, x, by rw [coe_append_singleton, hc]⟩
  · obtain ⟨l, hshows, -, hc⟩ := h
    exact ⟨l ++ [m], hshows, by rw [HookPoint.Counts, coe_append_singleton, hc]⟩
  · obtain ⟨l, hcons, hc⟩ := h
    exact ⟨l, hcons.toShows, hc⟩
  · obtain ⟨l, hcons, hc⟩ := h
    exact ⟨l, hcons.toShows, hc⟩
  · obtain ⟨l, hcons, hc⟩ := h
    exact ⟨l, hcons.toShows, hc⟩
  · obtain ⟨l, x, hshows, -, -, -, -, hc⟩ := h
    exact ⟨l, hshows, x, hc⟩
  · obtain ⟨l, hshows, -, hc⟩ := h
    exact ⟨l, hshows, hc⟩

/-- What a handler copies, of a thread with or without a lockset. -/
theorem HostThread.Fits.counts (h : t.Fits slots) :
    t.point.Counts (t.held + t.stale) (t.tlsLockset.elim [] Lockset.locks)
      ∧ ∀ l ∈ t.tlsLockset, l.n ≤ 10 := by
  obtain ⟨l, hshows, hcounts⟩ := HookPoint.Fits.exists_shows h
  rw [HostThread.lockset] at hshows
  rcases htls : t.tlsLockset with _ | lockset
  · rw [htls, Option.getD_none] at hshows
    obtain rfl : [] = l := (Lockset.shows_fresh slots).locks_eq.symm.trans hshows.locks_eq
    exact ⟨hcounts, by simp⟩
  · rw [htls, Option.getD_some] at hshows
    refine ⟨?_, ?_⟩
    · rw [Option.elim_some, hshows.locks_eq]
      exact hcounts
    · rintro l' hl'
      obtain rfl := Option.some.inj hl'
      have hle := hshows.length_le
      rw [hshows.n_eq]
      omega

end Fits

end Racez
