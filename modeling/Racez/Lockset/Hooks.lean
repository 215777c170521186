import Racez.Lockset.Basic
import Racez.Transition.Run

/-!
# The mutex hooks

The preloaded library replaces `pthread_mutex_lock` and `pthread_mutex_unlock`. The replacements
call the real functions and keep the lockset of the calling thread up to date. Profiling is switched
on and off by `racez_start` and `racez_stop`, at any time and by any thread.

What the thread holds is decided by the real functions, so it is part of the state here and changes
when a real call succeeds. The results of the real calls and of starting the profiler are part of
the events. A failed assertion ends the process.

## Releases while profiling is off

The lock hook adds to the lockset at all times, but the unlock hook removes from it only while
profiling is on. A mutex released while profiling is off therefore stays in the lockset.

The library itself does that. `racez_stop` clears `racez_enable` and then calls `pmu_profiler_stop`,
which locks and unlocks `tid_fd_map_mutex` through the hooks. So the thread that stops profiling has
this mutex in its lockset afterwards (`locks_racezStop`). For the other threads `racez_stop` is no
more than a flag that is cleared.

As long as profiling is off nobody looks at the lockset. It is wrong when profiling is switched on
again, or for the first time. `lockset_eq_held` is the result for threads that have released nothing
while it was off by then.

## Keeping the lockset in order

`HookState.Keeps` says that the lockset is in order and which mutexes it counts, in a list. Every
hook keeps it, whatever the real function returns and whatever the flags are, so no run of the hooks
writes outside of the array. What the list is compared with is another matter. `HookInvariant` says
that it is what the thread holds; that is kept by all events but a release while profiling is off.
If profiling is on at the end of a run, no such release has happened since it was switched on
(`along_not_releasesOff`), and by assumption none has happened before.
-/

open Container

namespace Racez

/-! ## The hooks -/

/-- How a hook can fail. -/
inductive HookFault
  | outOfBounds
  | assertion
  deriving DecidableEq

/-- The flags of the process, the lockset of the thread in its thread-local storage, and the mutexes
the thread holds. -/
structure HookState where
  /-- `racez_lockset`. -/
  racezLockset : Bool
  /-- `racez_enable`. -/
  racezEnable : Bool
  /-- The lockset of the thread, once it is allocated. -/
  tlsLockset : Option Lockset
  /-- The mutexes the thread holds. -/
  held : Multiset Address

/-- A hook called by the thread, or the profiler switched by some thread. -/
inductive HookEvent
  /-- `pthread_mutex_lock`, with the result of the real function. -/
  | mutexLock (m : Address) (r : ℤ)
  /-- `pthread_mutex_unlock`, with the result of the real function. -/
  | mutexUnlock (m : Address) (r : ℤ)
  /-- `racez_start`, with the result of `pmu_profiler_start`. -/
  | start (started : Bool)
  /-- `racez_stop` in another thread. -/
  | stop
  /-- `racez_stop` in the thread itself, with the address of `tid_fd_map_mutex`. -/
  | ownStop (tidFdMapMutex : Address)
  deriving DecidableEq

namespace HookState

/-- The counted slots of the thread. -/
def locks (s : HookState) : Multiset Address := (s.tlsLockset.elim [] Lockset.locks : List Address)

/-- `GetPerThreadLockset`, preceded by `SetPerThreadLockset` if the thread has none. -/
def perThreadLockset (slots : Vector Address 10) (s : HookState) : Lockset :=
  s.tlsLockset.getD (Lockset.fresh slots)

/-- A call of `add_one_mutex` or `remove_one_mutex`. -/
def update (slots : Vector Address 10) (s : HookState) (call : Call Address) :
    Except HookFault HookState :=
  match (s.perThreadLockset slots).apply call with
  | some lockset => .ok { s with tlsLockset := some lockset }
  | none => .error .outOfBounds

/-- The real lock function returned `r`. -/
def realMutexLock (s : HookState) (m : Address) (r : ℤ) : HookState :=
  if r = 0 then { s with held := m ::ₘ s.held } else s

/-- The real unlock function returned `r`. -/
def realMutexUnlock (s : HookState) (m : Address) (r : ℤ) : HookState :=
  if r = 0 then { s with held := s.held.erase m } else s

/-- `pthread_mutex_lock`. -/
def pthreadMutexLock (slots : Vector Address 10) (s : HookState) (m : Address) (r : ℤ) :
    Except HookFault HookState := do
  let s ← if s.racezLockset then s.update slots (.add m) else pure s
  return s.realMutexLock m r

/-- `pthread_mutex_unlock`. -/
def pthreadMutexUnlock (slots : Vector Address 10) (s : HookState) (m : Address) (r : ℤ) :
    Except HookFault HookState :=
  let s := s.realMutexUnlock m r
  if s.racezLockset && s.racezEnable then s.update slots (.remove m) else pure s

/-- `racez_start`. -/
def racezStart (s : HookState) (started : Bool) : Except HookFault HookState :=
  if started then
    if s.racezEnable then .error .assertion else .ok { s with racezEnable := true }
  else .ok s

/-- `racez_stop` up to the call of `pmu_profiler_stop`, which is all that other threads see. -/
def clearEnable (s : HookState) : Except HookFault HookState :=
  if s.racezEnable then .ok { s with racezEnable := false } else .error .assertion

/-- `racez_stop`: what `pmu_profiler_stop` locks and unlocks goes through the hooks. -/
def racezStop (slots : Vector Address 10) (s : HookState) (tidFdMapMutex : Address) :
    Except HookFault HookState := do
  let s ← s.clearEnable
  let s ← s.pthreadMutexLock slots tidFdMapMutex 0
  s.pthreadMutexUnlock slots tidFdMapMutex 0

end HookState

/-- One event. The argument `slots` is the content of the memory a lockset is allocated in. -/
def hookStep (slots : Vector Address 10) (s : HookState) : HookEvent → Except HookFault HookState
  | .mutexLock m r => s.pthreadMutexLock slots m r
  | .mutexUnlock m r => s.pthreadMutexUnlock slots m r
  | .start started => s.racezStart started
  | .stop => s.clearEnable
  | .ownStop tidFdMapMutex => s.racezStop slots tidFdMapMutex

/-- A run of a thread. -/
def hookRun (slots : Vector Address 10) (s : HookState) (events : List HookEvent) :
    Except HookFault HookState :=
  events.foldlM (hookStep slots) s

/-- A thread that has called no hook yet. -/
def HookState.init (racezEnable : Bool) : HookState := ⟨true, racezEnable, none, 0⟩

/-! ## Runs -/

/-- Real calls succeed: a mutex is released by its holder. No more than ten are held. -/
def HookEvent.Legal (s : HookState) : HookEvent → Prop
  | .mutexLock _ r => r = 0 ∧ s.held.card < 10
  | .mutexUnlock m r => r = 0 ∧ m ∈ s.held
  | .start _ => True
  | .stop => True
  | .ownStop _ => s.held.card < 10

instance (s : HookState) : ∀ e : HookEvent, Decidable (e.Legal s)
  | .mutexLock _ _ => inferInstanceAs (Decidable (_ ∧ _))
  | .mutexUnlock _ _ => inferInstanceAs (Decidable (_ ∧ _))
  | .start _ => inferInstanceAs (Decidable True)
  | .stop => inferInstanceAs (Decidable True)
  | .ownStop _ => inferInstanceAs (Decidable (_ < _))

/-- A mutex is released while profiling is off. -/
def HookEvent.ReleasesOff (s : HookState) : HookEvent → Prop
  | .mutexUnlock _ _ => s.racezEnable = false
  | .ownStop _ => True
  | _ => False

instance (s : HookState) : ∀ e : HookEvent, Decidable (e.ReleasesOff s)
  | .mutexLock _ _ => inferInstanceAs (Decidable False)
  | .mutexUnlock _ _ => inferInstanceAs (Decidable (_ = _))
  | .start _ => inferInstanceAs (Decidable False)
  | .stop => inferInstanceAs (Decidable False)
  | .ownStop _ => inferInstanceAs (Decidable True)

/-! ## The lockset is in order -/

/-- The lockset, allocated or not, is in order and counts the mutexes in `l`. -/
structure HookState.Keeps (slots : Vector Address 10) (s : HookState) (l : List Address) :
    Prop where
  /-- Locksets are kept. -/
  racezLockset : s.racezLockset = true
  /-- The lockset, or one that would be allocated now, counts the mutexes in `l`. -/
  consistent : (s.perThreadLockset slots).Consistent l

section Keeps

variable {slots : Vector Address 10} {s s' : HookState} {l : List Address}

/-- A lockset that is not allocated yet counts nothing, like one that was just allocated. -/
theorem locks_eq_coe_perThreadLockset (slots : Vector Address 10) (s : HookState) :
    s.locks = ((s.perThreadLockset slots).locks : Multiset Address) := by
  rw [HookState.locks, HookState.perThreadLockset]
  cases s.tlsLockset with
  | none => rw [Option.getD_none, (Lockset.shows_fresh slots).locks_eq, Option.elim_none]
  | some lockset => rw [Option.getD_some, Option.elim_some]

theorem HookState.exists_update (h : (s.perThreadLockset slots).Consistent l)
    (call : Call Address) :
    ∃ lockset, s.update slots call = .ok { s with tlsLockset := some lockset }
      ∧ lockset.Consistent (exec 10 l call) := by
  obtain ⟨lockset, happly, hcons⟩ := h.apply call
  exact ⟨lockset, by rw [update, happly], hcons⟩

namespace HookState

private theorem realMutexLock_eq (s : HookState) (m : Address) (r : ℤ) :
    s.realMutexLock m r = { s with held := (s.realMutexLock m r).held } := by
  rw [realMutexLock]
  split_ifs <;> rfl

private theorem realMutexUnlock_eq (s : HookState) (m : Address) (r : ℤ) :
    s.realMutexUnlock m r = { s with held := (s.realMutexUnlock m r).held } := by
  rw [realMutexUnlock]
  split_ifs <;> rfl

namespace Keeps

theorem locks_eq (h : s.Keeps slots l) : s.locks = l := by
  rw [locks_eq_coe_perThreadLockset slots, h.consistent.toShows.locks_eq]

theorem of_tlsLockset_eq (h : s.Keeps slots l) (hlockset : s'.racezLockset = s.racezLockset)
    (htls : s'.tlsLockset = s.tlsLockset) : s'.Keeps slots l := by
  refine ⟨hlockset.trans h.racezLockset, ?_⟩
  rw [perThreadLockset, htls]
  exact h.consistent

theorem pthreadMutexLock (h : s.Keeps slots l) (m : Address) (r : ℤ) :
    ∃ s', s.pthreadMutexLock slots m r = .ok s' ∧ s'.Keeps slots (exec 10 l (.add m))
      ∧ s'.racezEnable = s.racezEnable ∧ s'.held = (s.realMutexLock m r).held := by
  obtain ⟨lockset, hupdate, hcons⟩ := exists_update h.consistent (.add m)
  refine ⟨realMutexLock { s with tlsLockset := some lockset } m r, ?_, ?_, ?_, ?_⟩
  · rw [HookState.pthreadMutexLock, if_pos h.racezLockset, hupdate]
    rfl
  · rw [realMutexLock_eq]
    exact ⟨h.racezLockset, hcons⟩
  · rw [realMutexLock_eq]
  · rw [realMutexLock, realMutexLock]
    split_ifs <;> rfl

theorem pthreadMutexUnlock (h : s.Keeps slots l) (m : Address) (r : ℤ) :
    ∃ s', s.pthreadMutexUnlock slots m r = .ok s'
      ∧ s'.Keeps slots (if s.racezEnable then exec 10 l (.remove m) else l)
      ∧ s'.racezEnable = s.racezEnable ∧ s'.held = (s.realMutexUnlock m r).held := by
  rw [HookState.pthreadMutexUnlock, realMutexUnlock_eq]
  have hreal : HookState.Keeps slots { s with held := (s.realMutexUnlock m r).held } l :=
    h.of_tlsLockset_eq rfl rfl
  by_cases henable : s.racezEnable = true
  · obtain ⟨lockset, hupdate, hcons⟩ := exists_update hreal.consistent (.remove m)
    rw [if_pos henable]
    refine ⟨_, (if_pos ?_).trans hupdate, ⟨h.racezLockset, hcons⟩, rfl, rfl⟩
    rw [Bool.and_eq_true]
    exact ⟨h.racezLockset, henable⟩
  · rw [if_neg henable]
    refine ⟨_, if_neg ?_, hreal, rfl, rfl⟩
    rw [Bool.and_eq_true]
    exact fun hon ↦ henable hon.2

/-- `racez_stop` in the thread itself: the mutex is added and not removed. -/
theorem racezStop (h : s.Keeps slots l) (hon : s.racezEnable = true) (tidFdMapMutex : Address) :
    ∃ s', s.racezStop slots tidFdMapMutex = .ok s'
      ∧ s'.Keeps slots (exec 10 l (.add tidFdMapMutex)) ∧ s'.racezEnable = false
      ∧ s'.held = s.held := by
  have hclear : HookState.Keeps slots { s with racezEnable := false } l :=
    h.of_tlsLockset_eq rfl rfl
  obtain ⟨s₁, hs₁, h₁, hon₁, hheld₁⟩ := hclear.pthreadMutexLock tidFdMapMutex 0
  obtain ⟨s₂, hs₂, h₂, hon₂, hheld₂⟩ := h₁.pthreadMutexUnlock tidFdMapMutex 0
  rw [if_neg (by rw [hon₁]; exact Bool.false_ne_true)] at h₂
  refine ⟨s₂, ?_, h₂, hon₂.trans hon₁, ?_⟩
  · rw [HookState.racezStop, clearEnable, if_pos hon]
    exact Run.bind_eq_ok.mpr ⟨_, rfl, Run.bind_eq_ok.mpr ⟨s₁, hs₁, hs₂⟩⟩
  · rw [hheld₂, realMutexUnlock, if_pos rfl, hheld₁]
    exact Multiset.erase_cons_head tidFdMapMutex s.held

/-- Whatever happens, the lockset stays in order. The only way to fail is an assertion about
switching the profiler. -/
theorem hookStep (h : s.Keeps slots l) (e : HookEvent) :
    (∃ s', hookStep slots s e = .ok s' ∧ ∃ l', s'.Keeps slots l')
      ∨ ∃ f, Racez.hookStep slots s e = .error f ∧ f = .assertion := by
  rcases e with ⟨m, r⟩ | ⟨m, r⟩ | started | _ | m
  · obtain ⟨s', hs', hkeeps, -⟩ := h.pthreadMutexLock m r
    exact Or.inl ⟨s', hs', _, hkeeps⟩
  · obtain ⟨s', hs', hkeeps, -⟩ := h.pthreadMutexUnlock m r
    exact Or.inl ⟨s', hs', _, hkeeps⟩
  · rw [Racez.hookStep, racezStart]
    split_ifs
    · exact Or.inr ⟨_, rfl, rfl⟩
    · exact Or.inl ⟨_, rfl, l, h.of_tlsLockset_eq rfl rfl⟩
    · exact Or.inl ⟨_, rfl, l, h⟩
  · rw [Racez.hookStep, clearEnable]
    split_ifs
    · exact Or.inl ⟨_, rfl, l, h.of_tlsLockset_eq rfl rfl⟩
    · exact Or.inr ⟨_, rfl, rfl⟩
  · by_cases hon : s.racezEnable = true
    · obtain ⟨s', hs', hkeeps, -⟩ := h.racezStop hon m
      exact Or.inl ⟨s', hs', _, hkeeps⟩
    · rw [Racez.hookStep, HookState.racezStop, clearEnable, if_neg hon]
      exact Or.inr ⟨_, rfl, rfl⟩

end Keeps

end HookState

theorem keeps_init (slots : Vector Address 10) (racezEnable : Bool) :
    (HookState.init racezEnable).Keeps slots [] :=
  ⟨rfl, Lockset.consistent_fresh slots⟩

theorem HookState.Keeps.lock_of_room (h : s.Keeps slots l) (m : Address) (hroom : l.length < 10) :
    ∃ s', s.pthreadMutexLock slots m 0 = .ok s' ∧ s'.Keeps slots (l ++ [m])
      ∧ s'.racezEnable = s.racezEnable ∧ s'.held = m ::ₘ s.held := by
  obtain ⟨s', hs', hkeeps, hon, hheld⟩ := h.pthreadMutexLock m 0
  rw [exec, push, if_pos hroom] at hkeeps
  exact ⟨s', hs', hkeeps, hon, hheld⟩

theorem HookState.Keeps.unlock_of_enabled (h : s.Keeps slots l) (m : Address)
    (henable : s.racezEnable = true) :
    ∃ s', s.pthreadMutexUnlock slots m 0 = .ok s' ∧ s'.Keeps slots (swapRemove l m)
      ∧ s'.racezEnable = s.racezEnable ∧ s'.held = s.held.erase m := by
  obtain ⟨s', hs', hkeeps, hon, hheld⟩ := h.pthreadMutexUnlock m 0
  rw [if_pos henable, exec] at hkeeps
  exact ⟨s', hs', hkeeps, hon, hheld⟩

/-- Once profiling is off it stays off until it is started, and while it is on nothing is released
while it is off. -/
theorem not_releasesOff_of_hookStep {e : HookEvent} (h : s.Keeps slots l)
    (hstep : hookStep slots s e = .ok s') (hne : e ≠ .start true) (hon : s'.racezEnable = true) :
    s.racezEnable = true ∧ ¬e.ReleasesOff s := by
  rcases e with ⟨m, r⟩ | ⟨m, r⟩ | started | _ | m
  · obtain ⟨s₁, hs₁, -, hsame, -⟩ := h.pthreadMutexLock m r
    obtain rfl := Except.ok.inj (hs₁.symm.trans hstep)
    exact ⟨hsame.symm.trans hon, id⟩
  · obtain ⟨s₁, hs₁, -, hsame, -⟩ := h.pthreadMutexUnlock m r
    obtain rfl := Except.ok.inj (hs₁.symm.trans hstep)
    have hon' := hsame.symm.trans hon
    exact ⟨hon', fun hoff ↦ Bool.false_ne_true (hoff.symm.trans hon')⟩
  · rcases started with _ | _
    · obtain rfl := Except.ok.inj hstep
      exact ⟨hon, id⟩
    · exact absurd rfl hne
  · rw [hookStep, HookState.clearEnable] at hstep
    split_ifs at hstep
    obtain rfl := Except.ok.inj hstep
    exact absurd hon Bool.false_ne_true
  · rw [hookStep] at hstep
    by_cases hs : s.racezEnable = true
    · obtain ⟨s₁, hs₁, -, hoff, -⟩ := h.racezStop hs m
      obtain rfl := Except.ok.inj (hs₁.symm.trans hstep)
      exact absurd (hoff.symm.trans hon) Bool.false_ne_true
    · rw [HookState.racezStop, HookState.clearEnable, if_neg hs] at hstep
      exact absurd hstep (by simp [bind, Except.bind])

end Keeps

/-! ## The lockset is what is held -/

/-- The lockset is in order and counts exactly the mutexes held. -/
def HookInvariant (slots : Vector Address 10) (s : HookState) : Prop :=
  ∃ l : List Address, s.Keeps slots l ∧ (l : Multiset Address) = s.held

section Invariant

variable {slots : Vector Address 10} {s : HookState}

theorem hookInvariant_init (slots : Vector Address 10) (racezEnable : Bool) :
    HookInvariant slots (HookState.init racezEnable) :=
  ⟨[], keeps_init slots racezEnable, rfl⟩

theorem HookInvariant.locks_eq (h : HookInvariant slots s) : s.locks = s.held := by
  obtain ⟨l, hkeeps, hheld⟩ := h
  rw [hkeeps.locks_eq, hheld]

theorem HookInvariant.switch (h : HookInvariant slots s) (racezEnable : Bool) :
    HookInvariant slots { s with racezEnable } := by
  obtain ⟨l, hkeeps, hheld⟩ := h
  exact ⟨l, hkeeps.of_tlsLockset_eq rfl rfl, hheld⟩

theorem HookInvariant.hookStep {e : HookEvent} (h : HookInvariant slots s) (hlegal : e.Legal s)
    (hon : ¬e.ReleasesOff s) :
    (∃ s', hookStep slots s e = .ok s' ∧ HookInvariant slots s')
      ∨ ∃ f, hookStep slots s e = .error f ∧ f = .assertion := by
  obtain ⟨l, hkeeps, hheld⟩ := h
  rcases e with ⟨m, r⟩ | ⟨m, r⟩ | started | _ | m
  · obtain ⟨rfl, hroom⟩ := hlegal
    rw [← hheld, Multiset.coe_card] at hroom
    obtain ⟨s', hs', hkeeps', -, hheld'⟩ := hkeeps.lock_of_room m hroom
    refine Or.inl ⟨s', hs', l ++ [m], hkeeps', ?_⟩
    rw [coe_append_singleton, hheld, hheld']
  · obtain ⟨rfl, -⟩ := hlegal
    obtain ⟨s', hs', hkeeps', -, hheld'⟩ :=
      hkeeps.unlock_of_enabled m (Bool.eq_true_of_not_eq_false hon)
    refine Or.inl ⟨s', hs', swapRemove l m, hkeeps', ?_⟩
    rw [coe_swapRemove, hheld, hheld']
  · rw [Racez.hookStep, HookState.racezStart]
    split_ifs
    · exact Or.inr ⟨_, rfl, rfl⟩
    · exact Or.inl ⟨_, rfl, HookInvariant.switch ⟨l, hkeeps, hheld⟩ true⟩
    · exact Or.inl ⟨_, rfl, l, hkeeps, hheld⟩
  · rw [Racez.hookStep, HookState.clearEnable]
    split_ifs
    · exact Or.inl ⟨_, rfl, HookInvariant.switch ⟨l, hkeeps, hheld⟩ false⟩
    · exact Or.inr ⟨_, rfl, rfl⟩
  · exact absurd trivial hon

/-- The thread that stops profiling keeps `tid_fd_map_mutex` in its lockset. -/
theorem HookInvariant.locks_racezStop (h : HookInvariant slots s) (hon : s.racezEnable = true)
    (hroom : s.held.card < 10) (tidFdMapMutex : Address) :
    ∃ s', s.racezStop slots tidFdMapMutex = .ok s' ∧ s'.racezEnable = false
      ∧ s'.held = s.held ∧ s'.locks = tidFdMapMutex ::ₘ s.held := by
  obtain ⟨l, hkeeps, hheld⟩ := h
  rw [← hheld, Multiset.coe_card] at hroom
  obtain ⟨s', hs', hkeeps', hoff, hheld'⟩ := hkeeps.racezStop hon tidFdMapMutex
  rw [exec, push, if_pos hroom] at hkeeps'
  refine ⟨s', hs', hoff, hheld', ?_⟩
  rw [hkeeps'.locks_eq, coe_append_singleton, hheld]

/-- If profiling is on at the end of a run, nothing was released while it was off. -/
theorem along_not_releasesOff {racezEnable : Bool} {events : List HookEvent}
    (hstart : ∀ before, before ++ [.start true] <+: events →
      Run.Along (hookStep slots) (fun s e ↦ ¬e.ReleasesOff s) (.init racezEnable) before)
    {pre : List HookEvent} (hpre : pre <+: events)
    (hrun : hookRun slots (.init racezEnable) pre = .ok s) (hon : s.racezEnable = true) :
    Run.Along (hookStep slots) (fun s e ↦ ¬e.ReleasesOff s) (.init racezEnable) pre := by
  induction pre using List.reverseRecOn generalizing s with
  | nil => exact trivial
  | append_singleton l e ih =>
    have hl := (List.prefix_append l [e]).trans hpre
    rw [hookRun, Run.foldlM_append_singleton, Run.bind_eq_ok] at hrun
    obtain ⟨s₁, hs₁, hstep⟩ := hrun
    by_cases he : e = .start true
    · subst he
      exact (hstart l hpre).append_singleton fun _ _ ↦ id
    · obtain ⟨l', hkeeps⟩ : ∃ l', s₁.Keeps slots l' := by
        refine Run.induction (P := fun _ s ↦ ∃ l', s.Keeps slots l') hs₁
          ⟨[], keeps_init slots racezEnable⟩ ?_
        rintro _ x s₂ s₃ - ⟨l', hkeeps⟩ hx
        rcases hkeeps.hookStep x with ⟨s₄, hs₄, hkeeps'⟩ | ⟨f, hf, -⟩
        · obtain rfl := Except.ok.inj (hs₄.symm.trans hx)
          exact hkeeps'
        · exact absurd (hf.symm.trans hx) (by simp)
      obtain ⟨hon', hrel⟩ := not_releasesOff_of_hookStep hkeeps hstep he hon
      refine (ih hl hs₁ hon').append_singleton fun s₂ hs₂ ↦ ?_
      obtain rfl := Except.ok.inj (hs₁.symm.trans hs₂)
      exact hrel

end Invariant

/-- **The lockset agrees with the mutexes held** whenever profiling is on, in every run in which
nothing has been released while it was off by the time it is switched on. The only way to fail is an
assertion about switching the profiler on twice or off twice. -/
theorem lockset_eq_held {slots : Vector Address 10} {racezEnable : Bool} {events : List HookEvent}
    (hlegal : Run.Along (hookStep slots) (fun s e ↦ e.Legal s) (.init racezEnable) events)
    (hstart : ∀ before, before ++ [.start true] <+: events →
      Run.Along (hookStep slots) (fun s e ↦ ¬e.ReleasesOff s) (.init racezEnable) before)
    {pre : List HookEvent} (hpre : pre <+: events) :
    (∃ s, hookRun slots (.init racezEnable) pre = .ok s
        ∧ (s.racezEnable = true → s.locks = s.held))
      ∨ hookRun slots (.init racezEnable) pre = .error .assertion := by
  rcases Run.progress (P := fun _ s ↦ ∃ l, HookState.Keeps slots s l)
      (Q := fun f ↦ f = HookFault.assertion) pre
      ⟨[], keeps_init slots racezEnable⟩ (fun _ e s _ ⟨_, h⟩ ↦ HookState.Keeps.hookStep h e)
    with ⟨s, hrun, -⟩ | ⟨f, hrun, rfl⟩
  · refine Or.inl ⟨s, hrun, fun hon ↦ ?_⟩
    have hreleases := along_not_releasesOff hstart hpre hrun hon
    rcases ((hlegal.of_isPrefix hpre).and hreleases).progress
        (hookInvariant_init slots racezEnable) (fun s e hinv he ↦ hinv.hookStep he.1 he.2)
      with ⟨s', hrun', hinv⟩ | ⟨f, hrun', -⟩
    · obtain rfl := Except.ok.inj (hrun.symm.trans hrun')
      exact hinv.locks_eq
    · exact absurd (hrun.symm.trans hrun') (by simp)
  · exact Or.inr hrun

/-- A thread that takes a mutex before profiling starts, releases its mutexes out of order, and
stops profiling. -/
def orderlyThread : List HookEvent :=
  [.mutexLock 8 0, .start true, .mutexLock 16 0, .mutexUnlock 8 0, .ownStop 32]

theorem lockset_eq_held_orderlyThread :
    ∃ s, hookRun (Vector.replicate 10 0) (.init false) (orderlyThread.take 4) = .ok s
      ∧ s.racezEnable = true ∧ s.locks = s.held ∧ s.held = {16} := by
  have hstart : ∀ before, before ++ [.start true] <+: orderlyThread →
      Run.Along (hookStep (Vector.replicate 10 0)) (fun s e ↦ ¬e.ReleasesOff s) (.init false)
        before := by
    rintro before ⟨rest, hrest⟩
    obtain rfl : before = [.mutexLock 8 0] := by
      rcases before with _ | ⟨_, _ | ⟨_, _ | ⟨_, _ | ⟨_, _ | ⟨_, before⟩⟩⟩⟩⟩ <;>
        simp_all [orderlyThread]
    decide
  rcases @lockset_eq_held (Vector.replicate 10 0) false orderlyThread (by decide) hstart
      (orderlyThread.take 4) (List.take_prefix 4 _) with ⟨s, hrun, hlocks⟩ | hrun
  · obtain rfl := Except.ok.inj hrun
    exact ⟨_, hrun, rfl, hlocks rfl, rfl⟩
  · cases hrun

/-- A thread that releases its mutex before profiling starts. -/
def earlyRelease : List HookEvent := [.mutexLock 8 0, .mutexUnlock 8 0, .start true]

theorem lockset_ne_held_earlyRelease :
    Run.Along (hookStep (Vector.replicate 10 0)) (fun s e ↦ e.Legal s) (.init false) earlyRelease
      ∧ ∃ s, hookRun (Vector.replicate 10 0) (.init false) earlyRelease = .ok s
        ∧ s.racezEnable = true ∧ s.locks = {8} ∧ s.held = 0 :=
  ⟨by decide, _, rfl, rfl, rfl, rfl⟩

end Racez
