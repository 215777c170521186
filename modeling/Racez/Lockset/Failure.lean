import Racez.Lockset.Hooks
import Racez.Lockset.Interrupt

/-!
# Lock operations that fail

Neither hook looks at what the real function returns. The lock hook has put the mutex into the
lockset before it makes the call, the unlock hook takes it out after the call, and both do so
whether or not the call has succeeded. A failed call therefore leaves the lockset as it was only if
there was nothing to do: a full lockset takes no more mutexes, and a mutex that is not counted
cannot be taken out (`failed_call_unchanged_iff`).

A hook is one call on the lockset, whatever the real function returns (`HookState.Active.hookStep`),
so the question is only when a call leaves a bag unchanged. Bags are compared up to order here,
since a removal moves the last mutex.
-/

open Container

namespace Racez

/-- What a hook asks of the lockset. -/
def HookEvent.call : HookEvent → Option (Call Address)
  | .mutexLock m _ => some (.add m)
  | .mutexUnlock m _ => some (.remove m)
  | .start _ => none
  | .stop => none
  | .ownStop _ => none

/-- Both flags are set, and the lockset is in order. -/
structure HookState.Active (slots : Vector Address 10) (s : HookState) (l : List Address) :
    Prop where
  /-- The lockset counts the mutexes in `l`. -/
  keeps : s.Keeps slots l
  /-- Profiling is on. -/
  racezEnable : s.racezEnable = true

section Active

variable {slots : Vector Address 10} {s : HookState} {l : List Address}

theorem active_init (slots : Vector Address 10) : (HookState.init true).Active slots [] :=
  ⟨keeps_init slots true, rfl⟩

/-- Whatever the real function returns, a hook is one call on the lockset. -/
theorem HookState.Active.hookStep (h : s.Active slots l) {e : HookEvent} {call : Call Address}
    (hcall : e.call = some call) :
    ∃ s', hookStep slots s e = .ok s' ∧ s'.Active slots (exec 10 l call) := by
  rcases e with ⟨m, r⟩ | ⟨m, r⟩ | started | _ | m
  · obtain rfl := Option.some.inj hcall
    obtain ⟨s', hs', hkeeps, hon, -⟩ := h.keeps.pthreadMutexLock m r
    exact ⟨s', hs', hkeeps, hon.trans h.racezEnable⟩
  · obtain rfl := Option.some.inj hcall
    obtain ⟨s', hs', hkeeps, hon, -⟩ := h.keeps.pthreadMutexUnlock m r
    rw [if_pos h.racezEnable] at hkeeps
    exact ⟨s', hs', hkeeps, hon.trans h.racezEnable⟩
  · cases hcall
  · cases hcall
  · cases hcall

private theorem exists_hookRun {events : List HookEvent} (h : s.Active slots l)
    (hcalls : ∀ e ∈ events, e.call.isSome = true) :
    ∃ s' l', hookRun slots s events = .ok s' ∧ s'.Active slots l' := by
  induction events generalizing s l with
  | nil => exact ⟨s, l, rfl, h⟩
  | cons e events ih =>
    obtain ⟨call, hcall⟩ := Option.isSome_iff_exists.mp (hcalls e List.mem_cons_self)
    obtain ⟨s₁, hs₁, h₁⟩ := h.hookStep hcall
    obtain ⟨s', l', hs', h'⟩ := ih h₁ fun e he ↦ hcalls e (List.mem_cons_of_mem _ he)
    refine ⟨s', l', ?_, h'⟩
    rw [hookRun, List.foldlM_cons, hs₁]
    exact hs'

end Active

namespace Lockset

variable {s s' : Lockset} {l l' : List Address}

private theorem Consistent.sameLocks_iff (h : s.Consistent l) (h' : s'.Consistent l') :
    SameLocks s s' ↔ l.Perm l' := by
  refine ⟨fun hsame ↦ ?_, h.sameLocks h'⟩
  have heq := hsame.locks_eq
  rw [h.locks_eq, h'.locks_eq] at heq
  exact Multiset.coe_eq_coe.mp heq

end Lockset

/-- Counter, flag and counted slots of the thread are the same in both states. -/
def HookState.SameLockset (slots : Vector Address 10) (s s' : HookState) : Prop :=
  (s'.perThreadLockset slots).SameLocks (s.perThreadLockset slots)

/-- There is nothing to do for the hook: the lockset is full, or the mutex is not counted. -/
def HookEvent.NothingToDo (slots : Vector Address 10) (s : HookState) : HookEvent → Prop
  | .mutexLock _ _ => (s.perThreadLockset slots).overflow = true
  | .mutexUnlock m _ => m ∉ (s.perThreadLockset slots).locks
  | .start _ => True
  | .stop => True
  | .ownStop _ => True

private theorem HookState.Active.sameLockset_iff {slots : Vector Address 10} {s s' : HookState}
    {l : List Address} {e : HookEvent} {call : Call Address} (h : s.Active slots l)
    (hcall : e.call = some call) (h' : s'.Active slots (exec 10 l call)) :
    s.SameLockset slots s' ↔ e.NothingToDo slots s := by
  rw [HookState.SameLockset, h'.keeps.consistent.sameLocks_iff h.keeps.consistent]
  cases e with
  | mutexLock m r =>
    obtain rfl := Option.some.inj hcall
    have hlen := h.keeps.consistent.length_le
    rw [HookEvent.NothingToDo, h.keeps.consistent.overflow_iff, exec, push_perm_iff]
    omega
  | mutexUnlock m r =>
    obtain rfl := Option.some.inj hcall
    rw [HookEvent.NothingToDo, h.keeps.consistent.locks_eq, exec, swapRemove_perm_iff]
  | start started => cases hcall
  | stop => cases hcall
  | ownStop m => cases hcall

/-- **Failed calls.** At any point of a run of the hooks, and whatever the real functions return: a
call leaves the lockset as it was if and only if there was nothing to do for it. This includes the
calls that fail. -/
theorem failed_call_unchanged_iff (slots : Vector Address 10) {events : List HookEvent}
    (hcalls : ∀ e ∈ events, e.call.isSome = true) {e : HookEvent} (he : e.call.isSome = true) :
    ∃ s s', hookRun slots (.init true) events = .ok s ∧ hookStep slots s e = .ok s'
      ∧ (s.SameLockset slots s' ↔ e.NothingToDo slots s) := by
  obtain ⟨s, l, hrun, hactive⟩ := exists_hookRun (active_init slots) hcalls
  obtain ⟨call, hcall⟩ := Option.isSome_iff_exists.mp he
  obtain ⟨s', hs', hactive'⟩ := hactive.hookStep hcall
  exact ⟨s, s', hrun, hs', hactive.sameLockset_iff hcall hactive'⟩

/-- A mutex is released by a thread that holds another one. -/
theorem failed_call_unchanged_iff_wrongMutex :
    ∃ s s', hookRun (Vector.replicate 10 0) (.init true) [.mutexLock 8 0] = .ok s
      ∧ hookStep (Vector.replicate 10 0) s (.mutexUnlock 16 1) = .ok s'
      ∧ s.SameLockset (Vector.replicate 10 0) s'
      ∧ (HookEvent.mutexUnlock 16 1).NothingToDo (Vector.replicate 10 0) s := by
  have hcalls : ∀ e ∈ [HookEvent.mutexLock 8 0], e.call.isSome = true := by decide
  obtain ⟨s, s', hs, hs', hiff⟩ :=
    failed_call_unchanged_iff (Vector.replicate 10 0) hcalls (e := .mutexUnlock 16 1) rfl
  have hnothing : (HookEvent.mutexUnlock 16 1).NothingToDo (Vector.replicate 10 0) s := by
    obtain rfl := Except.ok.inj hs
    rw [HookEvent.NothingToDo]
    decide
  exact ⟨s, s', hs, hs', hiff.mpr hnothing, hnothing⟩

/-- A mutex that detects deadlocks is locked a second time: the lockset counts it twice. -/
theorem not_sameLockset_relock :
    ∃ s s', hookRun (Vector.replicate 10 0) (.init true) [.mutexLock 8 0] = .ok s
      ∧ hookStep (Vector.replicate 10 0) s (.mutexLock 8 35) = .ok s' ∧ s.locks = {8}
      ∧ s'.locks = {8, 8} ∧ ¬s.SameLockset (Vector.replicate 10 0) s' :=
  ⟨_, _, rfl, rfl, rfl, rfl, fun h ↦ absurd h.n_eq (by decide)⟩

end Racez
