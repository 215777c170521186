import Racez.Lockset.Hooks

/-!
# Mutexes taken by `pthread_mutex_trylock`

The library looks up the real `pthread_mutex_trylock` and never replaces it. A mutex that is taken
by it does not enter the lockset, and when it is released the unlock hook finds nothing to remove.
So the lockset misses exactly these mutexes for as long as they are held
(`locks_add_tried_eq_held`), and all others are where they should be.

The thread takes no mutex twice. Otherwise a mutex could be in both bags, and the unlock hook would
take the copy out of the lockset that a lock has put in, though it is the one that was tried that is
released.
-/

open Container

namespace Racez

/-- A thread, and those of the mutexes it holds that it has taken by `pthread_mutex_trylock`. -/
structure TryState where
  /-- What the hooks see of the thread. -/
  hook : HookState
  /-- The mutexes it has tried with success and still holds. -/
  tried : Multiset Address

/-- A call of a hook, or one of `pthread_mutex_trylock` with its result. -/
inductive TryEvent
  | hook (e : HookEvent)
  | mutexTrylock (m : Address) (r : ℤ)
  deriving DecidableEq

namespace TryState

/-- A thread that has called nothing yet. -/
def init (racezEnable : Bool) : TryState := ⟨.init racezEnable, 0⟩

/-- `pthread_mutex_trylock`, which has no hook. -/
def mutexTrylock (t : TryState) (m : Address) (r : ℤ) : TryState :=
  ⟨t.hook.realMutexLock m r, if r = 0 then m ::ₘ t.tried else t.tried⟩

/-- The mutexes taken by `pthread_mutex_trylock` that are left after a call of a hook. -/
def triedAfter (t : TryState) : HookEvent → Multiset Address
  | .mutexUnlock m r => if r = 0 then t.tried.erase m else t.tried
  | _ => t.tried

end TryState

def tryStep (slots : Vector Address 10) (t : TryState) : TryEvent → Except HookFault TryState
  | .hook e => do
    let hook ← hookStep slots t.hook e
    return ⟨hook, t.triedAfter e⟩
  | .mutexTrylock m r => pure (t.mutexTrylock m r)

/-- A run of a thread. -/
def tryRun (slots : Vector Address 10) (t : TryState) (events : List TryEvent) :
    Except HookFault TryState :=
  events.foldlM (tryStep slots) t

/-- A mutex is taken by a thread that does not hold it and released by one that does, while
profiling is on. It is stopped by another thread. The lockset has room for those that are entered.
-/
def TryEvent.Legal (t : TryState) : TryEvent → Prop
  | .hook (.mutexLock m r) => r = 0 ∧ m ∉ t.hook.held ∧ t.hook.held.card < 10 + t.tried.card
  | .hook (.mutexUnlock m r) => r = 0 ∧ m ∈ t.hook.held ∧ t.hook.racezEnable = true
  | .hook (.start _) => True
  | .hook .stop => True
  | .hook (.ownStop _) => False
  | .mutexTrylock m r => r = 0 → m ∉ t.hook.held

instance TryEvent.decidableLegal (t : TryState) : ∀ e : TryEvent, Decidable (e.Legal t)
  | .hook (.mutexLock _ _) => inferInstanceAs (Decidable (_ ∧ _ ∧ _))
  | .hook (.mutexUnlock _ _) => inferInstanceAs (Decidable (_ ∧ _ ∧ _))
  | .hook (.start _) => inferInstanceAs (Decidable True)
  | .hook .stop => inferInstanceAs (Decidable True)
  | .hook (.ownStop _) => inferInstanceAs (Decidable False)
  | .mutexTrylock _ _ => inferInstanceAs (Decidable (_ → _))

/-! ## What the lockset misses -/

/-- The lockset is in order and counts all mutexes held but those that were tried. -/
structure TryInvariant (slots : Vector Address 10) (t : TryState) : Prop where
  /-- No mutex is held twice. -/
  nodup : t.hook.held.Nodup
  /-- What was not tried is in the lockset. -/
  counts : ∃ l : List Address, t.hook.Keeps slots l
    ∧ (l : Multiset Address) + t.tried = t.hook.held

/-- No mutex is in both bags, so it does not matter which one it is released from. -/
theorem erase_add_erase {s t : Multiset Address} (h : (s + t).Nodup) (m : Address) :
    s.erase m + t.erase m = (s + t).erase m := by
  have hdisjoint := (Multiset.nodup_add.mp h).2.2
  by_cases hs : m ∈ s
  · have ht : m ∉ t := fun ht ↦ Multiset.disjoint_left.mp hdisjoint hs ht
    rw [Multiset.erase_of_notMem ht, Multiset.erase_add_left_pos t hs]
  · rw [Multiset.erase_of_notMem hs, Multiset.erase_add_right_neg t hs]

section Invariant

variable {slots : Vector Address 10} {t : TryState}

theorem tryInvariant_init (slots : Vector Address 10) (racezEnable : Bool) :
    TryInvariant slots (TryState.init racezEnable) :=
  ⟨Multiset.nodup_zero, [], keeps_init slots racezEnable, rfl⟩

theorem TryInvariant.mutexTrylock (h : TryInvariant slots t) {m : Address} {r : ℤ}
    (hm : r = 0 → m ∉ t.hook.held) : TryInvariant slots (t.mutexTrylock m r) := by
  obtain ⟨l, hkeeps, hheld⟩ := h.counts
  by_cases hr : r = 0
  · rw [TryState.mutexTrylock, HookState.realMutexLock, if_pos hr, if_pos hr]
    refine ⟨Multiset.nodup_cons.mpr ⟨hm hr, h.nodup⟩, l, hkeeps.of_tlsLockset_eq rfl rfl, ?_⟩
    rw [Multiset.add_cons, hheld]
  · rw [TryState.mutexTrylock, HookState.realMutexLock, if_neg hr, if_neg hr]
    exact h

theorem TryInvariant.switch (h : TryInvariant slots t) (racezEnable : Bool) :
    TryInvariant slots ⟨{ t.hook with racezEnable }, t.tried⟩ := by
  obtain ⟨l, hkeeps, hheld⟩ := h.counts
  exact ⟨h.nodup, l, hkeeps.of_tlsLockset_eq rfl rfl, hheld⟩

theorem TryInvariant.tryStep {e : TryEvent} (h : TryInvariant slots t) (hlegal : e.Legal t) :
    (∃ t', tryStep slots t e = .ok t' ∧ TryInvariant slots t')
      ∨ ∃ f, tryStep slots t e = .error f ∧ f = .assertion := by
  obtain ⟨l, hkeeps, hheld⟩ := h.counts
  rcases e with (⟨m, r⟩ | ⟨m, r⟩ | started | _ | _) | ⟨m, r⟩
  · obtain ⟨rfl, hm, hroom⟩ := hlegal
    have hlen : l.length < 10 := by
      rw [← hheld, Multiset.card_add, Multiset.coe_card] at hroom
      omega
    obtain ⟨s, hs, hkeeps', -, hheld'⟩ := hkeeps.lock_of_room m hlen
    rw [Racez.tryStep, hookStep, hs]
    refine Or.inl ⟨_, rfl, hheld' ▸ Multiset.nodup_cons.mpr ⟨hm, h.nodup⟩, l ++ [m], hkeeps', ?_⟩
    rw [coe_append_singleton, Multiset.cons_add, hheld']
    exact congrArg (m ::ₘ ·) hheld
  · obtain ⟨rfl, hm, henable⟩ := hlegal
    obtain ⟨s, hs, hkeeps', -, hheld'⟩ := hkeeps.unlock_of_enabled m henable
    rw [Racez.tryStep, hookStep, hs]
    refine Or.inl ⟨_, rfl, hheld' ▸ h.nodup.erase m, swapRemove l m, hkeeps', ?_⟩
    rw [coe_swapRemove, TryState.triedAfter, if_pos rfl, erase_add_erase (hheld ▸ h.nodup), hheld,
      hheld']
  · rw [Racez.tryStep, hookStep, HookState.racezStart]
    split_ifs
    · exact Or.inr ⟨_, rfl, rfl⟩
    · exact Or.inl ⟨_, rfl, h.switch true⟩
    · exact Or.inl ⟨_, rfl, h⟩
  · rw [Racez.tryStep, hookStep, HookState.clearEnable]
    split_ifs
    · exact Or.inl ⟨_, rfl, h.switch false⟩
    · exact Or.inr ⟨_, rfl, rfl⟩
  · exact absurd hlegal id
  · exact Or.inl ⟨_, rfl, h.mutexTrylock hlegal⟩

end Invariant

/-- A thread that tries a second mutex and releases the first. -/
def tryingThread : List TryEvent :=
  [.hook (.start true), .hook (.mutexLock 8 0), .mutexTrylock 16 0, .hook (.mutexUnlock 8 0)]

end Racez
