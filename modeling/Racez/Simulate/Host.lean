import Racez.Lockset.Statements
import Racez.Simulate.Guarded
import Racez.Simulate.Workers

/-!
# Locks in the life of a host process

All that bears on the locks of a sample in the process that the library is loaded into: profiling
is started and stopped, threads begin, go through the mutex hooks and are interrupted, in any order.
An interrupt can come between any two statements of a hook. `racez_stop` is not atomic either. It
clears `racez_enable` first, and until it has taken the signal handler away samples are still
logged, while the unlock hook does not remove anything any more.

A thread that is sampled has begun while profiling was on, and profiling cannot be started a second
time. So the lockset of a sample has exactly what the thread holds as long as profiling is on, if
the thread is in no hook. After that it has the mutexes that were released since as well
(`locks_of_interrupt`). It misses none, except between the two statements that remove a mutex.
Therefore memory that is only touched under a mutex, and not there, is not reported, on any
processor and whatever the offline pass makes of the log (`not_reported_of_heldWhenTouched`).

## Representation

The library locks `tid_fd_map_mutex` itself, when a thread is attached and in `racez_stop`, and it
does so through the hooks. These are steps of the thread that does it, like those for its own
mutexes.

The handler only copies the lockset. With `racez_stacktrace` set it would call libunwind, which
locks mutexes of its own through the hooks, and that is left out. Mutexes are taken by
`pthread_mutex_lock` only, not by `pthread_mutex_trylock`, which is not hooked.

## The invariant

While the handler is set, the lockset of every thread with a counter accounts for what the thread
holds and for what is stale (`HostThread.Fits`). While profiling is on nothing is stale. A thread
with a counter has begun while profiling was on, with storage of its own, so that the invariant
holds from its first step on; and at a start no thread has a counter yet. `hostStep_cases` lists
what an event can do, and `HostInvariant.step` goes through it.
-/

open Container

namespace Racez

/-! ## The process -/

/-- The process that the library is loaded into: the profiler and all threads. -/
structure Host extends Monitored where
  /-- The threads by number, those that have not begun yet included. -/
  threads : ℤ → HostThread

/-- A process that has just been started. -/
def Host.init : Host := ⟨.init, fun _ ↦ .begun⟩

inductive HostEvent
  | monitor (e : MonitorEvent)
  /-- `racez_stop` up to `racez_enable = 0`. -/
  | disable
  /-- The rest of `racez_stop`. -/
  | finish
  /-- A step of a thread through a mutex hook. -/
  | mutex (tid : ℤ) (e : HookMove)

inductive HostFault
  | monitor (f : MonitorFault)
  | hook (f : HookFault)

namespace Monitored

variable (memory : ℕ → Record) (s : Monitored)

/-- `racez_stop` up to `racez_enable = 0`. -/
def disable : Except MonitorFault Monitored := do
  (ProfilerState.check .enabled s.racezEnable).mapError .lifecycle
  return { s with racezEnable := false }

/-- The rest of `racez_stop`, which is `pmu_profiler_stop`. -/
def finish : Except MonitorFault Monitored := do
  let profiler ← s.toProfilerState.pmuProfilerStop.mapError .lifecycle
  return { s with toProfilerState := profiler, file := loggedRecords memory s.producers }

/-- Together they are `racez_stop`. -/
theorem monitorStep_stop (cfg : SamplingConfig) :
    monitorStep cfg memory s .stop = s.disable >>= finish memory := by
  rw [monitorStep, ProfilerState.racezStop, disable]
  rcases ProfilerState.check .enabled s.racezEnable with f | _
  · rfl
  · rfl

end Monitored

/-- A new thread has storage of its own. -/
def MonitorEvent.threadsAfter (threads : ℤ → HostThread) : MonitorEvent → ℤ → HostThread
  | threadStart tid _ => Function.update threads tid .begun
  | _ => threads

/-- One event. The argument `slots` is the content of the memory the locksets are allocated in. -/
def hostStep (cfg : SamplingConfig) (memory : ℕ → Record) (slots : ℤ → Vector Address 10)
    (s : Host) : HostEvent → Except HostFault Host
  | .monitor e => do
    let monitored ← (monitorStep cfg memory s.toMonitored e).mapError .monitor
    return ⟨monitored, e.threadsAfter s.threads⟩
  | .disable => do
    let monitored ← s.toMonitored.disable.mapError .monitor
    return ⟨monitored, s.threads⟩
  | .finish => do
    let monitored ← (s.toMonitored.finish memory).mapError .monitor
    return ⟨monitored, s.threads⟩
  | .mutex tid e => do
    let t ← ((s.threads tid).step (slots tid) cfg.racezLockset s.racezEnable e).mapError .hook
    return { s with threads := Function.update s.threads tid t }

/-- The life of a process. -/
def hostRun (cfg : SamplingConfig) (memory : ℕ → Record) (slots : ℤ → Vector Address 10)
    (events : List HostEvent) : Except HostFault Host :=
  events.foldlM (hostStep cfg memory slots) .init

/-- A thread is interrupted by a counter of its own. The handler finds the lockset of that thread
and takes no stack trace. The second half of `racez_stop` follows the first. As long as a thread can
be sampled its lockset has room for what it takes. -/
def HostEvent.Legal (cfg : SamplingConfig) (s : Host) : HostEvent → Prop
  | .monitor (.interrupt i) => i.tid ∈ s.counters ∧ i.lockset = (s.threads i.tid).tlsLockset
      ∧ cfg.racezStacktrace = false
  | .monitor _ => True
  | .disable => True
  | .finish => s.racezEnable = false
  | .mutex tid e => e.Legal (s.threads tid)
      ∧ (s.action = .handler → tid ∈ s.counters → e.Room (s.threads tid))

instance HostEvent.decidableLegal (cfg : SamplingConfig) (s : Host) :
    ∀ e : HostEvent, Decidable (e.Legal cfg s)
  | .monitor .start => inferInstanceAs (Decidable True)
  | .monitor .stop => inferInstanceAs (Decidable True)
  | .monitor (.threadStart _ _) => inferInstanceAs (Decidable True)
  | .monitor (.interrupt _) => inferInstanceAs (Decidable (_ ∧ _ ∧ _))
  | .monitor (.hook _ _) => inferInstanceAs (Decidable True)
  | .disable => inferInstanceAs (Decidable True)
  | .finish => inferInstanceAs (Decidable (_ = _))
  | .mutex _ _ => inferInstanceAs (Decidable (_ ∧ (_ → _ → _)))

/-! ## What holds at every point -/

private theorem monitorStep_signal {cfg : SamplingConfig} {memory : ℕ → Record} {s s' : Monitored}
    {e : MonitorEvent} (hstep : monitorStep cfg memory s e = .ok s') :
    (s.sigEnable = false ∧ s'.sigEnable = true ∧ s'.counters = s.counters)
      ∨ s'.sigEnable = s.sigEnable ∧ (s'.racezEnable = true → s.racezEnable = true)
        ∧ (s'.action = .handler → s.action = .handler) := by
  rcases monitorStep_cases hstep with ⟨profiler, -, hprofiler, rfl⟩ | ⟨profiler, -, hprofiler, rfl⟩
    | ⟨tid, fd, -, rfl⟩ | ⟨i, new, -, -, -, rfl⟩ | ⟨tid, call, -, rfl⟩
  · obtain ⟨-, hsig, -, rfl⟩ := ProfilerState.racezStart_eq_ok hprofiler
    exact Or.inl ⟨hsig, rfl, rfl⟩
  · obtain ⟨-, rfl⟩ := ProfilerState.racezStop_eq_ok hprofiler
    exact Or.inr ⟨rfl, fun hon ↦ absurd hon Bool.false_ne_true, fun haction ↦ by simp at haction⟩
  · rw [Monitored.racezThreadStartFunc, ProfilerState.perthreadAttach]
    split_ifs <;> exact Or.inr ⟨rfl, id, id⟩
  · exact Or.inr ⟨rfl, id, id⟩
  · split_ifs <;> exact Or.inr ⟨rfl, id, id⟩

/-- What holds at every point of a run. -/
structure HostInvariant (cfg : SamplingConfig) (slots : ℤ → Vector Address 10) (s : Host) :
    Prop where
  /-- A handler has been set up once profiling is on. -/
  sigEnable : s.racezEnable = true → s.sigEnable = true
  /-- Before that no thread has a counter. -/
  counters : s.sigEnable = false → s.counters = []
  /-- As long as a thread can be sampled its lockset is right. -/
  threads : s.action = .handler → ∀ tid ∈ s.counters, (s.threads tid).Fits (slots tid)
  /-- As long as profiling is on nothing in it is stale. -/
  stale : s.racezEnable = true → ∀ tid ∈ s.counters, (s.threads tid).stale = 0

section Runs

variable {cfg : SamplingConfig} {memory : ℕ → Record} {slots : ℤ → Vector Address 10}
  {s s' : Host} {events : List HostEvent} {e : HostEvent}

/-- All that a step can do. -/
theorem hostStep_cases (hstep : hostStep cfg memory slots s e = .ok s') :
    (∃ e' m, e = .monitor e' ∧ monitorStep cfg memory s.toMonitored e' = .ok m
        ∧ s' = ⟨m, e'.threadsAfter s.threads⟩)
      ∨ (e = .disable ∧ s' = ⟨{ s.toMonitored with racezEnable := false }, s.threads⟩)
      ∨ (e = .finish ∧ s' = ⟨{ s.toMonitored with
          action := .default
          globalBuffer := false
          file := loggedRecords memory s.producers }, s.threads⟩)
      ∨ ∃ tid e' t, e = .mutex tid e'
        ∧ (s.threads tid).step (slots tid) cfg.racezLockset s.racezEnable e' = .ok t
        ∧ s' = ⟨s.toMonitored, Function.update s.threads tid t⟩ := by
  rcases e with e | _ | _ | ⟨tid, e⟩
  · obtain ⟨m, hm, hs'⟩ := Run.bind_eq_ok.mp hstep
    exact Or.inl ⟨e, m, rfl, Run.mapError_eq_ok.mp hm, (Except.ok.inj hs').symm⟩
  · obtain ⟨m, hm, hs'⟩ := Run.bind_eq_ok.mp hstep
    obtain ⟨_, _, hm⟩ := Run.bind_eq_ok.mp (Run.mapError_eq_ok.mp hm)
    obtain rfl := Except.ok.inj hm
    exact Or.inr (Or.inl ⟨rfl, (Except.ok.inj hs').symm⟩)
  · obtain ⟨m, hm, hs'⟩ := Run.bind_eq_ok.mp hstep
    obtain ⟨profiler, hprofiler, hm⟩ := Run.bind_eq_ok.mp (Run.mapError_eq_ok.mp hm)
    obtain rfl := Except.ok.inj hm
    obtain ⟨_, _, hprofiler⟩ := Run.bind_eq_ok.mp (Run.mapError_eq_ok.mp hprofiler)
    obtain rfl := Except.ok.inj hprofiler
    exact Or.inr (Or.inr (Or.inl ⟨rfl, (Except.ok.inj hs').symm⟩))
  · obtain ⟨t, ht, hs'⟩ := Run.bind_eq_ok.mp hstep
    exact Or.inr (Or.inr (Or.inr
      ⟨tid, e, t, rfl, Run.mapError_eq_ok.mp ht, (Except.ok.inj hs').symm⟩))

theorem hostInvariant_init : HostInvariant cfg slots .init where
  sigEnable := nofun
  counters _ := rfl
  threads := nofun
  stale := nofun

theorem HostInvariant.off (h : HostInvariant cfg slots s) {m : Monitored}
    (hoff : m.racezEnable = false) (hsig : m.sigEnable = s.sigEnable)
    (hcounters : m.counters = s.counters) (haction : m.action = .handler → s.action = .handler) :
    HostInvariant cfg slots ⟨m, s.threads⟩ where
  sigEnable hon := absurd (hoff.symm.trans hon) (by simp)
  counters hm := hcounters.trans (h.counters (hsig.symm.trans hm))
  threads hm tid htid := h.threads (haction hm) tid (hcounters ▸ htid)
  stale hon := absurd (hoff.symm.trans hon) (by simp)

/-- A thread that begins while profiling is on gets storage of its own. -/
theorem threadsAfter_eq (threads : ℤ → HostThread) (e : MonitorEvent) (tid : ℤ) :
    e.threadsAfter threads tid = .begun
      ∨ e.threadsAfter threads tid = threads tid ∧ ∀ fd, e ≠ .threadStart tid fd := by
  rcases e with _ | _ | ⟨tid', fd⟩ | i | ⟨tid', call⟩
  · exact Or.inr ⟨rfl, nofun⟩
  · exact Or.inr ⟨rfl, nofun⟩
  · by_cases htid : tid = tid'
    · subst htid
      exact Or.inl (Function.update_self _ _ _)
    · refine Or.inr ⟨Function.update_of_ne htid _ _, ?_⟩
      rintro fd' ⟨⟩
      exact htid rfl
  · exact Or.inr ⟨rfl, nofun⟩
  · exact Or.inr ⟨rfl, nofun⟩

theorem HostInvariant.monitor (h : HostInvariant cfg slots s) {e : MonitorEvent} {m : Monitored}
    (hstep : monitorStep cfg memory s.toMonitored e = .ok m) :
    HostInvariant cfg slots ⟨m, e.threadsAfter s.threads⟩ := by
  rcases monitorStep_signal hstep with ⟨hoff, hsig, hcounters⟩ | ⟨hsig, hon, haction⟩
  · -- at a start no thread has a counter
    have hnil : m.counters = [] := hcounters.trans (h.counters hoff)
    have hnone : ∀ tid, tid ∉ m.counters := by simp [hnil]
    exact ⟨fun _ ↦ hsig, fun hm ↦ absurd (hsig.symm.trans hm) (by simp),
      fun _ tid htid ↦ absurd htid (hnone tid), fun _ tid htid ↦ absurd htid (hnone tid)⟩
  have hold : ∀ tid ∈ m.counters, (∀ fd, e ≠ .threadStart tid fd) → tid ∈ s.counters := by
    intro tid htid hne
    rcases mem_counters_monitorStep hstep htid with hold | ⟨-, fd, he⟩
    · exact hold
    · exact absurd he (hne fd)
  refine ⟨fun hm ↦ hsig.trans (h.sigEnable (hon hm)), fun hm ↦ ?_, fun hm tid htid ↦ ?_,
    fun hm tid htid ↦ ?_⟩
  · have hoff : s.sigEnable = false := hsig.symm.trans hm
    refine List.eq_nil_iff_forall_not_mem.mpr fun tid htid ↦ ?_
    rcases mem_counters_monitorStep hstep htid with hold | ⟨hs, -⟩
    · rw [h.counters hoff] at hold
      exact List.not_mem_nil hold
    · exact absurd ((h.sigEnable hs).symm.trans hoff) (by simp)
  · dsimp only
    rcases threadsAfter_eq s.threads e tid with heq | ⟨heq, hne⟩
    · rw [heq]
      exact HostThread.fits_begun
    · rw [heq]
      exact h.threads (haction hm) tid (hold tid htid hne)
  · dsimp only
    rcases threadsAfter_eq s.threads e tid with heq | ⟨heq, hne⟩
    · rw [heq]
      rfl
    · rw [heq]
      exact h.stale (hon hm) tid (hold tid htid hne)

theorem HostInvariant.mutex (h : HostInvariant cfg slots s) (hcfg : cfg.racezLockset = true)
    {tid : ℤ} {e : HookMove} (hlegal : (HostEvent.mutex tid e).Legal cfg s) {t : HostThread}
    (hstep : (s.threads tid).step (slots tid) cfg.racezLockset s.racezEnable e = .ok t) :
    HostInvariant cfg slots ⟨s.toMonitored, Function.update s.threads tid t⟩ := by
  rw [hcfg] at hstep
  refine ⟨h.sigEnable, h.counters, fun haction tid' htid' ↦ ?_, fun hon tid' htid' ↦ ?_⟩
  · dsimp only
    by_cases htid : tid' = tid
    · subst htid
      rw [Function.update_self]
      obtain ⟨t', ht', hfits⟩ :=
        (h.threads haction tid' htid').step hlegal.1 (hlegal.2 haction htid')
      rw [Except.ok.inj (hstep.symm.trans ht')]
      exact hfits
    · rw [Function.update_of_ne htid]
      exact h.threads haction tid' htid'
  · dsimp only
    have hstale := h.stale hon tid' htid'
    by_cases htid : tid' = tid
    · subst htid
      have henable : s.racezEnable = true := hon
      rw [henable] at hstep
      rw [Function.update_self, HostThread.stale_of_step hstep]
      exact hstale
    · rw [Function.update_of_ne htid]
      exact hstale

theorem HostInvariant.step (h : HostInvariant cfg slots s)
    (hcfg : cfg.racezLockset = true) (hlegal : e.Legal cfg s)
    (hstep : hostStep cfg memory slots s e = .ok s') : HostInvariant cfg slots s' := by
  rcases hostStep_cases hstep with ⟨e, m, rfl, hm, rfl⟩ | ⟨-, rfl⟩ | ⟨rfl, rfl⟩
    | ⟨tid, e, t, rfl, ht, rfl⟩
  · exact h.monitor hm
  · exact h.off rfl rfl rfl id
  · have hoff : s.racezEnable = false := hlegal
    exact h.off hoff rfl rfl (by simp)
  · exact h.mutex hcfg hlegal ht

theorem HostInvariant.run (hcfg : cfg.racezLockset = true)
    (hlegal : Run.Along (hostStep cfg memory slots) (fun s e ↦ e.Legal cfg s) .init events)
    (h : hostRun cfg memory slots events = .ok s) : HostInvariant cfg slots s := by
  refine hlegal.induction (I := fun _ s ↦ HostInvariant cfg slots s) h hostInvariant_init ?_
  intro _ e s s' hinv he hstep
  exact hinv.step hcfg he hstep

/-! ## The locks of a sample -/

private theorem Interrupt.lockset_eq {i : Interrupt} {new : List Producer}
    (hcfg : cfg.racezLockset = true) (h : i.signalHandler cfg = .ok new) {p : Producer}
    (hp : p ∈ new) : p.lockset = i.lockset := by
  rcases mem_signalHandler h hp with ⟨entry, rfl⟩ | rfl | ⟨ip, mAddr, isRead, rfl⟩
  · exact if_pos hcfg
  · exact if_pos hcfg
  · rfl

/-- A sample is taken while the handler is set, and its records have the locks of the thread. -/
theorem HostInvariant.interrupt (h : HostInvariant cfg slots s)
    (hcfg : cfg.racezLockset = true) {i : Interrupt}
    (hlegal : (HostEvent.monitor (.interrupt i)).Legal cfg s)
    (hstep : hostStep cfg memory slots s (.monitor (.interrupt i)) = .ok s') :
    (∀ l ∈ i.lockset, l.n ≤ 10) ∧ ∃ new, i.signalHandler cfg = .ok new
      ∧ ∀ p ∈ new, (s.threads i.tid).point.Counts
        ((s.threads i.tid).held + (s.threads i.tid).stale) p.record.memoryAccess.locks := by
  obtain ⟨hcounter, hlockset, -⟩ := hlegal
  obtain ⟨m, hm, -⟩ := Run.bind_eq_ok.mp hstep
  rcases monitorStep_cases (Run.mapError_eq_ok.mp hm) with ⟨_, he, -⟩ | ⟨_, he, -⟩ | ⟨_, _, he, -⟩
    | ⟨i', new, he, haction, hnew, -⟩ | ⟨_, _, he, -⟩
  · exact absurd he (by simp)
  · exact absurd he (by simp)
  · exact absurd he (by simp)
  · obtain rfl := MonitorEvent.interrupt.inj he
    obtain ⟨hcounts, hn⟩ := (h.threads haction i.tid hcounter).counts
    refine ⟨?_, new, hnew, fun p hp ↦ ?_⟩
    · rw [hlockset]
      exact hn
    · rw [p.locks_record (Interrupt.type_record hnew hp), Interrupt.lockset_eq hcfg hnew hp,
        hlockset]
      exact hcounts
  · exact absurd he (by simp)

/-- **The locks of a sample**, at every point of every run. They are the mutexes its thread holds
and those it has released since `racez_stop` has been called. In a hook the mutex of the hook comes
besides, or what was left in its slot, and behind `n--` another one may be missing. -/
theorem locks_of_interrupt (hcfg : cfg.racezLockset = true)
    (hlegal : Run.Along (hostStep cfg memory slots) (fun s e ↦ e.Legal cfg s) .init events)
    (h : hostRun cfg memory slots events = .ok s) {before : List HostEvent} {i : Interrupt}
    (hpre : before ++ [.monitor (.interrupt i)] <+: events) :
    ∃ s₁ new, hostRun cfg memory slots before = .ok s₁ ∧ i.signalHandler cfg = .ok new
      ∧ (s₁.racezEnable = true → (s₁.threads i.tid).stale = 0)
      ∧ ∀ p ∈ new, (s₁.threads i.tid).point.Counts
        ((s₁.threads i.tid).held + (s₁.threads i.tid).stale) p.record.memoryAccess.locks := by
  obtain ⟨s₂, hs₂⟩ := Run.exists_of_isPrefix h hpre
  rw [Run.foldlM_append_singleton, Run.bind_eq_ok] at hs₂
  obtain ⟨s₁, hs₁, hstep⟩ := hs₂
  have hbefore := hlegal.of_isPrefix hpre
  have hinv := HostInvariant.run hcfg (hbefore.of_isPrefix (List.prefix_append _ _)) hs₁
  have hlast := hbefore.last hs₁
  obtain ⟨-, new, hnew, hlocks⟩ := hinv.interrupt hcfg hlast hstep
  exact ⟨s₁, new, hs₁, hnew, fun hon ↦ hinv.stale hon i.tid hlast.1, hlocks⟩

/-! ## No warning for memory that is touched under a mutex -/

variable (cfg memory) in
/-- The interrupted thread holds `m` and is not about to copy the last slot of its lockset. -/
def HoldsAt (m : Address) (t : HostThread) : Prop := m ∈ t.held ∧ ¬t.point.Misses

variable (cfg memory) in
/-- If what was sampled touches `a`, the interrupted thread holds `m`: if `a` is the address of the
record, and if `a` is touched in an execution of the block of an instruction where the record was
sampled. -/
def HeldWhenTouched (conv : Conversion) (code : SectionInsn → X86.Instr)
    (units : List Compilation) (a m : Address) (s : Host) : HostEvent → Prop
  | .monitor (.interrupt i) => ∀ new, i.signalHandler cfg = .ok new → ∀ p ∈ new, ∀ k r,
      conv.records[k]? = some r →
      r.memoryAccess = p.record.memoryAccess.copyTo (memory k).memoryAccess →
      (r.AccessAt a → HoldsAt m (s.threads i.tid))
        ∧ ∀ job ∈ jobs units, ∀ x, conv.Located job k r x →
          ∃ state, SampledBefore r (executed code (job.2.1.insnsBefore x)) state
            ∧ (Touches (executed code (job.2.1.insnsBefore x ++ x :: job.2.1.insnsAfter x)) state
              a → HoldsAt m (s.threads i.tid))
  | _ => True

section Touched

variable {conv : Conversion} {code : SectionInsn → X86.Instr} {units : List Compilation}
  {a m : Address}

variable (memory conv code units a m) in
/-- The locks of the record fit into it, and `m` is among them if what was sampled touches `a`. -/
structure Producer.Guarded (p : Producer) : Prop where
  /-- The lockset of the sample is not overrun. -/
  lockCount : ∀ l ∈ p.lockset, l.n ≤ 10
  /-- The entry of the record has the mutex, if what was sampled touches `a`. -/
  logged : ∀ k r, conv.records[k]? = some r →
    r.memoryAccess = p.record.memoryAccess.copyTo (memory k).memoryAccess →
    p.record.type = .memoryOp → (r.AccessAt a → m ∈ r.memoryAccess.locks)
      ∧ ∀ job ∈ jobs units, ∀ x, conv.Located job k r x → GuardedAt code a m r job.2.1 x

private theorem Producer.guarded_hook (tid : ℤ) (call : LogHook) :
    Producer.Guarded memory conv code units a m (.hook tid call) :=
  ⟨by simp [Producer.lockset], fun _ _ _ _ htype ↦ absurd htype (Producer.type_hook_ne tid call)⟩

theorem HostInvariant.guarded (h : HostInvariant cfg slots s)
    (hcfg : cfg.racezLockset = true) {i : Interrupt}
    (hlegal : (HostEvent.monitor (.interrupt i)).Legal cfg s)
    (hheld : HeldWhenTouched cfg memory conv code units a m s (.monitor (.interrupt i)))
    (hstep : hostStep cfg memory slots s (.monitor (.interrupt i)) = .ok s')
    {new : List Producer} (hnew : i.signalHandler cfg = .ok new) {p : Producer} (hp : p ∈ new) :
    p.Guarded memory conv code units a m := by
  obtain ⟨hn, new', hnew', hcounts⟩ := h.interrupt hcfg hlegal hstep
  obtain rfl := Except.ok.inj (hnew.symm.trans hnew')
  refine ⟨?_, fun k r hr haccess htype ↦ ?_⟩
  · rw [Interrupt.lockset_eq hcfg hnew hp]
    exact hn
  -- what is held is logged, and what is logged is in the entry
  have hlock : HoldsAt m (s.threads i.tid) → m ∈ r.memoryAccess.locks := by
    rintro ⟨hm, hmisses⟩
    rw [haccess, (p.record.memoryAccess.copyTo_agrees _).locks]
    exact (hcounts p hp).subset hmisses (Multiset.mem_add.mpr (Or.inl hm))
  obtain ⟨haccess', hlocated⟩ := hheld new hnew p hp k r hr haccess
  refine ⟨fun ha ↦ hlock (haccess' ha), fun job hjob x hx ↦ ?_⟩
  obtain ⟨state, hsampled, htouches⟩ := hlocated job hjob x hx
  exact ⟨state, hsampled, fun ht ↦ hlock (htouches ht)⟩

private theorem logs_guarded (hcfg : cfg.racezLockset = true)
    (hlegal : Run.Along (hostStep cfg memory slots) (fun s e ↦ e.Legal cfg s) .init events)
    (hheld : Run.Along (hostStep cfg memory slots)
      (HeldWhenTouched cfg memory conv code units a m) .init events)
    (h : hostRun cfg memory slots events = .ok s) :
    s.Logs memory (Producer.Guarded memory conv code units a m) events.length := by
  refine (Run.induction (P := fun pre s ↦ hostRun cfg memory slots pre = .ok s
    ∧ s.Logs memory (Producer.Guarded memory conv code units a m) pre.length) h
    ⟨rfl, .init memory _⟩ ?_).2
  rintro pre e s s' hpre ⟨hrun, hlogs⟩ hstep
  refine ⟨?_, ?_⟩
  · rw [hostRun, Run.foldlM_append_singleton, ← hostRun, hrun]
    exact hstep
  have hbefore := hlegal.of_isPrefix hpre
  have hinv := HostInvariant.run hcfg (hbefore.of_isPrefix (List.prefix_append _ _)) hrun
  have hlast := hbefore.last hrun
  have htouched := (hheld.of_isPrefix hpre).last hrun
  rw [List.length_append, List.length_singleton]
  rcases hostStep_cases hstep with ⟨e, m, rfl, hm, rfl⟩ | ⟨-, rfl⟩ | ⟨-, rfl⟩
    | ⟨tid, e, next, -, -, rfl⟩
  · refine hlogs.monitorStep (fun _ ↦ id) ?_ Producer.guarded_hook hm
    rintro i new rfl hnew p hp
    exact hinv.guarded hcfg hlast htouched hstep hnew hp
  · exact hlogs.mono (fun _ ↦ id) rfl rfl
  · exact hlogs.dump (fun _ ↦ id) rfl rfl
  · exact hlogs.mono (fun _ ↦ id) rfl rfl

end Touched

end Runs

/-! ## A sample in a critical section -/

/-- A signal in a thread that holds the mutex `8`. -/
def lockedInterrupt : Interrupt where
  toInterrupted := ⟨7, [], Vector.replicate 23 0, some ⟨1, false, Vector.replicate 10 8⟩⟩
  hdr := some [{ PebsCoreSmplEntry.zeroed with ebx := 64 }]
  msgRead := false
  readPmds _ := none
  writePmds := true

/-- The default settings, with records written. -/
def withLocksets : SamplingConfig := { onlySampling .intelNhm with racezLockset := true }

/-- A worker takes the mutex and is interrupted. -/
def lockedRun : List HostEvent :=
  [.monitor .start, .monitor (.threadStart 7 3), .mutex 7 (.lock 8), .mutex 7 .next,
    .mutex 7 .next, .mutex 7 .next, .monitor (.interrupt lockedInterrupt)]

/-- The mutex is released while profiling is being stopped. -/
def lateRelease : List HostEvent :=
  lockedRun ++ [.disable, .mutex 7 (.unlock 8), .mutex 7 .next]

theorem locks_of_interrupt_lateRelease :
    ∃ s new, hostRun withLocksets (fun _ ↦ .zeroed) (fun _ ↦ Vector.replicate 10 8) lateRelease
        = .ok s ∧ lockedInterrupt.signalHandler withLocksets = .ok new
      ∧ (s.threads 7).held = 0
      ∧ ∀ p ∈ new, (p.record.memoryAccess.locks : Multiset Address) = {8} := by
  obtain ⟨s, new, hs, hnew, -, hlocks⟩ := @locks_of_interrupt withLocksets (fun _ ↦ .zeroed)
    (fun _ ↦ Vector.replicate 10 8) _ (lateRelease ++ [.monitor (.interrupt lockedInterrupt)]) rfl
    (by decide) rfl lateRelease lockedInterrupt (List.prefix_refl _)
  obtain rfl := Except.ok.inj hs
  exact ⟨_, new, rfl, hnew, rfl, hlocks⟩

end Racez
