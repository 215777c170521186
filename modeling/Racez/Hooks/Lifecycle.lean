import Racez.Container.OrderedMap
import Racez.Lockset.Hooks

/-!
# Starting and stopping the profiler

The profiler can be started and stopped, threads attach themselves while it is on, and signals of
the hardware counters arrive. Five pieces of global state are involved, and the functions assert
what they expect of them.

Two of the assertions can fail. Stopping takes the signal handler away and does not take back the
note that one was set up, so no second start gets through. And the handler looks up the thread it
runs on with an operator that creates a missing entry, with a file descriptor of zero, for which
stopping is not prepared. `lifecycle_iff` says that no assertion fails otherwise, up to the first
signal that finds no handler, and with it the process ends.

## One period

A legal history is a sequence of periods, each begun by a start and ended by a stop. Since no second
start gets through, there is only one period to look at, and `PeriodInvariant` says what the state
is during it. The flags are determined by the events alone. Of the map of descriptors it says that a
thread that has attached itself has a descriptor, and that a thread that has not has an entry only
if it had a signal, with descriptor zero. The stop therefore gets through exactly if no such thread
is there (`PeriodInvariant.all_ne_zero_iff`).

## After the stop

The signal has its default action then, and that ends the process. `untilKilled` cuts the history
there, and `lifecycle_iff` speaks about what is in front.

## Two models of a start and a stop

`racez_start` and `racez_stop` also appear in `Lockset/Hooks`, as far as a thread sees them through
the hooks: as a flag that is set and cleared. `racezStart_hook` and `racezStop_hook` say that the
two agree on it.
-/

open Container

namespace Racez

/-! ## The state -/

/-- The assertions of the profiler. -/
inductive ProfilerAssertion
  /-- `InitBuffer`: `global_buffer == NULL`. -/
  | bufferNull
  /-- `pmu_profiler_start`: `sig_enable == false`. -/
  | signalDisabled
  /-- `racez_start`: `racez_enable == 0`. -/
  | notEnabled
  /-- `racez_stop`: `racez_enable == 1`. -/
  | enabled
  /-- `pmu_profiler_stop`: `fd != 0`. -/
  | fdNonzero
  deriving DecidableEq

/-- How the process can end. -/
inductive LifecycleFault
  | assertion (which : ProfilerAssertion)
  /-- The default action of the signal. -/
  | killed
  deriving DecidableEq

/-- The action set for the signal. -/
inductive SignalAction
  | default
  | handler
  deriving DecidableEq

/-- The global state. Of the buffer, whether the pointer is set. -/
structure ProfilerState where
  /-- `racez_enable`. -/
  racezEnable : Bool
  /-- `sig_enable`. -/
  sigEnable : Bool
  /-- Whether `global_buffer` is not null. -/
  globalBuffer : Bool
  /-- `tid_fd_map`. -/
  tidFdMap : OrderedMap ℤ ℤ
  /-- What a signal does. -/
  action : SignalAction

/-- A process that has just been started. -/
def ProfilerState.init : ProfilerState := ⟨false, false, false, .empty, .default⟩

inductive LifecycleEvent
  | start
  | stop
  /-- A new thread attaches itself, and gets a file descriptor. -/
  | attach (tid fd : ℤ)
  /-- The signal is delivered to a thread. -/
  | sigio (tid : ℤ)
  deriving DecidableEq

/-! ## The functions -/

namespace ProfilerState

def check (which : ProfilerAssertion) (cond : Bool) : Except LifecycleFault Unit :=
  if cond then .ok () else .error (.assertion which)

/-- `InitBuffer`. -/
def initBuffer (s : ProfilerState) : Except LifecycleFault ProfilerState := do
  check .bufferNull (!s.globalBuffer)
  return { s with globalBuffer := true }

/-- `setup_signal_handler`. -/
def setupSignalHandler (s : ProfilerState) : ProfilerState :=
  { s with action := .handler, sigEnable := true }

/-- `disable_signal_handler`. It sets `sa_handler` to `SIG_IGN`, and then `sa_sigaction` to `NULL`.
The two members share their storage, so the second is what counts: `NULL` is `SIG_DFL`. -/
def disableSignalHandler (s : ProfilerState) : ProfilerState := { s with action := .default }

/-- `StopBuffer`. -/
def stopBuffer (s : ProfilerState) : ProfilerState := { s with globalBuffer := false }

/-- `pmu_profiler_start`. -/
def pmuProfilerStart (s : ProfilerState) : Except LifecycleFault ProfilerState := do
  let s ← s.initBuffer
  check .signalDisabled (!s.sigEnable)
  return s.setupSignalHandler

/-- `pmu_profiler_stop`: the file descriptors of all threads are stopped. -/
def pmuProfilerStop (s : ProfilerState) : Except LifecycleFault ProfilerState := do
  check .fdNonzero (s.tidFdMap.entries.all fun e ↦ e.2 ≠ 0)
  return s.disableSignalHandler.stopBuffer

/-- `racez_start`. -/
def racezStart (s : ProfilerState) : Except LifecycleFault ProfilerState := do
  let s ← s.pmuProfilerStart
  check .notEnabled (!s.racezEnable)
  return { s with racezEnable := true }

/-- `racez_stop`. -/
def racezStop (s : ProfilerState) : Except LifecycleFault ProfilerState := do
  check .enabled s.racezEnable
  pmuProfilerStop { s with racezEnable := false }

/-- `pmu_profiler_perthread_attach`: `tid_fd_map[tid] = fd`. -/
def perthreadAttach (s : ProfilerState) (tid fd : ℤ) : ProfilerState :=
  if s.racezEnable = false then s
  else { s with tidFdMap := (s.tidFdMap.insert tid 0).1.assign tid fd }

/-- `signal_handler`, as far as it goes beyond the log: the comparison with `tid_fd_map[tid]`. -/
def signalHandler (s : ProfilerState) (tid : ℤ) : ProfilerState :=
  { s with tidFdMap := (s.tidFdMap.insert tid 0).1 }

/-- Delivery of the signal. -/
def deliver (s : ProfilerState) (tid : ℤ) : Except LifecycleFault ProfilerState :=
  match s.action with
  | .default => .error .killed
  | .handler => .ok (s.signalHandler tid)

end ProfilerState

section Functions

variable {s s' : ProfilerState}

namespace ProfilerState

@[simp] theorem check_eq_ok {which : ProfilerAssertion} {cond : Bool} {u : Unit} :
    check which cond = .ok u ↔ cond = true := by
  rw [check]
  split_ifs with hcond
  · exact iff_of_true rfl hcond
  · exact iff_of_false (by simp) hcond

theorem racezStart_eq_ok (h : s.racezStart = .ok s') :
    s.globalBuffer = false ∧ s.sigEnable = false ∧ s.racezEnable = false
      ∧ s' = { s with
        racezEnable := true
        sigEnable := true
        globalBuffer := true
        action := .handler } := by
  obtain ⟨s₁, hs₁, h⟩ := Run.bind_eq_ok.mp h
  obtain ⟨s₂, hs₂, hs₁⟩ := Run.bind_eq_ok.mp hs₁
  obtain ⟨_, hbuffer, hs₂⟩ := Run.bind_eq_ok.mp hs₂
  obtain rfl := Except.ok.inj hs₂
  obtain ⟨_, hsignal, hs₁⟩ := Run.bind_eq_ok.mp hs₁
  obtain rfl := Except.ok.inj hs₁
  obtain ⟨_, henable, h⟩ := Run.bind_eq_ok.mp h
  rw [check_eq_ok, Bool.not_eq_true'] at hbuffer hsignal henable
  exact ⟨hbuffer, hsignal, henable, (Except.ok.inj h).symm⟩

/-- A stop that gets through leaves the note that a handler was set up. -/
theorem racezStop_eq_ok (h : s.racezStop = .ok s') :
    s.racezEnable = true
      ∧ s' = { s with racezEnable := false, globalBuffer := false, action := .default } := by
  obtain ⟨_, henable, h⟩ := Run.bind_eq_ok.mp h
  obtain ⟨-, -, h⟩ := Run.bind_eq_ok.mp h
  exact ⟨check_eq_ok.mp henable, (Except.ok.inj h).symm⟩

theorem deliver_eq_ok {tid : ℤ} (h : s.deliver tid = .ok s') :
    s.action = .handler ∧ s' = s.signalHandler tid := by
  rw [deliver] at h
  split at h
  · exact absurd h (by simp)
  · next haction => exact ⟨haction, (Except.ok.inj h).symm⟩

/-- The hooks see of a start that the flag is set. -/
theorem racezStart_hook (h : s.racezStart = .ok s') (hook : HookState)
    (henable : hook.racezEnable = s.racezEnable) :
    hook.racezStart true = .ok { hook with racezEnable := s'.racezEnable } := by
  obtain ⟨-, -, hoff, rfl⟩ := racezStart_eq_ok h
  rw [HookState.racezStart, if_pos rfl, henable, hoff, if_neg Bool.false_ne_true]

/-- And of a stop, in another thread, that it is cleared. -/
theorem racezStop_hook (h : s.racezStop = .ok s') (hook : HookState)
    (henable : hook.racezEnable = s.racezEnable) :
    hook.clearEnable = .ok { hook with racezEnable := s'.racezEnable } := by
  obtain ⟨hon, rfl⟩ := racezStop_eq_ok h
  rw [HookState.clearEnable, henable, hon, if_pos rfl]

end ProfilerState

end Functions

/-- One event. -/
def lifecycleStep (s : ProfilerState) : LifecycleEvent → Except LifecycleFault ProfilerState
  | .start => s.racezStart
  | .stop => s.racezStop
  | .attach tid fd => .ok (s.perthreadAttach tid fd)
  | .sigio tid => s.deliver tid

/-- The life of a process. -/
def lifecycleRun (events : List LifecycleEvent) : Except LifecycleFault ProfilerState :=
  events.foldlM lifecycleStep .init

/-- Starts and stops alternate, and threads attach while profiling is on. Signals arrive at any
time. -/
def LifecycleEvent.Legal (s : ProfilerState) : LifecycleEvent → Prop
  | .start => s.racezEnable = false
  | .stop => s.racezEnable = true
  | .attach _ fd => s.racezEnable = true ∧ fd ≠ 0
  | .sigio _ => True

instance LifecycleEvent.decidableLegal (s : ProfilerState) :
    ∀ e : LifecycleEvent, Decidable (e.Legal s)
  | .start => inferInstanceAs (Decidable (_ = _))
  | .stop => inferInstanceAs (Decidable (_ = _))
  | .attach _ _ => inferInstanceAs (Decidable (_ ∧ _))
  | .sigio _ => inferInstanceAs (Decidable True)

/-! ## When the assertions hold -/

/-- Whether profiling is on after an event. -/
def LifecycleEvent.profilingAfter (on : Bool) : LifecycleEvent → Bool
  | .start => true
  | .stop => false
  | .attach _ _ => on
  | .sigio _ => on

/-- A signal while profiling is off has no handler. -/
def LifecycleEvent.kills (on : Bool) : LifecycleEvent → Bool
  | .sigio _ => !on
  | _ => false

private theorem LifecycleEvent.kills_iff {on : Bool} {e : LifecycleEvent} :
    e.kills on = true ↔ ∃ tid, e = .sigio tid ∧ on = false := by
  cases e <;> simp [kills]

/-- The events before the first signal that arrives while profiling is off. -/
def untilKilled (on : Bool) : List LifecycleEvent → List LifecycleEvent
  | [] => []
  | e :: events => if e.kills on then [] else e :: untilKilled (e.profilingAfter on) events

/-- Every thread that had a signal before profiling stops has also attached itself. -/
def SignalsAttached (events : List LifecycleEvent) : Prop :=
  ∀ pre post, events = pre ++ .stop :: post → ∀ tid, .sigio tid ∈ pre →
    ∃ fd, .attach tid fd ∈ pre

/-- Profiling is started no more than once. -/
def StartedOnce (events : List LifecycleEvent) : Prop := events.count .start ≤ 1

instance : DecidablePred StartedOnce := fun _ ↦ inferInstanceAs (Decidable (_ ≤ _))

section Condition

variable {events : List LifecycleEvent} {e : LifecycleEvent}

theorem SignalsAttached.of_prefix {events' : List LifecycleEvent} (h : SignalsAttached events')
    (hpre : events <+: events') : SignalsAttached events := by
  obtain ⟨rest, rfl⟩ := hpre
  rintro pre post rfl
  exact h pre (post ++ rest) (by simp)

theorem StartedOnce.of_prefix {events' : List LifecycleEvent} (h : StartedOnce events')
    (hpre : events <+: events') : StartedOnce events :=
  (hpre.sublist.count_le _).trans h

private theorem signalsAttached_append_singleton : SignalsAttached (events ++ [e])
    ↔ SignalsAttached events ∧ (e = .stop → ∀ tid, .sigio tid ∈ events →
      ∃ fd, .attach tid fd ∈ events) := by
  constructor
  · intro h
    refine ⟨h.of_prefix (List.prefix_append _ _), ?_⟩
    rintro rfl
    exact h events [] rfl
  · rintro ⟨hold, hnew⟩ pre post heq
    rcases List.eq_nil_or_concat post with rfl | ⟨post, e', rfl⟩
    · obtain ⟨rfl, he⟩ := List.append_inj' heq rfl
      exact hnew (List.singleton_inj.mp he)
    · rw [List.concat_eq_append, ← List.cons_append, ← List.append_assoc] at heq
      obtain ⟨rfl, -⟩ := List.append_inj' heq rfl
      exact hold pre post rfl

private theorem startedOnce_append_singleton : StartedOnce (events ++ [e])
    ↔ StartedOnce events ∧ (e = .start → .start ∉ events) := by
  rw [StartedOnce, StartedOnce, List.count_append, List.count_singleton]
  by_cases he : e = .start
  · subst he
    rw [← List.count_eq_zero]
    simp
    omega
  · simp [he]

end Condition

/-! ## The state during the only period -/

/-- After a legal history that began with a start, and met the condition. -/
structure PeriodInvariant (events : List LifecycleEvent) (s : ProfilerState) : Prop where
  /-- The start has been. -/
  started : .start ∈ events
  /-- Profiling is on until it is stopped. -/
  enabled : s.racezEnable = true ↔ .stop ∉ events
  /-- The note that a handler was set up is never taken back. -/
  signal : s.sigEnable = true
  /-- There is a buffer as long as profiling is on. -/
  buffer : s.globalBuffer = s.racezEnable
  /-- And a handler. -/
  action : s.action = if s.racezEnable then .handler else .default
  /-- A thread that has attached itself has a descriptor. -/
  attached : s.racezEnable = true → ∀ tid fd, .attach tid fd ∈ events →
    ∃ fd', fd' ≠ 0 ∧ s.tidFdMap.find? tid = some fd'
  /-- The look-up in the handler makes an entry with descriptor zero for any other one. -/
  unattached : s.racezEnable = true → ∀ tid, (∀ fd, .attach tid fd ∉ events) →
    s.tidFdMap.find? tid = if .sigio tid ∈ events then some 0 else none

section Step

variable {events : List LifecycleEvent} {s : ProfilerState}

theorem all_ne_zero_iff (m : OrderedMap ℤ ℤ) :
    (m.entries.all fun e ↦ e.2 ≠ 0) = true ↔ ∀ tid, m.find? tid ≠ some 0 := by
  rw [List.all_eq_true]
  constructor
  · intro h tid hzero
    exact absurd (h _ (OrderedMap.mem_entries_iff.mpr hzero)) (by simp)
  · rintro h ⟨tid, fd⟩ he
    refine decide_eq_true ?_
    rintro rfl
    exact h tid (OrderedMap.mem_entries_iff.mp he)

private theorem periodInvariant_start : ∃ s, ProfilerState.init.racezStart = .ok s
    ∧ PeriodInvariant [.start] s :=
  ⟨_, rfl, by simp, by simp, rfl, rfl, rfl, by simp, fun _ tid _ ↦ by simp; rfl⟩

theorem PeriodInvariant.attach (h : PeriodInvariant events s) {tid fd : ℤ}
    (he : s.racezEnable = true) (hfd : fd ≠ 0) :
    PeriodInvariant (events ++ [.attach tid fd]) (s.perthreadAttach tid fd) := by
  have hstate : s.perthreadAttach tid fd
      = { s with tidFdMap := (s.tidFdMap.insert tid 0).1.assign tid fd } :=
    if_neg (by simp [he])
  have hmap : ∀ tid', ((s.tidFdMap.insert tid 0).1.assign tid fd).find? tid'
      = if tid' = tid then some fd else s.tidFdMap.find? tid' := by
    intro tid'
    by_cases htid : tid' = tid <;> simp [htid]
  rw [hstate]
  refine ⟨by simp [h.started], by simp [h.enabled], h.signal, h.buffer, h.action, ?_, ?_⟩
  · intro _ tid' fd' hmem
    dsimp only
    rw [hmap]
    split_ifs with htid
    · exact ⟨fd, hfd, rfl⟩
    · exact h.attached he tid' fd' (by simpa [htid] using hmem)
  · intro _ tid' hnone
    have htid : tid' ≠ tid := by
      rintro rfl
      exact hnone fd (by simp)
    dsimp only
    rw [hmap, if_neg htid, h.unattached he tid' fun fd' hmem ↦ hnone fd' (by simp [hmem])]
    simp

theorem PeriodInvariant.sigio (h : PeriodInvariant events s) (tid : ℤ)
    (he : s.racezEnable = true) :
    ∃ s', s.deliver tid = .ok s' ∧ PeriodInvariant (events ++ [.sigio tid]) s' := by
  have haction : s.action = .handler := h.action.trans (if_pos he)
  have hmap : ∀ tid', (s.signalHandler tid).tidFdMap.find? tid'
      = if tid' = tid then some ((s.tidFdMap.find? tid).getD 0) else s.tidFdMap.find? tid' :=
    fun tid' ↦ OrderedMap.find?_insert s.tidFdMap tid tid' 0
  refine ⟨s.signalHandler tid, by rw [ProfilerState.deliver, haction], by simp [h.started],
    by simp [ProfilerState.signalHandler, h.enabled], h.signal, h.buffer, h.action, ?_, ?_⟩
  · intro _ tid' fd' hmem
    obtain ⟨fd, hfd, hfind⟩ := h.attached he tid' fd' (by simpa using hmem)
    refine ⟨fd, hfd, ?_⟩
    rw [hmap]
    split_ifs with htid
    · rw [← htid, hfind, Option.getD_some]
    · exact hfind
  · intro _ tid' hnone
    rw [hmap]
    have hold := h.unattached he tid' fun fd' hmem ↦ hnone fd' (by simp [hmem])
    split_ifs with htid hmem hmem
    · rw [← htid, hold]
      split_ifs <;> rfl
    · exact absurd (by simp [htid]) hmem
    · rw [hold, if_pos (by simpa [htid] using hmem)]
    · rw [hold, if_neg (by simpa [htid] using hmem)]

private theorem PeriodInvariant.deliver_off (h : PeriodInvariant events s) (tid : ℤ)
    (he : s.racezEnable = false) : s.deliver tid = .error .killed := by
  have haction : s.action = .default := h.action.trans (if_neg (by simp [he]))
  rw [ProfilerState.deliver, haction]

/-- The entries of the threads that had a signal and did not attach themselves are zero. -/
theorem PeriodInvariant.all_ne_zero_iff (h : PeriodInvariant events s)
    (he : s.racezEnable = true) : (s.tidFdMap.entries.all fun e ↦ e.2 ≠ 0) = true
      ↔ ∀ tid, .sigio tid ∈ events → ∃ fd, .attach tid fd ∈ events := by
  rw [Racez.all_ne_zero_iff]
  constructor
  · intro hall tid hmem
    by_contra hnone
    push Not at hnone
    exact hall tid ((h.unattached he tid hnone).trans (if_pos hmem))
  · intro hall tid hzero
    by_cases hatt : ∃ fd, .attach tid fd ∈ events
    · obtain ⟨fd, hfd⟩ := hatt
      obtain ⟨fd', hne, hfind⟩ := h.attached he tid fd hfd
      exact hne (Option.some.inj (hfind.symm.trans hzero))
    · push Not at hatt
      rw [h.unattached he tid hatt] at hzero
      split_ifs at hzero with hmem
      obtain ⟨fd, hfd⟩ := hall tid hmem
      exact hatt fd hfd

theorem PeriodInvariant.stop (h : PeriodInvariant events s) (he : s.racezEnable = true) :
    ((∀ tid, .sigio tid ∈ events → ∃ fd, .attach tid fd ∈ events)
        ∧ ∃ s', s.racezStop = .ok s' ∧ PeriodInvariant (events ++ [.stop]) s')
      ∨ ((¬∀ tid, .sigio tid ∈ events → ∃ fd, .attach tid fd ∈ events)
        ∧ s.racezStop = .error (.assertion .fdNonzero)) := by
  have hstop : s.racezStop = ProfilerState.pmuProfilerStop { s with racezEnable := false } := by
    rw [ProfilerState.racezStop, ProfilerState.check, if_pos he]
    rfl
  rw [hstop, ProfilerState.pmuProfilerStop, ProfilerState.check, ← h.all_ne_zero_iff he]
  dsimp only
  split_ifs with hzero
  · refine Or.inl ⟨hzero, _, rfl, by simp [h.started], ?_, h.signal, rfl, rfl, ?_, ?_⟩
    · exact iff_of_false (by exact Bool.false_ne_true) (by simp)
    · exact fun h' ↦ absurd h' Bool.false_ne_true
    · exact fun h' ↦ absurd h' Bool.false_ne_true
  · exact Or.inr ⟨hzero, rfl⟩

theorem PeriodInvariant.start (h : PeriodInvariant events s) (he : s.racezEnable = false) :
    s.racezStart = .error (.assertion .signalDisabled) := by
  have hbuffer := h.buffer.trans he
  have hsignal := h.signal
  obtain ⟨racezEnable, sigEnable, globalBuffer, tidFdMap, action⟩ := s
  dsimp only at hbuffer hsignal
  subst hbuffer hsignal
  rfl

/-- One step of the period that does not end the process: it gets through exactly if the condition
is still met. -/
theorem PeriodInvariant.step (h : PeriodInvariant events s) {e : LifecycleEvent}
    (hlegal : e.Legal s) (hkills : e.kills s.racezEnable = false) (honce : StartedOnce events)
    (hsignals : SignalsAttached events) :
    ((StartedOnce (events ++ [e]) ∧ SignalsAttached (events ++ [e]))
        ∧ ∃ s', lifecycleStep s e = .ok s' ∧ PeriodInvariant (events ++ [e]) s')
      ∨ (¬(StartedOnce (events ++ [e]) ∧ SignalsAttached (events ++ [e]))
        ∧ ∃ which, lifecycleStep s e = .error (.assertion which)) := by
  rw [signalsAttached_append_singleton, startedOnce_append_singleton]
  cases e with
  | start => exact Or.inr ⟨fun hcond ↦ hcond.1.2 rfl h.started, _, h.start hlegal⟩
  | stop =>
    rcases h.stop hlegal with ⟨hall, hok⟩ | ⟨hall, herror⟩
    · exact Or.inl ⟨⟨⟨honce, by simp⟩, hsignals, fun _ ↦ hall⟩, hok⟩
    · exact Or.inr ⟨fun hcond ↦ hall (hcond.2.2 rfl), _, herror⟩
  | attach tid fd =>
    exact Or.inl ⟨⟨⟨honce, by simp⟩, hsignals, by simp⟩, _, rfl, h.attach hlegal.1 hlegal.2⟩
  | sigio tid =>
    have he : s.racezEnable = true := by simpa [LifecycleEvent.kills] using hkills
    exact Or.inl ⟨⟨⟨honce, by simp⟩, hsignals, by simp⟩, h.sigio tid he⟩

theorem racezEnable_lifecycleStep {s' : ProfilerState} {e : LifecycleEvent}
    (h : lifecycleStep s e = .ok s') : s'.racezEnable = e.profilingAfter s.racezEnable := by
  cases e with
  | start =>
    obtain ⟨-, -, -, rfl⟩ := ProfilerState.racezStart_eq_ok h
    rfl
  | stop =>
    obtain ⟨-, rfl⟩ := ProfilerState.racezStop_eq_ok h
    rfl
  | attach tid fd =>
    obtain rfl := Except.ok.inj h
    rw [ProfilerState.perthreadAttach]
    split_ifs <;> rfl
  | sigio tid =>
    obtain ⟨-, rfl⟩ := ProfilerState.deliver_eq_ok h
    rfl

end Step

/-! ## Whole runs -/

/-- No assertion fails. -/
def NoAssertionFails (events : List LifecycleEvent) : Prop :=
  ∀ which, lifecycleRun events ≠ .error (.assertion which)

section Runs

variable {events : List LifecycleEvent}

/-- The rest of the period: no assertion fails exactly if the condition stays met until the process
ends. -/
theorem PeriodInvariant.run {history : List LifecycleEvent} {s : ProfilerState}
    (h : PeriodInvariant history s) (honce : StartedOnce history)
    (hsignals : SignalsAttached history)
    (hlegal : Run.Along lifecycleStep (fun s e ↦ e.Legal s) s events) :
    (∀ which, events.foldlM lifecycleStep s ≠ .error (.assertion which))
      ↔ StartedOnce (history ++ untilKilled s.racezEnable events)
        ∧ SignalsAttached (history ++ untilKilled s.racezEnable events) := by
  induction events generalizing history s with
  | nil =>
    rw [untilKilled, List.append_nil]
    exact iff_of_true nofun ⟨honce, hsignals⟩
  | cons e events ih =>
    obtain ⟨hfirst, hrest⟩ := Run.along_cons.mp hlegal
    rw [untilKilled, List.foldlM_cons]
    cases hkills : e.kills s.racezEnable with
    | true =>
      -- the process ends, and the condition has been met so far
      obtain ⟨tid, rfl, he⟩ := LifecycleEvent.kills_iff.mp hkills
      rw [if_pos rfl, List.append_nil, lifecycleStep, h.deliver_off tid he]
      exact iff_of_true nofun ⟨honce, hsignals⟩
    | false =>
      rw [if_neg Bool.false_ne_true, List.append_cons]
      rcases h.step hfirst hkills honce hsignals
        with ⟨⟨honce', hsignals'⟩, s', hs', hinv⟩ | ⟨hcond, which, herror⟩
      · rw [hs', ← racezEnable_lifecycleStep hs']
        exact ih hinv honce' hsignals' (hrest s' hs')
      · rw [herror]
        -- the condition is not met any more, whatever follows
        refine iff_of_false (fun hnone ↦ hnone which rfl) ?_
        rintro ⟨honce', hsignals'⟩
        exact hcond ⟨honce'.of_prefix (List.prefix_append _ _),
          hsignals'.of_prefix (List.prefix_append _ _)⟩

private theorem signalsAttached_of_stop_notMem (h : .stop ∉ events) : SignalsAttached events := by
  rintro pre post rfl
  exact absurd (by simp) h

/-- **The assertions of the profiler, exactly.** In a process where starts and stops alternate and
threads attach themselves while profiling is on, no assertion fails if and only if profiling is
started once and every thread that had a signal has attached itself by the time of the stop; what
comes after a signal that finds no handler does not count. -/
theorem lifecycle_iff (hlegal : Run.Along lifecycleStep (fun s e ↦ e.Legal s) .init events) :
    NoAssertionFails events
      ↔ StartedOnce (untilKilled false events) ∧ SignalsAttached (untilKilled false events) := by
  have hnil : StartedOnce [] ∧ SignalsAttached [] :=
    ⟨by decide, signalsAttached_of_stop_notMem (by simp)⟩
  cases events with
  | nil => exact iff_of_true nofun hnil
  | cons e events =>
    cases e with
    | sigio tid => exact iff_of_true nofun hnil
    | stop => exact absurd (Run.along_cons.mp hlegal).1 (by decide)
    | attach tid fd => exact absurd (Run.along_cons.mp hlegal).1.1 (by decide)
    | start =>
      obtain ⟨s, hs, hinv⟩ := periodInvariant_start
      have hon : s.racezEnable = true := hinv.enabled.mpr (by simp)
      have hrun := hinv.run (by decide) (signalsAttached_of_stop_notMem (by simp))
        ((Run.along_cons.mp hlegal).2 s hs)
      rw [hon] at hrun
      rw [NoAssertionFails, lifecycleRun, List.foldlM_cons, lifecycleStep, hs]
      exact hrun

end Runs

/-- One period, in which a thread has a signal before it has attached itself. -/
def onePeriod : List LifecycleEvent :=
  [.start, .attach 7 3, .sigio 8, .attach 8 4, .sigio 7, .stop, .sigio 9]

theorem lifecycle_iff_onePeriod : NoAssertionFails onePeriod
    ∧ StartedOnce (untilKilled false onePeriod)
    ∧ SignalsAttached (untilKilled false onePeriod) :=
  ⟨nofun, (lifecycle_iff (by decide)).mp nofun⟩

/-- Two periods of profiling, and a signal to a thread that was there before profiling started. -/
theorem not_noAssertionFails_twoPeriods :
    (Run.Along lifecycleStep (fun s e ↦ e.Legal s) .init
        [.start, .attach 7 3, .stop, .start]
      ∧ lifecycleRun [.start, .attach 7 3, .stop, .start] = .error (.assertion .signalDisabled))
    ∧ Run.Along lifecycleStep (fun s e ↦ e.Legal s) .init
        [.start, .sigio 9, .stop]
      ∧ lifecycleRun [.start, .sigio 9, .stop] = .error (.assertion .fdNonzero) :=
  ⟨⟨by decide, rfl⟩, by decide, rfl⟩

end Racez
