import Racez.Hooks.Lifecycle

/-!
# A start without a log file

`InitBuffer` allocates the buffer, publishes it and then opens the log file. If the file cannot be
opened it returns false, and neither of its callers looks at the result: the start goes on as if
nothing had happened (`map_toProfilerState_racezStart`). The buffer has been cleared, so the
descriptor in it is zero, and that is where everything is written when profiling stops.
`failedStart_not_off` says that no start with a failing `open` leaves the profiler off.

## Descriptor zero

A start is the same with and without the file, except for the descriptor
(`map_toProfilerState_racezStart`). So a start that returns leaves the profiler on, whatever `open`
does, and a start for which `open` fails can only end otherwise at an assertion that would have
failed as well with the file. With descriptor zero in the buffer no later start gets through either,
which is `OpenState.HalfStarted`.
-/

namespace Racez

/-! ## The state -/

/-- The global state with the descriptor in the buffer, `global_buffer->fd_`. -/
structure OpenState extends ProfilerState where
  /-- `fd_` of the buffer. -/
  bufferFd : ℤ

namespace OpenState

/-- A process that has just been started. -/
def init : OpenState := ⟨.init, 0⟩

/-- `InitBuffer`, with the value it returns. What `open` returns is given, if it succeeds. -/
def initBuffer (opened : Option ℤ) (s : OpenState) : Except LifecycleFault (OpenState × Bool) := do
  let p ← s.toProfilerState.initBuffer
  match opened with
  | none => return (⟨p, 0⟩, false)
  | some fd => return (⟨p, fd⟩, true)

/-- `pmu_profiler_start`. -/
def pmuProfilerStart (opened : Option ℤ) (s : OpenState) : Except LifecycleFault OpenState := do
  let (s, _) ← s.initBuffer opened
  ProfilerState.check .signalDisabled (!s.sigEnable)
  return ⟨s.toProfilerState.setupSignalHandler, s.bufferFd⟩

/-- `racez_start`. -/
def racezStart (opened : Option ℤ) (s : OpenState) : Except LifecycleFault OpenState := do
  let s ← s.pmuProfilerStart opened
  ProfilerState.check .notEnabled (!s.racezEnable)
  return { s with racezEnable := true }

/-- `racez_stop`, with the descriptor that `StopBuffer` writes the records to. -/
def racezStop (s : OpenState) : Except LifecycleFault (OpenState × ℤ) := do
  let p ← s.toProfilerState.racezStop
  return (⟨p, s.bufferFd⟩, s.bufferFd)

end OpenState

/-- A start, with what `open` returns if it succeeds, or a stop. -/
inductive OpenEvent
  | start (opened : Option ℤ)
  | stop
  deriving DecidableEq

/-- The descriptors that records are written to in a run. -/
def OpenState.written (s : OpenState) : List OpenEvent → Except LifecycleFault (List ℤ)
  | [] => .ok []
  | .start opened :: events => do
    let s ← s.racezStart opened
    s.written events
  | .stop :: events => do
    let (s, fd) ← s.racezStop
    let fds ← s.written events
    return fd :: fds

/-! ## What a failing start should do -/

/-- The profiler is off: profiling is not enabled, there is no buffer, and no handler is set. -/
structure OpenState.Off (s : OpenState) : Prop where
  /-- Profiling is off. -/
  racezEnable : s.racezEnable = false
  /-- There is no buffer. -/
  globalBuffer : s.globalBuffer = false
  /-- There is no handler. -/
  action : s.action = .default

/-- Records are only ever written to a descriptor that `open` has returned for the log file. -/
def OpenState.WritesToLog (s : OpenState) : Prop :=
  ∀ events fds, s.written events = .ok fds → ∀ fd ∈ fds, OpenEvent.start (some fd) ∈ events

/-- A start for which `open` fails leaves the profiler off, so that a later start can succeed and
nothing is written elsewhere. -/
def LeavesOff (s : OpenState) : Prop :=
  ∃ s', s.racezStart none = .ok s' ∧ s'.Off ∧ (∃ fd s'', s'.racezStart (some fd) = .ok s'')
    ∧ s'.WritesToLog

/-! ## What it does -/

private theorem OpenState.racezStart_eq (opened : Option ℤ) (s : OpenState) :
    s.racezStart opened
      = if s.globalBuffer then .error (.assertion .bufferNull)
        else if s.sigEnable then .error (.assertion .signalDisabled)
        else if s.racezEnable then .error (.assertion .notEnabled)
        else .ok ⟨⟨true, true, true, s.tidFdMap, .handler⟩, opened.getD 0⟩ := by
  obtain ⟨⟨racezEnable, sigEnable, globalBuffer, tidFdMap, action⟩, bufferFd⟩ := s
  cases globalBuffer <;> cases sigEnable <;> cases racezEnable <;> cases opened <;> rfl

/-- Apart from the descriptor a start does not depend on whether `open` succeeds. -/
theorem map_toProfilerState_racezStart (s : OpenState) (opened : Option ℤ) :
    (s.racezStart opened).map OpenState.toProfilerState = s.toProfilerState.racezStart := by
  obtain ⟨⟨racezEnable, sigEnable, globalBuffer, tidFdMap, action⟩, bufferFd⟩ := s
  cases globalBuffer <;> cases sigEnable <;> cases racezEnable <;> cases opened <;> rfl

/-- Profiling is on, with descriptor zero in the buffer, and no other start gets through. -/
structure OpenState.HalfStarted (s : OpenState) : Prop where
  /-- Profiling is on. -/
  racezEnable : s.racezEnable = true
  /-- There is a buffer. -/
  globalBuffer : s.globalBuffer = true
  /-- There is a handler. -/
  action : s.action = .handler
  /-- The file is not open. -/
  bufferFd : s.bufferFd = 0
  /-- Another start fails, whether or not it could open the file. -/
  start_faults : ∀ opened, s.racezStart opened = .error (.assertion .bufferNull)

/-- A start for which `open` fails does not return unless profiling is on. -/
theorem halfStarted_of_racezStart_none {s s' : OpenState} (h : s.racezStart none = .ok s') :
    s'.HalfStarted := by
  rw [OpenState.racezStart_eq] at h
  split_ifs at h
  obtain rfl := Except.ok.inj h
  refine ⟨rfl, rfl, rfl, rfl, fun opened ↦ ?_⟩
  rw [OpenState.racezStart_eq, if_pos rfl]

private theorem OpenState.HalfStarted.not_off {s : OpenState} (h : s.HalfStarted) : ¬s.Off := by
  intro hoff
  have henabled := h.racezEnable
  rw [hoff.racezEnable] at henabled
  exact absurd henabled (by decide)

/-- No start with a failing `open` leaves the profiler off: unless an assertion ends the process, it
is half started. -/
theorem failedStart_not_off (s : OpenState) :
    ¬LeavesOff s ∧ ∀ s', s.racezStart none = .ok s' → s'.HalfStarted := by
  refine ⟨?_, fun s' h ↦ halfStarted_of_racezStart_none h⟩
  rintro ⟨s', hstart, hoff, -⟩
  exact (halfStarted_of_racezStart_none hstart).not_off hoff

/-- In a fresh process the records end up at the standard input. -/
theorem not_leavesOff_init :
    (∃ s', OpenState.init.racezStart none = .ok s' ∧ s'.HalfStarted)
      ∧ OpenState.init.written [.start none, .stop] = .ok [0]
      ∧ ¬LeavesOff OpenState.init := by
  obtain ⟨s', hs'⟩ : ∃ s', OpenState.init.racezStart none = .ok s' := ⟨_, rfl⟩
  have hhalf := halfStarted_of_racezStart_none hs'
  refine ⟨⟨s', hs', hhalf⟩, rfl, ?_⟩
  rintro ⟨s'', hstart, hoff, -⟩
  obtain rfl : s' = s'' := Except.ok.inj (hs'.symm.trans hstart)
  exact hhalf.not_off hoff

end Racez
