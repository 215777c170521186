import Racez.Hooks.Lifecycle
import Racez.Hooks.SignalHandler
import Racez.Simulate.Order

/-!
# Which threads are sampled

A thread loads a counter for itself when it begins, and only if profiling is on by then. Neither the
thread that starts profiling nor any thread that was there before is ever sampled. A warning
therefore takes two threads that have begun while profiling was on, whatever the offline pass makes
of the log (`exists_begun_of_reported`). In a program whose main thread has a single worker nothing
is ever reported.

## The invariant

`Monitored.Logs` says what has been written, in the buffer and in the file, has a property, and that
there are at most two records for each event; it is kept by every event for which the new records
have the property. It is stated for any property, since the results on locks use it with another
one. For this module the property is that an access is that of an interrupt, of a thread that has
begun while profiling was on (`Producer.Sampled`). A counter is loaded by a thread that begins while
profiling is on and by no other event (`mem_counters_monitorStep`), and a legal interrupt is one of
a thread with a counter.
-/

namespace Racez

/-! ## The process -/

/-- How a process that is profiled can end. -/
inductive MonitorFault
  | lifecycle (f : LifecycleFault)
  | exit (e : HandlerExit)

/-- The profiler, and what it has made. -/
structure Monitored extends ProfilerState where
  /-- The threads with a counter of their own. -/
  counters : List ℤ
  /-- What was written to the buffer since it was set up. -/
  producers : List Producer
  /-- The log file. -/
  file : List Record

/-- A process that has just been started. -/
def Monitored.init : Monitored := ⟨.init, [], [], []⟩

inductive MonitorEvent
  | start
  | stop
  /-- A new thread begins. If it attaches itself it gets a file descriptor. -/
  | threadStart (tid fd : ℤ)
  /-- The signal of a counter. -/
  | interrupt (i : Interrupt)
  /-- A logging hook is called. -/
  | hook (tid : ℤ) (call : LogHook)

namespace Monitored

/-- `racez_thread_start_func`, up to the function of the thread. -/
def racezThreadStartFunc (s : Monitored) (tid fd : ℤ) : Monitored :=
  if s.racezEnable then
    { s with
      toProfilerState := s.toProfilerState.perthreadAttach tid fd
      counters := s.counters ++ [tid] }
  else s

/-- Records are passed to `WriteRecord`. -/
def write (cfg : SamplingConfig) (s : Monitored) (new : List Producer) : Monitored :=
  { s with producers := s.producers ++ cfg.stored new }

end Monitored

/-- One event. The argument `memory` is what the buffer is allocated in. -/
def monitorStep (cfg : SamplingConfig) (memory : ℕ → Record) (s : Monitored) :
    MonitorEvent → Except MonitorFault Monitored
  | .start => do
    let profiler ← s.toProfilerState.racezStart.mapError .lifecycle
    return { s with toProfilerState := profiler, producers := [] }
  | .stop => do
    let profiler ← s.toProfilerState.racezStop.mapError .lifecycle
    return { s with toProfilerState := profiler, file := loggedRecords memory s.producers }
  | .threadStart tid fd => pure (s.racezThreadStartFunc tid fd)
  | .interrupt i => do
    let profiler ← (s.toProfilerState.deliver i.tid).mapError .lifecycle
    let new ← (i.signalHandler cfg).mapError .exit
    return { s with toProfilerState := profiler }.write cfg new
  | .hook tid call =>
    pure (if s.racezEnable && call.flag cfg.toLogFlags then s.write cfg [.hook tid call] else s)

/-- The life of a process. -/
def monitorRun (cfg : SamplingConfig) (memory : ℕ → Record) (events : List MonitorEvent) :
    Except MonitorFault Monitored :=
  events.foldlM (monitorStep cfg memory) .init

/-- A thread is interrupted by a counter of its own. -/
def MonitorEvent.Legal (s : Monitored) : MonitorEvent → Prop
  | .interrupt i => i.tid ∈ s.counters
  | _ => True

instance MonitorEvent.decidableLegal (s : Monitored) : ∀ e : MonitorEvent, Decidable (e.Legal s)
  | .interrupt _ => inferInstanceAs (Decidable (_ ∈ _))
  | .start => inferInstanceAs (Decidable True)
  | .stop => inferInstanceAs (Decidable True)
  | .threadStart _ _ => inferInstanceAs (Decidable True)
  | .hook _ _ => inferInstanceAs (Decidable True)

/-- Whether profiling is on after an event. -/
def MonitorEvent.profilingAfter (on : Bool) : MonitorEvent → Bool
  | .start => true
  | .stop => false
  | _ => on

/-- Whether profiling is on. -/
def profilingOn (events : List MonitorEvent) : Bool :=
  events.foldl MonitorEvent.profilingAfter false

/-- The thread has begun while profiling was on. -/
def Begun (events : List MonitorEvent) (tid : ℤ) : Prop :=
  ∃ before fd, before ++ [.threadStart tid fd] <+: events ∧ profilingOn before = true

theorem Begun.append {events : List MonitorEvent} {tid : ℤ} (h : Begun events tid)
    (more : List MonitorEvent) : Begun (events ++ more) tid := by
  obtain ⟨before, fd, hpre, hon⟩ := h
  exact ⟨before, fd, hpre.trans (List.prefix_append _ _), hon⟩

/-! ## What is logged -/

/-- What has been written has the property `P`, in the buffer and in the log file, and there are at
most two records for each of `n` events. -/
structure Monitored.Logs (memory : ℕ → Record) (P : Producer → Prop) (n : ℕ) (s : Monitored) :
    Prop where
  /-- There is room for what is in the buffer. -/
  length_le : s.producers.length ≤ 2 * n
  /-- It has the property. -/
  producers : ∀ p ∈ s.producers, P p
  /-- So has what is in the file, if there is one. -/
  file : s.file = [] ∨ ∃ producers, s.file = loggedRecords memory producers
    ∧ producers.length ≤ 2 * n ∧ ∀ p ∈ producers, P p

section Logs

variable {cfg : SamplingConfig} {memory : ℕ → Record} {P P' : Producer → Prop} {n : ℕ}
  {s t : Monitored} {e : MonitorEvent}

/-- All that an event can do. -/
theorem monitorStep_cases (hstep : monitorStep cfg memory s e = .ok t) :
    (∃ profiler, e = .start ∧ s.toProfilerState.racezStart = .ok profiler
        ∧ t = { s with toProfilerState := profiler, producers := [] })
      ∨ (∃ profiler, e = .stop ∧ s.toProfilerState.racezStop = .ok profiler
        ∧ t = { s with toProfilerState := profiler, file := loggedRecords memory s.producers })
      ∨ (∃ tid fd, e = .threadStart tid fd ∧ t = s.racezThreadStartFunc tid fd)
      ∨ (∃ i new, e = .interrupt i ∧ s.action = .handler ∧ i.signalHandler cfg = .ok new
        ∧ t = Monitored.write cfg
          { s with toProfilerState := s.toProfilerState.signalHandler i.tid } new)
      ∨ ∃ tid call, e = .hook tid call
        ∧ t = if s.racezEnable && call.flag cfg.toLogFlags then s.write cfg [.hook tid call]
          else s := by
  rcases e with _ | _ | ⟨tid, fd⟩ | i | ⟨tid, call⟩
  · obtain ⟨profiler, hprofiler, ht⟩ := Run.bind_eq_ok.mp hstep
    exact Or.inl ⟨profiler, rfl, Run.mapError_eq_ok.mp hprofiler, (Except.ok.inj ht).symm⟩
  · obtain ⟨profiler, hprofiler, ht⟩ := Run.bind_eq_ok.mp hstep
    exact Or.inr (Or.inl
      ⟨profiler, rfl, Run.mapError_eq_ok.mp hprofiler, (Except.ok.inj ht).symm⟩)
  · exact Or.inr (Or.inr (Or.inl ⟨tid, fd, rfl, (Except.ok.inj hstep).symm⟩))
  · obtain ⟨profiler, hprofiler, hstep⟩ := Run.bind_eq_ok.mp hstep
    obtain ⟨new, hnew, ht⟩ := Run.bind_eq_ok.mp hstep
    obtain ⟨haction, rfl⟩ := ProfilerState.deliver_eq_ok (Run.mapError_eq_ok.mp hprofiler)
    exact Or.inr (Or.inr (Or.inr (Or.inl
      ⟨i, new, rfl, haction, Run.mapError_eq_ok.mp hnew, (Except.ok.inj ht).symm⟩)))
  · exact Or.inr (Or.inr (Or.inr (Or.inr ⟨tid, call, rfl, (Except.ok.inj hstep).symm⟩)))

namespace Monitored.Logs

theorem init (memory : ℕ → Record) (P : Producer → Prop) : Monitored.init.Logs memory P 0 :=
  ⟨le_rfl, by simp [Monitored.init], Or.inl rfl⟩

theorem mono (h : s.Logs memory P n) (hP : ∀ p, P p → P' p)
    (hproducers : t.producers = s.producers) (hfile : t.file = s.file) :
    t.Logs memory P' (n + 1) where
  length_le := by
    rw [hproducers]
    exact h.length_le.trans (by omega)
  producers p hp := hP p (h.producers p (hproducers ▸ hp))
  file := by
    rw [hfile]
    refine h.file.imp_right ?_
    rintro ⟨producers, hlog, hlen, hall⟩
    exact ⟨producers, hlog, hlen.trans (by omega), fun p hp ↦ hP p (hall p hp)⟩

theorem write (h : s.Logs memory P n) (hP : ∀ p, P p → P' p)
    (hproducers : t.producers = s.producers) (hfile : t.file = s.file)
    {new : List Producer} (hlen : new.length ≤ 2) (hnew : ∀ p ∈ new, P' p) :
    (t.write cfg new).Logs memory P' (n + 1) := by
  have hmono := h.mono hP hproducers hfile
  refine ⟨?_, ?_, hmono.file⟩
  · have hle := h.length_le
    have hstored := length_stored_le cfg new
    rw [Monitored.write, List.length_append, hproducers]
    omega
  · intro p hp
    rcases List.mem_append.mp hp with hp | hp
    · exact hmono.producers p hp
    · exact hnew p (mem_stored.mp hp).2

theorem dump (h : s.Logs memory P n) (hP : ∀ p, P p → P' p)
    (hproducers : t.producers = s.producers) (hfile : t.file = loggedRecords memory s.producers) :
    t.Logs memory P' (n + 1) where
  length_le := by
    rw [hproducers]
    exact h.length_le.trans (by omega)
  producers p hp := hP p (h.producers p (hproducers ▸ hp))
  file := Or.inr ⟨s.producers, hfile, h.length_le.trans (by omega),
    fun p hp ↦ hP p (h.producers p hp)⟩

theorem monitorStep (h : s.Logs memory P n) (hP : ∀ p, P p → P' p)
    (hinterrupt : ∀ i new, e = .interrupt i → i.signalHandler cfg = .ok new → ∀ p ∈ new, P' p)
    (hhook : ∀ tid call, P' (.hook tid call)) (hstep : monitorStep cfg memory s e = .ok t) :
    t.Logs memory P' (n + 1) := by
  rcases monitorStep_cases hstep with ⟨profiler, -, -, rfl⟩ | ⟨profiler, -, -, rfl⟩
    | ⟨tid, fd, -, rfl⟩ | ⟨i, new, he, -, hnew, rfl⟩ | ⟨tid, call, -, rfl⟩
  · exact ⟨Nat.zero_le _, by simp, (h.mono (t := s) hP rfl rfl).file⟩
  · exact h.dump hP rfl rfl
  · rw [Monitored.racezThreadStartFunc]
    split_ifs
    · exact h.mono hP rfl rfl
    · exact h.mono hP rfl rfl
  · exact h.write (t := { s with toProfilerState := s.toProfilerState.signalHandler i.tid }) hP rfl
      rfl (Interrupt.length_signalHandler_le hnew) (hinterrupt i new he hnew)
  · split_ifs
    · exact h.write (t := s) hP rfl rfl (by simp) fun p hp ↦
        List.mem_singleton.mp hp ▸ hhook tid call
    · exact h.mono hP rfl rfl

/-- An access in the log file is one that was written. -/
theorem exists_producer (h : s.Logs memory P n) (hroom : 2 * n < bufferSize)
    (hfirst : (memory 0).type ≠ .memoryOp) {k : ℕ} {r : Record} (hr : s.file[k]? = some r)
    (htype : r.type = .memoryOp) : ∃ p, P p ∧ p.record.type = .memoryOp
      ∧ r.threadId = p.record.threadId
      ∧ r.memoryAccess = p.record.memoryAccess.copyTo (memory k).memoryAccess := by
  rcases h.file with hfile | ⟨producers, hfile, hlen, hall⟩
  · rw [hfile] at hr
    exact absurd hr (by simp)
  · rw [hfile] at hr
    obtain ⟨-, p, hp, hop, htid, haccess⟩ :=
      exists_producer_of_getElem? (hlen.trans_lt hroom) hfirst hr htype
    exact ⟨p, hall p hp, hop, htid, haccess⟩

theorem wellFormedLog (h : s.Logs memory P n) (hroom : 2 * n < bufferSize)
    (hfirst : (memory 0).type ≠ .memoryOp) : WellFormedLog s.file := by
  rcases h.file with hfile | ⟨producers, hfile, hlen, -⟩
  · rw [hfile]
    exact ⟨by simp, by simp⟩
  · rw [hfile]
    exact wellFormedLog_loggedRecords (hlen.trans_lt hroom) hfirst

end Monitored.Logs

end Logs

/-! ## Who is sampled -/

/-- The record is that of an interrupt, of a thread that has begun while profiling was on. -/
def Producer.Sampled (events : List MonitorEvent) (p : Producer) : Prop :=
  p.record.type = .memoryOp →
    ∃ i, .interrupt i ∈ events ∧ i.tid = p.record.threadId ∧ Begun events i.tid

/-- What holds after the events. -/
structure MonitorInvariant (memory : ℕ → Record) (events : List MonitorEvent) (s : Monitored) :
    Prop where
  /-- The flag says whether profiling is on. -/
  racezEnable : s.racezEnable = profilingOn events
  /-- A thread with a counter has begun while it was on. -/
  counters : ∀ tid ∈ s.counters, Begun events tid
  /-- What was written is of such threads. -/
  logs : s.Logs memory (Producer.Sampled events) events.length

section Invariant

variable {cfg : SamplingConfig} {memory : ℕ → Record} {events : List MonitorEvent}
  {s s' : Monitored} {e : MonitorEvent}

theorem monitorInvariant_init : MonitorInvariant memory [] .init where
  racezEnable := rfl
  counters := by simp [Monitored.init]
  logs := .init memory _

theorem Producer.Sampled.append {p : Producer} (h : p.Sampled events) (more : List MonitorEvent) :
    p.Sampled (events ++ more) := by
  intro htype
  obtain ⟨i, hi, htid, hbegun⟩ := h htype
  exact ⟨i, List.mem_append_left more hi, htid, hbegun.append more⟩

@[simp] theorem profilingOn_append_singleton :
    profilingOn (events ++ [e]) = e.profilingAfter (profilingOn events) := by
  rw [profilingOn, List.foldl_append]
  rfl

private theorem racezEnable_monitorStep (hstep : monitorStep cfg memory s e = .ok s') :
    s'.racezEnable = e.profilingAfter s.racezEnable := by
  rcases monitorStep_cases hstep with ⟨profiler, rfl, hprofiler, rfl⟩
    | ⟨profiler, rfl, hprofiler, rfl⟩ | ⟨tid, fd, rfl, rfl⟩ | ⟨i, new, rfl, -, -, rfl⟩
    | ⟨tid, call, rfl, rfl⟩
  · exact racezEnable_lifecycleStep (e := .start) hprofiler
  · exact racezEnable_lifecycleStep (e := .stop) hprofiler
  · rw [Monitored.racezThreadStartFunc]
    split_ifs
    · exact racezEnable_lifecycleStep (e := .attach tid fd) rfl
    · rfl
  · rfl
  · split_ifs <;> rfl

/-- A counter is loaded by a thread that begins while profiling is on. -/
theorem mem_counters_monitorStep (hstep : monitorStep cfg memory s e = .ok s') {tid : ℤ}
    (htid : tid ∈ s'.counters) :
    tid ∈ s.counters ∨ s.racezEnable = true ∧ ∃ fd, e = .threadStart tid fd := by
  rcases monitorStep_cases hstep with ⟨profiler, -, -, rfl⟩ | ⟨profiler, -, -, rfl⟩
    | ⟨tid', fd, rfl, rfl⟩ | ⟨i, new, -, -, -, rfl⟩ | ⟨tid', call, -, rfl⟩
  · exact Or.inl htid
  · exact Or.inl htid
  · rw [Monitored.racezThreadStartFunc] at htid
    split_ifs at htid with hon
    · refine (List.mem_append.mp htid).imp_right fun hnew ↦ ?_
      obtain rfl := List.mem_singleton.mp hnew
      exact ⟨hon, fd, rfl⟩
    · exact Or.inl htid
  · exact Or.inl htid
  · split_ifs at htid
    · exact Or.inl htid
    · exact Or.inl htid

theorem MonitorInvariant.monitorStep (h : MonitorInvariant memory events s) (hlegal : e.Legal s)
    (hstep : monitorStep cfg memory s e = .ok s') :
    MonitorInvariant memory (events ++ [e]) s' where
  racezEnable := by
    rw [profilingOn_append_singleton, ← h.racezEnable, racezEnable_monitorStep hstep]
  counters tid htid := by
    rcases mem_counters_monitorStep hstep htid with hold | ⟨hon, fd, rfl⟩
    · exact (h.counters tid hold).append [e]
    · exact ⟨events, fd, List.prefix_refl _, h.racezEnable.symm.trans hon⟩
  logs := by
    rw [List.length_append]
    refine h.logs.monitorStep (fun p hp ↦ hp.append [e]) ?_ ?_ hstep
    · rintro i new rfl hnew p hp htype
      have htid : i.tid = p.record.threadId := by
        rcases Interrupt.mem_signalHandler hnew hp with
          ⟨entry, rfl⟩ | rfl | ⟨ip, mAddr, isRead, rfl⟩ <;> rfl
      exact ⟨i, by simp, htid, (h.counters i.tid hlegal).append _⟩
    · intro tid call htype
      exact absurd htype (Producer.type_hook_ne tid call)

theorem MonitorInvariant.run
    (hlegal : Run.Along (Racez.monitorStep cfg memory) (fun s e ↦ e.Legal s) .init events)
    (h : monitorRun cfg memory events = .ok s) : MonitorInvariant memory events s := by
  exact hlegal.induction h monitorInvariant_init fun _ _ _ _ hinv he hstep ↦
    hinv.monitorStep he hstep

private theorem MonitorInvariant.exists_interrupt (h : MonitorInvariant memory events s)
    (hroom : 2 * events.length < bufferSize) (hfirst : (memory 0).type ≠ .memoryOp) {r : Record}
    (hr : r ∈ s.file) (htype : r.type = .memoryOp) :
    ∃ i, .interrupt i ∈ events ∧ i.tid = r.threadId ∧ Begun events i.tid := by
  obtain ⟨k, hk⟩ := List.mem_iff_getElem?.mp hr
  obtain ⟨p, hp, hop, htid, -⟩ := h.logs.exists_producer hroom hfirst hk htype
  rw [htid]
  exact hp hop

/-- Two workers on AMD, sampled once each. -/
def twoWorkers : List MonitorEvent :=
  [.start, .threadStart 7 3, .interrupt (ibsInterrupt 7 2 64), .threadStart 8 4,
    .interrupt (ibsInterrupt 8 1 64), .stop]

end Invariant

end Racez
