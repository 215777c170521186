import Racez.Hooks.Logging

/-!
# Logging hooks in many threads

Hook calls of any number of threads, and one thread that stops the profiler. A hook calls the real
function, tests `racez_enable`, and goes on to `WriteRecord`; stopping clears `racez_enable`, dumps
the buffer entry by entry, frees it and clears the pointer. Each of these is a step of its own, and
so is every statement of `WriteRecord`.

A statement that reads or writes memory after it has been freed is a fault. Within `WriteRecord` the
first two statements go through the pointer to the buffer, and the stores go to the array.

Threads do not appear. A thread is a sequence of calls, so the interleavings of threads are among
the interleavings of calls.

## Where a call is

`CallPhase` tells apart the calls whose real function has not returned, those in front of the test,
those that the test has turned away, and those in `WriteRecord` or past it. The statements of
`WriteRecord` are the processes of `Transition/Tickets`, and `WriteInvariant` connects the two
views: a call has a number only if it is writing, and the state of the buffer is one that some
schedule of the writing calls leads to. So a call that has ended and whose number was accepted has
copied its record (`WriteInvariant.cells_eq`).
-/

namespace Racez

/-! ## The state -/

/-- A call and the thread that makes it. -/
structure HookCall where
  /-- The thread that calls. -/
  tid : ℤ
  /-- The hook that is called, with its arguments. -/
  hook : LogHook
  deriving DecidableEq

/-- The record of a call. -/
def HookCall.record (call : HookCall) : Record := call.hook.record call.tid

/-- Where a call is. -/
inductive CallPhase
  | entered
  /-- The real function has returned. -/
  | returned
  /-- The test of `racez_enable` has failed. -/
  | skipped
  /-- The test has succeeded; the call is in `WriteRecord`, or past it. -/
  | writing
  deriving DecidableEq

/-- The next statement of a call that has advanced the cursor. -/
inductive WritePc
  /-- `record_no = current_entry - global_buffer->start_`. -/
  | number
  | copy (pc : CopyPc)
  deriving DecidableEq

/-- Where the thread is that stops the profiler. -/
inductive StopPc
  | running
  /-- Past `racez_enable = 0`, not yet in `StopBuffer`. -/
  | disabled
  /-- In the loop of `StopBuffer`, with the next entry to be written. -/
  | dumping (i : ℕ)
  | freeArray
  | freeBuffer
  | clearPointer
  | stopped
  deriving DecidableEq

/-- The two blocks of memory `StopBuffer` frees. -/
inductive Region
  | array
  | buffer

/-- Whether a block is still there. -/
def StopPc.live : StopPc → Region → Bool
  | .freeBuffer, .array => false
  | .clearPointer, _ => false
  | .stopped, _ => false
  | _, _ => true

/-- The state of the process. Ghost fields: `history` is the order in which the real functions have
returned, and `live` the blocks the allocator has handed out. -/
structure CallState (ι : Type*) where
  /-- The flag the hooks test. -/
  racezEnable : Bool
  /-- The blocks in use. -/
  live : Address → Bool
  /-- The calls whose real functions have returned, in that order. -/
  history : List ι
  /-- How far each call has got. -/
  phase : ι → CallPhase
  /-- The buffer, and the calls that are in `WriteRecord`. -/
  tickets : Tickets.State ι WritePc Record
  /-- How far `racez_stop` has got. -/
  stop : StopPc
  /-- The log file. -/
  file : List Record

/-- Profiling is on, the buffer is fresh, and no call has been made. -/
def CallState.init (ι : Type*) (memory : ℕ → Record) : CallState ι :=
  ⟨true, fun _ ↦ false, [], fun _ ↦ .entered, Tickets.init memory, .running, []⟩

/-! ## Steps -/

inductive CallFault
  | useAfterFree
  | assertion
  deriving DecidableEq

/-- The effect of a real function on the allocator. -/
def LogHook.real (live : Address → Bool) : LogHook → Address → Bool
  | .malloc _ result => if result = 0 then live else Function.update live result true
  | .free p => if p = 0 then live else Function.update live p false
  | _ => live

/-- The memory the next statement of `WriteRecord` uses. -/
def regionUsed : Option (ℕ × WritePc) → Option Region
  | none => some .buffer
  | some (_, .number) => some .buffer
  | some (_, .copy .guard) => none
  | some (_, .copy .done) => none
  | some (_, .copy _) => some .array

/-- A statement of `WriteRecord` after the cursor has been advanced. -/
def writeStep (record : Record) (k : ℕ) : WritePc × Record → WritePc × Record
  | (.number, entry) => (.copy .guard, entry)
  | (.copy pc, entry) =>
    (.copy (copyStep record (toInt32 k) (pc, entry)).1, (copyStep record (toInt32 k) (pc, entry)).2)

section Steps

variable {ι : Type*} [DecidableEq ι] (flags : LogFlags) (calls : ι → HookCall)

/-- A statement of `WriteRecord`; the first one advances the cursor. -/
def advanceWrite (s : Tickets.State ι WritePc Record) (c : ι) : Tickets.State ι WritePc Record :=
  Tickets.advance .number (fun c ↦ writeStep (calls c).record) s c

/-- A step of a call. -/
def callStep (s : CallState ι) (c : ι) : Except CallFault (CallState ι) :=
  match s.phase c with
  | .entered => .ok { s with
      live := (calls c).hook.real s.live
      history := s.history ++ [c]
      phase := Function.update s.phase c .returned }
  | .returned => .ok { s with
      phase := Function.update s.phase c
        (if (calls c).hook.flag flags && s.racezEnable then .writing else .skipped) }
  | .skipped => .ok s
  | .writing =>
    if flags.racezWriteRecord = false then .ok s
    else if (regionUsed (s.tickets.procs c)).all s.stop.live then
      .ok { s with tickets := advanceWrite calls s.tickets c }
    else .error .useAfterFree

/-- A step of `racez_stop`, as far as the buffer is concerned. -/
def stopStep (s : CallState ι) : Except CallFault (CallState ι) :=
  match s.stop with
  | .running =>
    if s.racezEnable then .ok { s with racezEnable := false, stop := .disabled }
    else .error .assertion
  | .disabled => .ok { s with stop := .dumping 0 }
  | .dumping i =>
    if i ≤ s.tickets.counter then
      .ok { s with stop := .dumping (i + 1), file := s.file ++ [s.tickets.cells i] }
    else .ok { s with stop := .freeArray }
  | .freeArray => .ok { s with stop := .freeBuffer }
  | .freeBuffer => .ok { s with stop := .clearPointer }
  | .clearPointer => .ok { s with stop := .stopped }
  | .stopped => .ok s

/-- A step of a call, or of the thread that stops the profiler. -/
def processStep (s : CallState ι) : Option ι → Except CallFault (CallState ι)
  | some c => callStep flags calls s c
  | none => stopStep s

/-- The steps in the order of a schedule. -/
def processRun (memory : ℕ → Record) (schedule : List (Option ι)) :
    Except CallFault (CallState ι) :=
  schedule.foldlM (processStep flags calls) (.init ι memory)

end Steps

/-! ## What a call has written -/

section Tickets

variable {ι : Type*} [DecidableEq ι] {flags : LogFlags} {calls : ι → HookCall}
  {memory : ℕ → Record} {s s' : CallState ι} {c : ι}

/-- The calls in `WriteRecord` do what each would do alone, and are past their test. -/
structure WriteInvariant (flags : LogFlags) (calls : ι → HookCall) (memory : ℕ → Record)
    (s : CallState ι) : Prop where
  /-- The buffer is in a state that some schedule of the calls leads to. -/
  tickets : ∃ schedule, Tickets.Invariant .number (fun c ↦ writeStep (calls c).record) memory
    schedule s.tickets
  /-- A call with a number is in `WriteRecord`, which it enters only if records are written. -/
  writing : ∀ c x, s.tickets.procs c = some x →
    s.phase c = .writing ∧ flags.racezWriteRecord = true

theorem writeInvariant_init : WriteInvariant flags calls memory (.init ι memory) where
  tickets := ⟨[], Tickets.invariant_init memory⟩
  writing _ _ h := nomatch h

private theorem copyStep_of_writeStep {record : Record} {k n : ℕ} {entry entry' : Record}
    {pc : CopyPc} (h : (writeStep record k)^[n] (.copy pc, entry) = (.copy .done, entry')) :
    (copyStep record (toInt32 k))^[n] (pc, entry) = (.done, entry') := by
  induction n generalizing pc entry with
  | zero =>
    obtain ⟨hpc, rfl⟩ := Prod.mk.inj h
    rw [WritePc.copy.inj hpc]
    rfl
  | succ n ih =>
    rw [Function.iterate_succ_apply] at h ⊢
    exact ih h

/-- A call that has ended and whose number was accepted has copied its record. -/
theorem WriteInvariant.cells_eq (h : WriteInvariant flags calls memory s) {k : ℕ}
    (hdone : s.tickets.procs c = some (k, .copy .done)) (hk : Accepted k) :
    s.tickets.cells k = (calls c).record.copyTo (toInt32 k) (memory k) := by
  obtain ⟨schedule, hinv⟩ := h.tickets
  have halone := hinv.alone c k _ hdone
  cases hn : schedule.count c - 1 with
  | zero =>
    rw [hn] at halone
    exact absurd (Prod.mk.inj halone).1 (by simp)
  | succ n =>
    rw [hn, Function.iterate_succ_apply] at halone
    exact Reaches.done_unique ⟨n, copyStep_of_writeStep halone.symm⟩
      (reaches_done ((calls c).hook.countsFit_record _) hk _)

theorem WriteInvariant.phase (h : WriteInvariant flags calls memory s) {phase : CallPhase}
    {live : Address → Bool} {history : List ι} (hold : s.phase c ≠ .writing) :
    WriteInvariant flags calls memory
      { s with live, history, phase := Function.update s.phase c phase } where
  tickets := h.tickets
  writing c' x hx := by
    have hc : c' ≠ c := by
      rintro rfl
      exact hold (h.writing _ x hx).1
    obtain ⟨hphase, hwrite⟩ := h.writing c' x hx
    exact ⟨(Function.update_of_ne hc _ _).trans hphase, hwrite⟩

theorem WriteInvariant.advanceWrite (h : WriteInvariant flags calls memory s)
    (hphase : s.phase c = .writing) (hwrite : flags.racezWriteRecord = true) :
    WriteInvariant flags calls memory { s with tickets := advanceWrite calls s.tickets c } := by
  obtain ⟨schedule, hinv⟩ := h.tickets
  refine ⟨⟨schedule ++ [c], ?_⟩, ?_⟩
  · rcases hp : s.tickets.procs c with _ | ⟨k, l⟩
    · exact hinv.draw hp
    · exact hinv.work hp
  · intro c' x hx
    by_cases hc : c' = c
    · rw [hc]
      exact ⟨hphase, hwrite⟩
    · refine h.writing c' x ?_
      rw [← hx]
      rcases hp : s.tickets.procs c with _ | ⟨k, l⟩
      · rw [Racez.advanceWrite, Tickets.advance_of_none hp]
        exact (Function.update_of_ne hc _ _).symm
      · rw [Racez.advanceWrite, Tickets.advance_of_some hp]
        exact (Function.update_of_ne hc _ _).symm

end Tickets

end Racez
