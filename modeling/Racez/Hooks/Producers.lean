import Racez.Hooks.Sampling

/-!
# What reaches an entry

All records that are ever written come from the signal handler, with a sample of the hardware or
with the registers of the interrupted thread, or from one of the logging hooks. `WriteRecord` copies
the payload in a branch for its type. There is a branch for memory accesses and one for allocations,
but none for the two events of condition variables: their records keep the thread and the type, and
the payload of the entry is whatever was in memory. `carries_writeRecord_iff` says that this is the
only loss.

## Old slots

The condition is on the slot: its payload must be the one of the record already, as it is when the
slot is cleared and the record has no payload. For accesses and allocations there is none, since the
branch copies all of the live member up to the counts.
-/

namespace Racez

/-! ## The signal handler -/

/-- What the signal handler finds when a thread is interrupted. -/
structure Interrupted where
  /-- The number of the thread. -/
  tid : ℤ
  /-- The return addresses libunwind steps through, from the handler outwards. -/
  frames : List Address
  /-- `uc_mcontext.gregs`. -/
  gregs : Vector (BitVec 64) 23
  /-- `GetPerThreadLockset`. -/
  lockset : Option Lockset

/-- The settings the signal handler looks at. -/
structure SampleFlags where
  /-- `racez_stacktrace`. -/
  racezStacktrace : Bool
  /-- `racez_lockset`. -/
  racezLockset : Bool

/-- `get_backtrace`: at most ten addresses. -/
def getBacktrace (frames : List Address) : List Address := frames.take 10

/-- The record `signal_handler` passes on: cleared, with the trace from the third address on. -/
def signalHandlerRecord (flags : SampleFlags) (interrupted : Interrupted) : Record :=
  if flags.racezStacktrace then
    let stackTrace := getBacktrace interrupted.frames
    let backtraceCount : ℤ := stackTrace.length - 2
    { Record.zeroed with
      stackTrace := copyPrefix backtraceCount (Vector.ofFn fun i ↦ stackTrace.getD (i + 2) 0)
        Record.zeroed.stackTrace
      traceDepth := backtraceCount }
  else .zeroed

/-- The locks of a memory access, from a lockset if there is one. -/
def MemoryAccess.withLockset (access : MemoryAccess) : Option Lockset → MemoryAccess
  | none => access
  | some lockset => { access with
      lockCount := lockset.n
      lockset := copyPrefix lockset.n lockset.lockset access.lockset }

/-- The lockset pointer of `write_pebs_info`. -/
def pebsLockset (flags : SampleFlags) (interrupted : Interrupted) : Option Lockset :=
  if flags.racezLockset then interrupted.lockset else none

/-- `sip`. -/
def Interrupted.sip (interrupted : Interrupted) : Address := interrupted.gregs[16]

/-- The first record of `write_pebs_info`, from a hardware sample. -/
def pebsRecord (flags : SampleFlags) (interrupted : Interrupted) (entry : PebsCoreSmplEntry) :
    Record :=
  let record := signalHandlerRecord flags interrupted
  { record with
    threadId := interrupted.tid
    type := .memoryOp
    memoryAccess := { record.memoryAccess with
      memoryAddress := 0
      isWrite := 0
      pip := entry.ip
      sip := interrupted.sip
      memOp := entry }.withLockset (pebsLockset flags interrupted) }

/-- The registers of the interrupted thread. -/
def Interrupted.memOp (interrupted : Interrupted) : PebsCoreSmplEntry where
  eflags := interrupted.gregs[17]
  ip := interrupted.sip
  eax := interrupted.gregs[13]
  ebx := interrupted.gregs[11]
  ecx := interrupted.gregs[14]
  edx := interrupted.gregs[12]
  esi := interrupted.gregs[9]
  edi := interrupted.gregs[8]
  ebp := interrupted.gregs[10]
  esp := interrupted.gregs[15]
  r8 := interrupted.gregs[0]
  r9 := interrupted.gregs[1]
  r10 := interrupted.gregs[2]
  r11 := interrupted.gregs[3]
  r12 := interrupted.gregs[4]
  r13 := interrupted.gregs[5]
  r14 := interrupted.gregs[6]
  r15 := interrupted.gregs[7]

/-- The second record of `write_pebs_info`, from the registers of the thread. -/
def userRecord (flags : SampleFlags) (interrupted : Interrupted) : Record :=
  { Record.zeroed with
    threadId := interrupted.tid
    type := .memoryOp
    memoryAccess := { Record.zeroed.memoryAccess with
      memoryAddress := 0
      isWrite := 0
      pip := interrupted.sip
      sip := interrupted.sip
      memOp := interrupted.memOp }.withLockset (pebsLockset flags interrupted) }

/-- The record of `signal_handler_amd_ibs`. -/
def ibsRecord (flags : SampleFlags) (interrupted : Interrupted) (ip mAddr : Address)
    (isRead : Bool) : Record :=
  writeIbsInfo (signalHandlerRecord flags interrupted) interrupted.tid
    ⟨ip, mAddr, isRead, interrupted.sip⟩ interrupted.lockset

/-! ## All producers -/

/-- A call that passes a record to `WriteRecord`. -/
inductive Producer
  | pebs (flags : SampleFlags) (interrupted : Interrupted) (entry : PebsCoreSmplEntry)
  | pebsUser (flags : SampleFlags) (interrupted : Interrupted)
  | ibs (flags : SampleFlags) (interrupted : Interrupted) (ip mAddr : Address) (isRead : Bool)
  | hook (tid : ℤ) (hook : LogHook)

/-- The record that is passed. -/
def Producer.record : Producer → Record
  | pebs flags interrupted entry => pebsRecord flags interrupted entry
  | pebsUser flags interrupted => userRecord flags interrupted
  | ibs flags interrupted ip mAddr isRead => ibsRecord flags interrupted ip mAddr isRead
  | hook tid call => call.record tid

/-- The entry holds what `WriteRecord` does not copy: the addresses of an event of a condition
variable. -/
def Producer.LeftOver (slot : Record) : Producer → Prop
  | hook _ (.condSignal cond) => slot.signalOp = cond
  | hook _ (.condWait cond mutex) => slot.waitOp = ⟨cond, mutex⟩
  | _ => True

/-! ## What is copied -/

/-- A payload without a branch of its own stays what it was. -/
theorem Record.copyTo_carries_iff {record : Record} (htype : record.type ≠ .memoryOp)
    (htype' : record.type ≠ .memoryAlloc) (number : ℤ) (entry : Record) :
    (record.copyTo number entry).Carries record ↔ entry.SamePayload record := by
  have hpayload : (record.copyTo number entry).SamePayload record ↔ entry.SamePayload record := by
    rw [SamePayload, SamePayload, copyTo]
    split <;> simp_all
  constructor
  · intro h
    exact hpayload.mp h.payload
  · intro h
    exact ⟨rfl, rfl, hpayload.mpr h, rfl,
      take_copyPrefix record.traceDepth record.stackTrace entry.stackTrace⟩

theorem Producer.copyTo_carries_iff (p : Producer) (number : ℤ) (entry : Record) :
    (p.record.copyTo number entry).Carries p.record ↔ p.LeftOver entry := by
  cases p with
  | pebs flags interrupted sample =>
    exact iff_of_true (Record.copyTo_carries (Or.inl rfl) _ _) trivial
  | pebsUser flags interrupted =>
    exact iff_of_true (Record.copyTo_carries (Or.inl rfl) _ _) trivial
  | ibs flags interrupted ip mAddr isRead =>
    exact iff_of_true (Record.copyTo_carries (Or.inl rfl) _ _) trivial
  | hook tid call =>
    cases call with
    | malloc size result => exact iff_of_true (Record.copyTo_carries (Or.inr rfl) _ _) trivial
    | free p => exact iff_of_true (Record.copyTo_carries (Or.inr rfl) _ _) trivial
    | logMemoryAllocation start size isAlloc =>
      exact iff_of_true (Record.copyTo_carries (Or.inr rfl) _ _) trivial
    | condWait cond mutex =>
      have htype : (condWaitRecord tid cond mutex).type = .syncWait := rfl
      exact Record.copyTo_carries_iff (htype ▸ by decide) (htype ▸ by decide) number entry
    | condSignal cond =>
      have htype : (condSignalRecord tid cond).type = .syncSignal := rfl
      exact Record.copyTo_carries_iff (htype ▸ by decide) (htype ▸ by decide) number entry

private theorem entries_writeRecord {racezWriteRecord : Bool} {b : BufferData} {record : Record}
    {k : ℕ} (hk : (writeRecord racezWriteRecord b record).2 = some k) :
    (writeRecord racezWriteRecord b record).1.entries k
      = record.copyTo (toInt32 k) (b.entries k) := by
  cases racezWriteRecord with
  | false => exact absurd hk (by simp [writeRecord])
  | true =>
    by_cases haccepted : Accepted (b.global + 1)
    · rw [writeRecord_of_accepted haccepted] at hk ⊢
      obtain rfl := Option.some.inj hk
      exact Function.update_self _ _ _
    · rw [writeRecord_of_not_accepted haccepted] at hk
      exact absurd hk (by simp)

/-- An accepted call leaves its record in the entry exactly when the record has no payload of a
condition variable, or that payload was in the entry before. -/
theorem carries_writeRecord_iff (p : Producer) {racezWriteRecord : Bool} {b : BufferData} {k : ℕ}
    (hk : (writeRecord racezWriteRecord b p.record).2 = some k) :
    ((writeRecord racezWriteRecord b p.record).1.entries k).Carries p.record
      ↔ p.LeftOver (b.entries k) := by
  rw [entries_writeRecord hk]
  exact p.copyTo_carries_iff (toInt32 k) (b.entries k)

/-- An allocation in a fresh buffer. -/
theorem carries_writeRecord_iff_malloc :
    ((writeRecord true (initBuffer fun _ ↦ .zeroed)
        (Producer.hook 7 (.malloc 16 64)).record).1.entries 1).Carries
          (Producer.hook 7 (.malloc 16 64)).record
      ↔ (Producer.hook 7 (.malloc 16 64)).LeftOver Record.zeroed :=
  carries_writeRecord_iff (.hook 7 (.malloc 16 64)) (by decide)

/-- The address of the condition variable does not reach a cleared entry. -/
theorem not_carries_condSignal :
    (writeRecord true (initBuffer fun _ ↦ .zeroed)
        (Producer.hook 7 (.condSignal 8)).record).2 = some 1
      ∧ ((writeRecord true (initBuffer fun _ ↦ .zeroed)
        (Producer.hook 7 (.condSignal 8)).record).1.entries 1).signalOp = 0
      ∧ ¬((writeRecord true (initBuffer fun _ ↦ .zeroed)
        (Producer.hook 7 (.condSignal 8)).record).1.entries 1).Carries
          (Producer.hook 7 (.condSignal 8)).record := by
  refine ⟨by decide, by decide, fun h ↦ ?_⟩
  have hpayload : (0 : Address) = 8 := h.payload
  exact absurd hpayload (by decide)

end Racez
