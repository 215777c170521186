import Racez.Buffer.Interleaving

/-!
# The logging hooks

The hooks that write a record of their own: `malloc`, `free`, the two condition-variable functions,
and `racez_log_memory_allocation`, which programs with their own allocator call. All of them clear a
record, fill in the thread, the type and the payload of the type, and pass it to `WriteRecord`. The
size of an allocation is a `size_t` in the hook and an `int` in the record.

A condition variable is logged by its address, and nothing that is logged about it is ever copied to
the entry; that is shown in `Hooks/Producers`.
-/

namespace Racez

/-- A cleared record with a thread and the payload of an allocation or a release. -/
def allocRecord (tid : ℤ) (op : MemAllocOp) : Record :=
  { Record.zeroed with
    threadId := tid
    type := .memoryAlloc
    memAllocOp := op }

/-- The record of `malloc`. -/
def mallocRecord (tid : ℤ) (result : Address) (size : BitVec 64) : Record :=
  allocRecord tid ⟨result, toInt32 size.toNat, 1⟩

/-- The record of `free`. -/
def freeRecord (tid : ℤ) (p : Address) : Record := allocRecord tid ⟨p, 0, 0⟩

/-- The record of `racez_log_memory_allocation`. -/
def logMemoryAllocationRecord (tid : ℤ) (startAddress : Address) (size isAlloc : ℤ) : Record :=
  allocRecord tid ⟨startAddress, size, isAlloc⟩

/-- The record of `pthread_cond_wait`. -/
def condWaitRecord (tid : ℤ) (cond mutex : Address) : Record :=
  { Record.zeroed with
    threadId := tid
    type := .syncWait
    waitOp := ⟨cond, mutex⟩ }

/-- The record of `pthread_cond_signal`. -/
def condSignalRecord (tid : ℤ) (cond : Address) : Record :=
  { Record.zeroed with
    threadId := tid
    type := .syncSignal
    signalOp := cond }

/-! ## Calls -/

/-- A call of a logging hook, with the result of the real function where the hook uses it. -/
inductive LogHook
  | malloc (size : BitVec 64) (result : Address)
  | free (p : Address)
  | condWait (cond mutex : Address)
  | condSignal (cond : Address)
  | logMemoryAllocation (startAddress : Address) (size isAlloc : ℤ)
  deriving DecidableEq

/-- The settings the hooks and `WriteRecord` look at. -/
structure LogFlags where
  /-- `racez_memory_allocator`. -/
  racezMemoryAllocator : Bool
  /-- `racez_signal_wait`. -/
  racezSignalWait : Bool
  /-- `racez_write_record`. -/
  racezWriteRecord : Bool

/-- The setting a hook tests together with `racez_enable`. -/
def LogHook.flag (flags : LogFlags) : LogHook → Bool
  | .malloc _ _ => flags.racezMemoryAllocator
  | .free _ => flags.racezMemoryAllocator
  | .condWait _ _ => flags.racezSignalWait
  | .condSignal _ => flags.racezSignalWait
  | .logMemoryAllocation _ _ _ => flags.racezMemoryAllocator

/-- The record a hook passes to `WriteRecord`. -/
def LogHook.record (tid : ℤ) : LogHook → Record
  | .malloc size result => mallocRecord tid result size
  | .free p => freeRecord tid p
  | .condWait cond mutex => condWaitRecord tid cond mutex
  | .condSignal cond => condSignalRecord tid cond
  | .logMemoryAllocation startAddress size isAlloc =>
    logMemoryAllocationRecord tid startAddress size isAlloc

theorem LogHook.countsFit_record (tid : ℤ) (hook : LogHook) : (hook.record tid).CountsFit := by
  refine ⟨?_, ?_⟩
  · intro htype
    cases hook <;> exact absurd htype (by simp [LogHook.record, mallocRecord, freeRecord,
      allocRecord, condWaitRecord, condSignalRecord, logMemoryAllocationRecord])
  · cases hook <;> exact (show (0 : ℤ) ≤ 10 by decide)

theorem Record.Carries.alloc {entry : Record} {tid : ℤ} {op : MemAllocOp}
    (h : entry.Carries (allocRecord tid op)) :
    entry.type = .memoryAlloc ∧ entry.memAllocOp = op :=
  ⟨h.type, h.payload⟩

end Racez
