import Mathlib.Logic.Function.Basic
import Racez.Record.Basic
import Racez.Transition.Run

/-!
# The log buffer

Records are collected in an array of fixed size and written to a file when profiling stops. A writer
reserves an entry by advancing a shared cursor and copies its record into the entry it has reached.

## Representation

The cursor is counted in records from the start of the array, and so is every entry; the array is
the entries below `bufferSize`. Entries beyond it are memory the program does not own. They are part
of the model so that a run can be followed after it has left the array. The record number is the
distance converted to a 32-bit `int`. No producer makes a record with a count above ten, and stores
past the arrays inside a record are not modelled here.

## Both ends

The cursor starts at the first entry and is advanced before it is used, so the first record goes to
the second entry; the guard admits one record more than there is room for; and the dump runs from
the first entry to the cursor, inclusive. `stores_inBounds_iff` and `not_dumpsExactly` are what
follows for the writers and for the dump.

## The run of the writers

One record is accepted or refused by its number alone, and the cursor advances in both cases
(`global_writeRecords`). So the calls store to the entries one after the other from the second entry
on, and `stored_writeRecords` counts them without a look at the records. What stands in the entries
afterwards, and what the dump makes of it, is a matter of the place only (`entries_writeRecords`,
`getElem?_stopBuffer`).
-/

namespace Racez

/-! ## Copying a record -/

/-- `BUFFERSIZE`. -/
def bufferSize : ℕ := 5000000

/-- Conversion to a 32-bit `int`. -/
def toInt32 (k : ℤ) : ℤ := k.bmod (2 ^ 32)

theorem toInt32_of_lt {k : ℕ} (h : k < 2 ^ 31) : toInt32 k = k := by
  rw [toInt32]
  exact Int.bmod_eq_of_le (by omega) (by omega)

/-- An array whose first `count` entries have been copied from another one. -/
def copyPrefix (count : ℤ) (source target : Vector Address 10) : Vector Address 10 :=
  Vector.ofFn fun i ↦ if (i : ℤ) < count then source[i] else target[i]

/-- The fields of a memory access that `WriteRecord` copies. -/
def MemoryAccess.copyTo (access entry : MemoryAccess) : MemoryAccess :=
  { access with lockset := copyPrefix access.lockCount access.lockset entry.lockset }

/-- The entry after `WriteRecord` has copied a record into it. -/
def Record.copyTo (recordNo : ℤ) (record entry : Record) : Record :=
  { entry with
    recordNo
    threadId := record.threadId
    type := record.type
    memoryAccess :=
      if record.type = .memoryOp then record.memoryAccess.copyTo entry.memoryAccess
      else entry.memoryAccess
    memAllocOp := if record.type = .memoryAlloc then record.memAllocOp else entry.memAllocOp
    stackTrace := copyPrefix record.traceDepth record.stackTrace entry.stackTrace
    traceDepth := record.traceDepth }

/-! ## The buffer -/

/-- `BufferData`: the cursor and the memory from the start of the array on. -/
structure BufferData where
  /-- The cursor, counted in records from the start of the array. -/
  global : ℕ
  /-- The memory from there on, inside and behind the array. -/
  entries : ℕ → Record

/-- `InitBuffer`; the array is allocated and not cleared. -/
def initBuffer (memory : ℕ → Record) : BufferData := ⟨0, memory⟩

/-- The guard of `WriteRecord`. -/
def Accepted (k : ℕ) : Prop := ¬toInt32 k > bufferSize

instance : DecidablePred Accepted := fun _ ↦ inferInstanceAs (Decidable (¬_))

/-- `WriteRecord`, with the entry stored to. -/
def writeRecord (racezWriteRecord : Bool) (b : BufferData) (record : Record) :
    BufferData × Option ℕ :=
  if racezWriteRecord = false then (b, none)
  else
    let current := b.global + 1
    if Accepted current then
      (⟨current, Function.update b.entries current
        (record.copyTo (toInt32 current) (b.entries current))⟩, some current)
    else (⟨current, b.entries⟩, none)

/-- Successive calls of `WriteRecord`, with the entries stored to. -/
def writeRecords (racezWriteRecord : Bool) (b : BufferData) (records : List Record) :
    BufferData × List ℕ :=
  Run.collect (writeRecord racezWriteRecord) b records

/-- The entries `StopBuffer` writes to the file. -/
def BufferData.dumped (b : BufferData) : List ℕ := List.range (b.global + 1)

/-- The file `StopBuffer` writes. -/
def stopBuffer (b : BufferData) : List Record := b.dumped.map b.entries

/-! ## Runs -/

section Runs

variable {memory : ℕ → Record} {records : List Record} {k : ℕ}

theorem writeRecord_of_accepted {b : BufferData} (h : Accepted (b.global + 1)) (record : Record) :
    writeRecord true b record = (⟨b.global + 1, Function.update b.entries (b.global + 1)
      (record.copyTo (toInt32 ↑(b.global + 1)) (b.entries (b.global + 1)))⟩,
        some (b.global + 1)) := by
  rw [writeRecord, if_neg nofun]
  exact if_pos h

theorem writeRecord_of_not_accepted {b : BufferData} (h : ¬Accepted (b.global + 1))
    (record : Record) : writeRecord true b record = (⟨b.global + 1, b.entries⟩, none) := by
  rw [writeRecord, if_neg nofun]
  exact if_neg h

@[simp] theorem global_writeRecord (b : BufferData) (record : Record) :
    (writeRecord true b record).1.global = b.global + 1 := by
  by_cases h : Accepted (b.global + 1)
  · rw [writeRecord_of_accepted h]
  · rw [writeRecord_of_not_accepted h]

@[simp] theorem global_writeRecords (memory : ℕ → Record) (records : List Record) :
    (writeRecords true (initBuffer memory) records).1.global = records.length := by
  induction records using List.reverseRecOn with
  | nil => rfl
  | append_singleton records record ih =>
    rw [writeRecords, Run.collect_append_singleton_fst, ← writeRecords, global_writeRecord, ih,
      List.length_append, List.length_singleton]

private theorem stored_writeRecord (b : BufferData) (record : Record) :
    (writeRecord true b record).2.toList = [b.global + 1].filter fun k ↦ Accepted k := by
  by_cases h : Accepted (b.global + 1)
  · simp [writeRecord_of_accepted h, h]
  · simp [writeRecord_of_not_accepted h, h]

/-- Call number `k` stores to entry `k`, if the guard accepts the number. -/
theorem stored_writeRecords (memory : ℕ → Record) (records : List Record) :
    (writeRecords true (initBuffer memory) records).2
      = (List.range' 1 records.length).filter fun k ↦ Accepted k := by
  induction records using List.reverseRecOn with
  | nil => rfl
  | append_singleton records record ih =>
    rw [writeRecords, Run.collect_append_singleton_snd, ← writeRecords, ih, stored_writeRecord,
      global_writeRecords, List.length_append, List.length_singleton, List.range'_1_concat,
      List.filter_append, Nat.add_comm 1]

private theorem mem_stored_iff : k ∈ (writeRecords true (initBuffer memory) records).2
    ↔ (1 ≤ k ∧ k ≤ records.length) ∧ Accepted k := by
  rw [stored_writeRecords, List.mem_filter, List.mem_range'_1, decide_eq_true_iff]
  exact and_congr_left fun _ ↦ and_congr_right fun _ ↦ by omega

theorem accepted_of_le (h : k ≤ bufferSize) : Accepted k := by
  rw [bufferSize] at h
  rw [Accepted, toInt32_of_lt (by omega), bufferSize]
  omega

/-! ## The writers stay inside the array -/

/-- **Every call stores inside the array or nothing** exactly when there are fewer calls than
entries. -/
theorem stores_inBounds_iff (memory : ℕ → Record) (records : List Record) :
    (∀ k ∈ (writeRecords true (initBuffer memory) records).2, k < bufferSize)
      ↔ records.length < bufferSize := by
  constructor
  · intro h
    by_contra hle
    have hstored : bufferSize ∈ (writeRecords true (initBuffer memory) records).2 :=
      mem_stored_iff.mpr ⟨⟨by decide, not_lt.mp hle⟩, accepted_of_le le_rfl⟩
    exact lt_irrefl _ (h bufferSize hstored)
  · intro h k hk
    exact (mem_stored_iff.mp hk).1.2.trans_lt h

/-- The call that fills the buffer stores behind the array. -/
theorem stored_bufferSize : ¬∀ k ∈ (writeRecords true (initBuffer fun _ ↦ .zeroed)
    (List.replicate bufferSize .zeroed)).2, k < bufferSize := by
  intro h
  have hlen : bufferSize ≤ (List.replicate bufferSize Record.zeroed).length :=
    (List.length_replicate).ge
  exact lt_irrefl _ (h bufferSize (mem_stored_iff.mpr ⟨⟨by decide, hlen⟩, accepted_of_le le_rfl⟩))

/-! ## The dump -/

/-- The entries dumped are those stored to, each once and inside the array. -/
structure DumpsExactly (stored dumped : List ℕ) : Prop where
  /-- No entry is missing, and none is dumped that was not stored to. -/
  each_once : dumped.Perm stored
  /-- All are in the array. -/
  inBounds : ∀ k ∈ dumped, k < bufferSize

theorem dumped_eq_cons (h : records.length < bufferSize) :
    (writeRecords true (initBuffer memory) records).1.dumped
      = 0 :: (writeRecords true (initBuffer memory) records).2 := by
  rw [BufferData.dumped, global_writeRecords, stored_writeRecords, List.range_eq_range',
    List.range'_succ, List.filter_eq_self.mpr]
  intro k hk
  rw [List.mem_range'_1] at hk
  exact decide_eq_true (accepted_of_le (by omega))

/-- **No run is dumped exactly**: the first entry is dumped and never stored to. -/
theorem not_dumpsExactly (memory : ℕ → Record) (records : List Record) :
    ¬DumpsExactly (writeRecords true (initBuffer memory) records).2
      (writeRecords true (initBuffer memory) records).1.dumped := by
  intro h
  have hzero : 0 ∈ (writeRecords true (initBuffer memory) records).1.dumped :=
    List.mem_range.mpr (Nat.succ_pos _)
  exact absurd (mem_stored_iff.mp (h.each_once.mem_iff.mp hzero)).1.1 (by decide)

/-- Without any call, one entry is dumped. -/
theorem not_dumpsExactly_nil :
    (writeRecords true (initBuffer fun _ ↦ .zeroed) []).1.dumped = [0]
      ∧ ¬DumpsExactly (writeRecords true (initBuffer fun _ ↦ .zeroed) []).2
        (writeRecords true (initBuffer fun _ ↦ .zeroed) []).1.dumped := by
  refine ⟨rfl, ?_⟩
  intro h
  exact absurd h.each_once.length_eq (by decide)

/-! ## The contents -/

theorem entries_writeRecords (memory : ℕ → Record) (h : records.length ≤ bufferSize) :
    (writeRecords true (initBuffer memory) records).1.entries 0 = memory 0
      ∧ ∀ k, (writeRecords true (initBuffer memory) records).1.entries (k + 1)
        = (records[k]?).elim (memory (k + 1))
          fun r ↦ r.copyTo (toInt32 ↑(k + 1)) (memory (k + 1)) := by
  induction records using List.reverseRecOn with
  | nil => exact ⟨rfl, fun _ ↦ rfl⟩
  | append_singleton records record ih =>
    rw [List.length_append, List.length_singleton] at h
    obtain ⟨hzero, hsucc⟩ := ih (by omega)
    have hglobal := global_writeRecords memory records
    have haccepted : Accepted ((writeRecords true (initBuffer memory) records).1.global + 1) := by
      rw [hglobal]
      exact accepted_of_le h
    rw [writeRecords, Run.collect_append_singleton_fst, ← writeRecords,
      writeRecord_of_accepted haccepted, hglobal]
    dsimp only
    refine ⟨by rw [Function.update_of_ne (by simp), hzero], fun k ↦ ?_⟩
    by_cases hk : k = records.length
    · subst hk
      rw [Function.update_self, hsucc, List.getElem?_eq_none le_rfl, List.getElem?_concat_length]
      rfl
    · have hget : (records ++ [record])[k]? = records[k]? := by
        rw [List.getElem?_append]
        split_ifs with hlt
        · rfl
        · rw [List.getElem?_eq_none (by simp; omega), List.getElem?_eq_none (by omega)]
      rw [Function.update_of_ne (by omega), hsucc, hget]

/-- The dump: the first entry, and behind it what the calls have made of theirs. -/
theorem getElem?_stopBuffer (memory : ℕ → Record) (h : records.length ≤ bufferSize) :
    (stopBuffer (writeRecords true (initBuffer memory) records).1)[0]? = some (memory 0)
      ∧ ∀ k, (stopBuffer (writeRecords true (initBuffer memory) records).1)[k + 1]?
        = (records[k]?).map fun r ↦ r.copyTo (toInt32 ↑(k + 1)) (memory (k + 1)) := by
  obtain ⟨hzero, hsucc⟩ := entries_writeRecords memory h
  rw [stopBuffer, BufferData.dumped, global_writeRecords]
  refine ⟨by simp [hzero], fun k ↦ ?_⟩
  rw [List.getElem?_map]
  by_cases hk : k < records.length
  · rw [List.getElem?_range (by omega), Option.map_some, hsucc, List.getElem?_eq_getElem hk]
    rfl
  · rw [List.getElem?_eq_none (by simp; omega), List.getElem?_eq_none (by omega)]
    rfl

theorem pairwise_stopBuffer (h : records.length < bufferSize) (hno : (memory 0).recordNo ≤ 0) :
    (stopBuffer (writeRecords true (initBuffer memory) records).1).Pairwise
      fun r s ↦ r.recordNo < s.recordNo := by
  obtain ⟨hzero, hsucc⟩ := getElem?_stopBuffer memory h.le
  have hsmall : bufferSize = 5000000 := rfl
  have hno' : ∀ (k : ℕ) (r : Record),
      (stopBuffer (writeRecords true (initBuffer memory) records).1)[k + 1]? = some r →
        r.recordNo = ((k + 1 : ℕ) : ℤ) := by
    intro k r hr
    rw [hsucc, Option.map_eq_some_iff] at hr
    obtain ⟨r', hr', heq⟩ := hr
    have hlt : k < records.length := (List.getElem?_eq_some_iff.mp hr').1
    rw [toInt32_of_lt (by omega), Record.copyTo] at heq
    rw [← heq]
  refine List.pairwise_iff_getElem.mpr fun i j hi hj hij ↦ ?_
  obtain ⟨j, rfl⟩ := Nat.exists_eq_succ_of_ne_zero (Nat.ne_zero_of_lt hij)
  rw [hno' j _ (List.getElem?_eq_getElem hj)]
  rcases i with _ | i
  · obtain heq := Option.some.inj ((List.getElem?_eq_getElem hi).symm.trans hzero)
    rw [heq]
    omega
  · rw [hno' i _ (List.getElem?_eq_getElem hi)]
    omega

end Runs

end Racez
