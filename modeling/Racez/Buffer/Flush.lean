import Racez.Buffer.Basic

/-!
# Flushing

`FlushBuffer` writes the buffer to the file while it is in use. It starts at the first entry every
time and does not set the cursor back, and so does `StopBuffer` behind it. The file is then a
sequence of prefixes of the last dump, one for each flush, with the dump itself at the end
(`closedFile_eq`). It is in the order of the numbers, which is what the detector's merge relies on,
only if there was no flush (`pairwise_closedFile_iff`).

## What a flush repeats

Between two flushes the buffer only grows at its end. The dump of what was there at an earlier time
is therefore a prefix of the dump at a later one (`dumpOf_take`), and the file is known as soon as
the numbers of records at the flushes are. The numbers inside of each prefix increase. Behind the
end of a prefix comes the first entry again, which no call has written and whose number is not
positive, so the order is broken there.
-/

namespace Racez

/-- A call of `WriteRecord` or of `FlushBuffer`. -/
inductive BufferEvent
  | write (record : Record)
  | flush

/-- The buffer and the file. -/
structure OpenBuffer where
  /-- The buffer in memory. -/
  buffer : BufferData
  /-- What has been written to the file so far. -/
  file : List Record

/-- `FlushBuffer`. The loop is that of `StopBuffer`. -/
def OpenBuffer.flushBuffer (b : OpenBuffer) : OpenBuffer :=
  ⟨b.buffer, b.file ++ stopBuffer b.buffer⟩

/-- One call. Records are written if `racez_write_record` is set. -/
def bufferStep (b : OpenBuffer) : BufferEvent → OpenBuffer
  | .write record => ⟨Run.next (writeRecord true) b.buffer record, b.file⟩
  | .flush => b.flushBuffer

/-- The buffer after some calls. -/
def bufferRun (memory : ℕ → Record) (events : List BufferEvent) : OpenBuffer :=
  events.foldl bufferStep ⟨initBuffer memory, []⟩

/-- The file after some calls and `StopBuffer`. -/
def closedFile (memory : ℕ → Record) (events : List BufferEvent) : List Record :=
  (bufferRun memory events).file ++ stopBuffer (bufferRun memory events).buffer

/-- The record of a call of `WriteRecord`. -/
def BufferEvent.record? : BufferEvent → Option Record
  | write record => some record
  | flush => none

/-- The records that are written. -/
def written (events : List BufferEvent) : List Record := events.filterMap BufferEvent.record?

/-- How many records have been written before each flush. The argument `n` counts those before the
first call. -/
def flushedAt (n : ℕ) : List BufferEvent → List ℕ
  | [] => []
  | .write _ :: events => flushedAt (n + 1) events
  | .flush :: events => n :: flushedAt n events

/-- What `StopBuffer` writes after the records. -/
def dumpOf (memory : ℕ → Record) (records : List Record) : List Record :=
  stopBuffer (writeRecords true (initBuffer memory) records).1

section Run

variable {memory : ℕ → Record} {events : List BufferEvent} {records : List Record}

@[simp] theorem flushedAt_append_write (n : ℕ) (events : List BufferEvent) (record : Record) :
    flushedAt n (events ++ [.write record]) = flushedAt n events := by
  fun_induction flushedAt n events with
  | case1 n => rfl
  | case2 n record events ih => rw [List.cons_append, flushedAt, ih]
  | case3 n events ih => rw [List.cons_append, flushedAt, ih]

@[simp] theorem flushedAt_append_flush (n : ℕ) (events : List BufferEvent) :
    flushedAt n (events ++ [.flush]) = flushedAt n events ++ [n + (written events).length] := by
  fun_induction flushedAt n events with
  | case1 n => rfl
  | case2 n record events ih =>
    have hlength : (written (.write record :: events)).length = (written events).length + 1 := rfl
    rw [List.cons_append, flushedAt, ih, hlength, Nat.add_assoc, Nat.add_comm 1]
  | case3 n events ih =>
    rw [List.cons_append, flushedAt, ih]
    rfl

private theorem le_of_mem_flushedAt {n k : ℕ} (h : k ∈ flushedAt n events) :
    k ≤ n + (written events).length := by
  fun_induction flushedAt n events with
  | case1 n => exact absurd h List.not_mem_nil
  | case2 n record events ih =>
    have hlength : (written (.write record :: events)).length = (written events).length + 1 := rfl
    rw [hlength]
    exact (ih h).trans_eq (by omega)
  | case3 n events ih =>
    rcases List.mem_cons.mp h with rfl | h
    · exact Nat.le_add_right _ _
    · exact ih h

/-- While calls are made the buffer is that of the records alone, and the file has a dump for every
flush. -/
theorem bufferRun_eq (memory : ℕ → Record) (events : List BufferEvent) :
    bufferRun memory events
      = ⟨(writeRecords true (initBuffer memory) (written events)).1,
        (flushedAt 0 events).flatMap fun n ↦ dumpOf memory ((written events).take n)⟩ := by
  induction events using List.reverseRecOn with
  | nil => rfl
  | append_singleton events e ih =>
    rw [bufferRun, List.foldl_append, ← bufferRun, ih]
    rcases e with record | _
    · have hwritten : written (events ++ [.write record]) = written events ++ [record] :=
        List.filterMap_append
      have hbuffer : (writeRecords true (initBuffer memory) (written events ++ [record])).1
          = Run.next (writeRecord true)
            (writeRecords true (initBuffer memory) (written events)).1 record := by
        rw [Run.next, writeRecords, Run.collect_append_singleton_fst, ← writeRecords]
      rw [List.foldl_cons, List.foldl_nil, bufferStep, hwritten, hbuffer, flushedAt_append_write]
      refine congrArg (OpenBuffer.mk _) (List.flatMap_congr fun n hn ↦ ?_)
      rw [List.take_append_of_le_length ((le_of_mem_flushedAt hn).trans_eq (Nat.zero_add _))]
    · have hwritten : written (events ++ [.flush]) = written events :=
        List.filterMap_append.trans (List.append_nil _)
      rw [List.foldl_cons, List.foldl_nil, bufferStep, OpenBuffer.flushBuffer, hwritten,
        flushedAt_append_flush, List.flatMap_append, List.flatMap_singleton, Nat.zero_add,
        List.take_length, dumpOf]

theorem dumpOf_take (h : records.length ≤ bufferSize) (n : ℕ) :
    dumpOf memory (records.take n) = (dumpOf memory records).take (n + 1) := by
  have hlen : (records.take n).length ≤ bufferSize := (List.length_take_le' n records).trans h
  refine List.ext_getElem? fun k ↦ ?_
  obtain ⟨hzero, hsucc⟩ := getElem?_stopBuffer memory h
  obtain ⟨hzero', hsucc'⟩ := getElem?_stopBuffer memory hlen
  rcases k with _ | k
  · rw [List.getElem?_take_of_lt (Nat.succ_pos n)]
    exact hzero'.trans hzero.symm
  · refine (hsucc' k).trans ?_
    by_cases hk : k < n
    · rw [List.getElem?_take_of_lt hk, List.getElem?_take_of_lt (Nat.succ_lt_succ hk)]
      exact (hsucc k).symm
    · rw [List.getElem?_take_eq_none (by omega), List.getElem?_take_eq_none (by omega)]
      rfl

/-- The file is a sequence of prefixes of the last dump, with the dump at the end. -/
theorem closedFile_eq (h : (written events).length ≤ bufferSize) :
    closedFile memory events
      = ((flushedAt 0 events).flatMap fun n ↦ (dumpOf memory (written events)).take (n + 1))
        ++ dumpOf memory (written events) := by
  rw [closedFile, bufferRun_eq]
  exact congrArg (· ++ _) (List.flatMap_congr fun n _ ↦ dumpOf_take h n)

private theorem flushedAt_eq_nil_iff {n : ℕ} : flushedAt n events = [] ↔ .flush ∉ events := by
  fun_induction flushedAt n events with
  | case1 n => simp
  | case2 n record events ih => simpa using ih
  | case3 n events ih => simp

/-- **The file is in the order of its numbers** if and only if the buffer was not flushed. -/
theorem pairwise_closedFile_iff (h : (written events).length < bufferSize)
    (hno : (memory 0).recordNo ≤ 0) :
    (closedFile memory events).Pairwise (fun r s ↦ r.recordNo < s.recordNo)
      ↔ .flush ∉ events := by
  have hzero := (getElem?_stopBuffer memory h.le).1
  rw [closedFile_eq h.le]
  constructor
  · intro hpairwise hflush
    -- every dump begins with the first entry
    have hmem : memory 0 ∈ dumpOf memory (written events) := List.mem_of_getElem? hzero
    obtain ⟨n, hn⟩ := List.exists_mem_of_ne_nil _ (mt flushedAt_eq_nil_iff.mp (not_not.mpr hflush))
    have htake : memory 0 ∈ (dumpOf memory (written events)).take (n + 1) := by
      refine List.mem_of_getElem? (i := 0) ?_
      rw [List.getElem?_take_of_lt (Nat.succ_pos n)]
      exact hzero
    have hbefore : memory 0 ∈ (flushedAt 0 events).flatMap
        fun n ↦ (dumpOf memory (written events)).take (n + 1) :=
      List.mem_flatMap.mpr ⟨n, hn, htake⟩
    exact lt_irrefl _ ((List.pairwise_append.mp hpairwise).2.2 _ hbefore _ hmem)
  · intro hflush
    rw [flushedAt_eq_nil_iff.mpr hflush, List.flatMap_nil, List.nil_append]
    exact pairwise_stopBuffer h hno

/-- One record, with a flush behind it. -/
theorem pairwise_closedFile_iff_oneFlush :
    (closedFile (fun _ ↦ .zeroed) [.write .zeroed, .flush]).Pairwise
        (fun r s ↦ r.recordNo < s.recordNo)
      ↔ .flush ∉ [BufferEvent.write .zeroed, .flush] :=
  pairwise_closedFile_iff (by decide) (by decide)

end Run

end Racez
