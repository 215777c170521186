import Racez.Hooks.Producers

/-!
# The log of a run

The log is the dump of what all producers together have passed to `WriteRecord`. Whatever they are,
it is a log the detector can work on (`wellFormedLog_loggedRecords`): an access is a read or a
write, its locks fit into the record, and it has a number of its own.

## From producers to entries

The entry with number `k` is what `WriteRecord` makes of the slot for the record of producer number
`k`, as long as there is room. So an access in the log is one that a producer has passed on
(`exists_producer_of_getElem?`), and what a producer passes on is in the log
(`exists_logged_of_mem`). Slot 0 is not written. It is in the dump all the same, and what is assumed
of it, in most results that it does not read as an access, is an assumption about uninitialised
memory.
-/

namespace Racez

/-! ## Producers -/

/-- The lockset a producer copies from. -/
def Producer.lockset : Producer → Option Lockset
  | pebs flags interrupted _ => pebsLockset flags interrupted
  | pebsUser flags interrupted => pebsLockset flags interrupted
  | ibs _ interrupted _ _ _ => interrupted.lockset
  | hook _ _ => none

@[simp] theorem MemoryAccess.memoryAddress_withLockset (access : MemoryAccess)
    (lockset : Option Lockset) :
    (access.withLockset lockset).memoryAddress = access.memoryAddress := by
  rcases lockset with _ | l <;> rfl

@[simp] theorem MemoryAccess.isWrite_withLockset (access : MemoryAccess)
    (lockset : Option Lockset) :
    (access.withLockset lockset).isWrite = access.isWrite := by
  rcases lockset with _ | l <;> rfl

@[simp] theorem MemoryAccess.lockCount_withLockset (access : MemoryAccess)
    (lockset : Option Lockset) :
    (access.withLockset lockset).lockCount = lockset.elim access.lockCount Lockset.n := by
  rcases lockset with _ | l <;> rfl

@[simp] theorem memoryAccess_signalHandlerRecord (flags : SampleFlags) (interrupted : Interrupted) :
    (signalHandlerRecord flags interrupted).memoryAccess = Record.zeroed.memoryAccess := by
  rw [signalHandlerRecord]
  split_ifs <;> rfl

theorem memoryAccess_writeIbsInfo (record : Record) (tid : ℤ) (x : Sample)
    (lockset : Option Lockset) :
    (writeIbsInfo record tid x lockset).memoryAccess
      = { record.memoryAccess with
          memoryAddress := x.mAddr
          isWrite := if x.isRead then 0 else 1
          pip := x.ip
          sip := x.sip }.withLockset lockset := by
  rcases lockset with _ | l <;> rfl

theorem Producer.type_hook_ne (tid : ℤ) (call : LogHook) :
    (hook tid call).record.type ≠ .memoryOp := by
  rcases call with _ | _ | _ | _ | _ <;> exact nofun

private theorem Producer.isWrite_record (p : Producer) (htype : p.record.type = .memoryOp) :
    p.record.memoryAccess.isWrite = 0 ∨ p.record.memoryAccess.isWrite = 1 := by
  rcases p with ⟨flags, i, entry⟩ | ⟨flags, i⟩ | ⟨flags, i, ip, mAddr, isRead⟩ | ⟨tid, call⟩
  · exact Or.inl (MemoryAccess.isWrite_withLockset _ _)
  · exact Or.inl (MemoryAccess.isWrite_withLockset _ _)
  · rw [Producer.record, ibsRecord, memoryAccess_writeIbsInfo, MemoryAccess.isWrite_withLockset]
    rcases isRead with _ | _
    · exact Or.inr rfl
    · exact Or.inl rfl
  · exact absurd htype (Producer.type_hook_ne tid call)

theorem Producer.lockCount_record (p : Producer) (htype : p.record.type = .memoryOp) :
    p.record.memoryAccess.lockCount = p.lockset.elim 0 Lockset.n := by
  rcases p with ⟨flags, i, entry⟩ | ⟨flags, i⟩ | ⟨flags, i, ip, mAddr, isRead⟩ | ⟨tid, call⟩
  · rw [Producer.record, pebsRecord, MemoryAccess.lockCount_withLockset,
      memoryAccess_signalHandlerRecord]
    rfl
  · exact MemoryAccess.lockCount_withLockset _ _
  · rw [Producer.record, ibsRecord, memoryAccess_writeIbsInfo, memoryAccess_signalHandlerRecord]
    exact MemoryAccess.lockCount_withLockset _ _
  · exact absurd htype (Producer.type_hook_ne tid call)

theorem Producer.locks_record (p : Producer) (htype : p.record.type = .memoryOp) :
    p.record.memoryAccess.locks = p.lockset.elim [] Lockset.locks := by
  have hlocks : ∀ (access : MemoryAccess) (lockset : Option Lockset), access.lockCount = 0 →
      (access.withLockset lockset).locks = lockset.elim [] Lockset.locks := by
    rintro access (_ | l) hzero
    · rw [MemoryAccess.withLockset, MemoryAccess.locks, hzero]
      rfl
    · exact take_copyPrefix l.n l.lockset _
  rcases p with ⟨flags, i, entry⟩ | ⟨flags, i⟩ | ⟨flags, i, ip, mAddr, isRead⟩ | ⟨tid, call⟩
  · rw [Producer.record, pebsRecord, memoryAccess_signalHandlerRecord]
    exact hlocks _ _ rfl
  · exact hlocks _ _ rfl
  · rw [Producer.record, ibsRecord, memoryAccess_writeIbsInfo, memoryAccess_signalHandlerRecord]
    exact hlocks _ _ rfl
  · exact absurd htype (Producer.type_hook_ne tid call)

/-! ## The log -/

section Log

variable {memory : ℕ → Record} {producers : List Producer}

/-- The log of a run with `racez_write_record` set: what the producers pass on, dumped. -/
def loggedRecords (memory : ℕ → Record) (producers : List Producer) : List Record :=
  stopBuffer (writeRecords true (initBuffer memory) (producers.map Producer.record)).1

theorem loggedRecords_ne_nil (hroom : producers.length < bufferSize) :
    loggedRecords memory producers ≠ [] := by
  intro hnil
  have hlen : (producers.map Producer.record).length ≤ bufferSize := by
    rw [List.length_map]
    exact hroom.le
  have hzero := (getElem?_stopBuffer memory hlen).1
  rw [← loggedRecords, hnil] at hzero
  exact absurd hzero nofun

/-- Behind the first record of the log each is what a producer has passed on, under the number of
its entry. -/
theorem exists_record_of_getElem? (hroom : producers.length < bufferSize) {k : ℕ} {r : Record}
    (hr : (loggedRecords memory producers)[k]? = some r) :
    k = 0 ∧ r = memory 0 ∨ ∃ p ∈ producers, r = p.record.copyTo k (memory k) := by
  have hlen : (producers.map Producer.record).length ≤ bufferSize := by
    rw [List.length_map]
    exact hroom.le
  obtain ⟨hzero, hsucc⟩ := getElem?_stopBuffer memory hlen
  rcases k with _ | k
  · exact Or.inl ⟨rfl, (Option.some.inj (hzero.symm.trans hr)).symm⟩
  have hget := (hsucc k).symm.trans hr
  rw [List.getElem?_map, Option.map_map, Option.map_eq_some_iff] at hget
  obtain ⟨p, hp, hr⟩ := hget
  have hlt : k < producers.length := (List.getElem?_eq_some_iff.mp hp).1
  have hk : k + 1 < 5000000 := Nat.lt_of_le_of_lt hlt hroom
  rw [Function.comp_apply, toInt32_of_lt (by omega)] at hr
  exact Or.inr ⟨p, List.mem_of_getElem? hp, hr.symm⟩

/-- An access in the log is one that a producer has passed on. -/
theorem exists_producer_of_getElem? (hroom : producers.length < bufferSize)
    (hfirst : (memory 0).type ≠ .memoryOp) {k : ℕ} {r : Record}
    (hr : (loggedRecords memory producers)[k]? = some r) (htype : r.type = .memoryOp) :
    r.recordNo = k ∧ ∃ p ∈ producers, p.record.type = .memoryOp ∧ r.threadId = p.record.threadId
      ∧ r.memoryAccess = p.record.memoryAccess.copyTo (memory k).memoryAccess := by
  rcases exists_record_of_getElem? hroom hr with ⟨-, rfl⟩ | ⟨p, hp, rfl⟩
  · exact absurd htype hfirst
  · exact ⟨rfl, p, hp, htype, rfl, if_pos htype⟩

/-- And what a producer passes on is in the log. -/
theorem exists_logged_of_mem (hroom : producers.length < bufferSize) {p : Producer}
    (hp : p ∈ producers) (htype : p.record.type = .memoryOp) :
    ∃ r ∈ loggedRecords memory producers, r.type = .memoryOp
      ∧ r.threadId = p.record.threadId
      ∧ ∃ entry : MemoryAccess, r.memoryAccess = p.record.memoryAccess.copyTo entry := by
  obtain ⟨k, hk⟩ := List.mem_iff_getElem?.mp hp
  have hlen : (producers.map Producer.record).length ≤ bufferSize := by
    rw [List.length_map]
    exact hroom.le
  have hget := (getElem?_stopBuffer memory hlen).2 k
  have hlt : k < producers.length := (List.getElem?_eq_some_iff.mp hk).1
  have hsmall : k + 1 < 5000000 := Nat.lt_of_le_of_lt hlt hroom
  rw [List.getElem?_map, hk, Option.map_some, Option.map_some, toInt32_of_lt (by omega),
    Record.copyTo] at hget
  exact ⟨_, List.mem_of_getElem? hget, htype, rfl, (memory (k + 1)).memoryAccess, if_pos htype⟩

theorem wellFormedLog_loggedRecords (hroom : producers.length < bufferSize)
    (hfirst : (memory 0).type ≠ .memoryOp) :
    WellFormedLog (loggedRecords memory producers) where
  isWrite r hr htype := by
    obtain ⟨k, hk⟩ := List.mem_iff_getElem?.mp hr
    obtain ⟨-, p, -, hptype, -, haccess⟩ := exists_producer_of_getElem? hroom hfirst hk htype
    rw [haccess]
    exact p.isWrite_record hptype
  threadId r hr r' hr' htype htype' hno := by
    obtain ⟨k, hk⟩ := List.mem_iff_getElem?.mp hr
    obtain ⟨k', hk'⟩ := List.mem_iff_getElem?.mp hr'
    obtain ⟨hrno, -⟩ := exists_producer_of_getElem? hroom hfirst hk htype
    obtain ⟨hrno', -⟩ := exists_producer_of_getElem? hroom hfirst hk' htype'
    obtain rfl : k = k' := by omega
    obtain rfl := Option.some.inj (hk.symm.trans hk')
    rfl

theorem lockCount_loggedRecords (hroom : producers.length < bufferSize)
    (hfirst : (memory 0).type ≠ .memoryOp)
    (hlocks : ∀ p ∈ producers, ∀ l ∈ p.lockset, l.n ≤ 10) :
    ∀ r ∈ loggedRecords memory producers, r.type = .memoryOp →
      r.memoryAccess.lockCount ≤ 10 := by
  intro r hr htype
  obtain ⟨k, hk⟩ := List.mem_iff_getElem?.mp hr
  obtain ⟨-, p, hp, hptype, -, haccess⟩ := exists_producer_of_getElem? hroom hfirst hk htype
  rw [haccess]
  have hcount := p.lockCount_record hptype
  rw [MemoryAccess.copyTo, hcount]
  rcases hlockset : p.lockset with _ | l
  · exact (by decide : (0 : ℤ) ≤ 10)
  · exact hlocks p hp l hlockset

theorem lockCount_loggedRecords_eq_zero (hroom : producers.length < bufferSize)
    (hfirst : (memory 0).type ≠ .memoryOp) (hlocks : ∀ p ∈ producers, p.lockset = none) :
    ∀ r ∈ loggedRecords memory producers, r.type = .memoryOp →
      r.memoryAccess.lockCount = 0 := by
  intro r hr htype
  obtain ⟨k, hk⟩ := List.mem_iff_getElem?.mp hr
  obtain ⟨-, p, hp, hptype, -, haccess⟩ := exists_producer_of_getElem? hroom hfirst hk htype
  rw [haccess, MemoryAccess.copyTo, p.lockCount_record hptype, hlocks p hp]
  rfl

theorem type_loggedRecords_ne {type : RecordType} (hroom : producers.length < bufferSize)
    (hfirst : (memory 0).type ≠ type) (htype : ∀ p ∈ producers, p.record.type ≠ type) :
    ∀ r ∈ loggedRecords memory producers, r.type ≠ type := by
  intro r hr
  obtain ⟨k, hk⟩ := List.mem_iff_getElem?.mp hr
  rcases exists_record_of_getElem? hroom hk with ⟨-, rfl⟩ | ⟨p, hp, rfl⟩
  · exact hfirst
  · exact htype p hp

theorem pairwise_loggedRecords (hroom : producers.length < bufferSize)
    (hno : (memory 0).recordNo ≤ 0) :
    (loggedRecords memory producers).Pairwise fun r s ↦ r.recordNo < s.recordNo := by
  have hlen : (producers.map Producer.record).length < bufferSize := by
    rw [List.length_map]
    exact hroom
  exact pairwise_stopBuffer hlen hno

end Log

end Racez
