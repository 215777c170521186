import Racez.Container.OrderedMap
import Racez.Detect.Core
import Racez.Transition.Run

/-!
# Offline detection

`offline_detection` processes one record of the log against three maps keyed by address: the
record sets, the statuses and the candidate locksets. A memory access creates the three entries of
its address or runs `core_detection` on them; with the memory-reuse filter on, a release removes
the entries of the released range from all three, its size taken from the record or, when that is
zero, from a fourth map of allocations.

The maps are inspected one by one, so that in principle they could disagree. `EntryIs` is the joint
view of the three at one address, `InStep` says that it exists everywhere, and each operation has
one lemma that says what it does to this view. Later proofs use those and never the maps.

## One lemma for each operation

* Creation of an entry puts the three values under the address and leaves all others.
* An access to a known address runs `core_detection` on the entry, stores what it returns, and makes
  a report if it asked for one.
* An allocation is noted in the fourth map. A release with the filter on removes the entries of its
  range, whose size it looks up; the look-up makes an entry with size zero if there is none.

`Effect` lists what can happen to the entry of an address, and by `exists_effect` nothing else does.

## Faults

An erasing loop that is given its bounds the wrong way round runs off the end of a map. The three
loops have the same bounds, and `deleteMapEntries_eq_ok` says what they do when all are defined. The
other faults are those of `core_detection`.
-/

open Container

namespace Racez

/-! ## State -/

/-- The global variables of the detector. A null pointer in a map is `none`. -/
structure DetectState where
  /-- The record set of each address. -/
  globalRecordSetMap : OrderedMap Address (Option RecordSet)
  /-- The state of each address. -/
  rwMap : OrderedMap Address ℤ
  /-- The locks in common at each address. -/
  locksetMap : OrderedMap Address (Option LockSet)
  /-- The size of the block that was allocated last at an address. -/
  heapMap : OrderedMap Address ℤ
  /-- The number of warnings. -/
  warningCount : ℕ

/-- The state before the first record. -/
def DetectState.init : DetectState :=
  ⟨OrderedMap.empty, OrderedMap.empty, OrderedMap.empty, OrderedMap.empty, 0⟩

/-- A call of `report_error`: the number of the warning, the address, and the accesses printed. -/
structure Report where
  /-- The number of the warning. -/
  warning : ℕ
  /-- The address it is about. -/
  memoryAddress : Address
  /-- The accesses it prints. -/
  recordSet : RecordSet

/-- The three values stored for an address. -/
structure Entry where
  /-- In `global_record_set_map`. -/
  recordSet : RecordSet
  /-- In `rw_map`. -/
  status : ℤ
  /-- In `lockset_map`. -/
  lockset : LockSet

/-- The three values are created if need be, and assigned. -/
def DetectState.setEntry (s : DetectState) (a : Address) (e : Entry) : DetectState :=
  { s with
    globalRecordSetMap := (s.globalRecordSetMap.insert a none).1.assign a (some e.recordSet)
    rwMap := (s.rwMap.insert a 0).1.assign a e.status
    locksetMap := (s.locksetMap.insert a none).1.assign a (some e.lockset) }

/-! ## The operations -/

/-- `report_error`: the warning counter and what is printed. -/
def reportError (s : DetectState) (recordSet : RecordSet) (memoryAddress : Address) :
    DetectState × Report :=
  ({ s with warningCount := s.warningCount + 1 },
    ⟨s.warningCount + 1, memoryAddress, recordSet⟩)

/-- What follows a call of `core_detection`: its results are stored, and reported if it asked. -/
def finishAccess (s : DetectState) (memoryAddress : Address) (res : CoreResult) :
    DetectState × Option Report :=
  let s' := s.setEntry memoryAddress ⟨res.recordSet, res.status, res.lockset⟩
  if res.willReport = true then
    let (s'', report) := reportError s' res.recordSet memoryAddress
    (s'', some report)
  else (s', none)

/-- The branch of `offline_detection` for memory accesses. -/
def detectAccess (s : DetectState) (record : Record) :
    Except Fault (DetectState × Option Report) :=
  let memoryAddress := record.memoryAccess.memoryAddress
  if memoryAddress = 0 then .ok (s, none)
  else
    let recordSetStatus := s.globalRecordSetMap.insert memoryAddress none
    let rwStatus := s.rwMap.insert memoryAddress 0
    let locksetStatus := s.locksetMap.insert memoryAddress none
    if rwStatus.2 = true then
      -- first access: both other insertions are asserted to be fresh as well
      if recordSetStatus.2 = true ∧ locksetStatus.2 = true then do
        let locks ← readLocks record
        return (s.setEntry memoryAddress
          ⟨OrderedSet.empty.insert record, record.memoryAccess.isWrite, locks⟩, none)
      else .error .offlineAssertion
    else
      match recordSetStatus.1.find? memoryAddress, rwStatus.1.find? memoryAddress,
        locksetStatus.1.find? memoryAddress with
      | some (some recordSet), some status, some (some lockset) => do
        let res ← coreDetection record recordSet status lockset
        return finishAccess s memoryAddress res
      | _, _, _ => .error .nullPointer

/-- `delete_map_entries`: the same erasing loop on each of the three maps. -/
def deleteMapEntries (s : DetectState) (startAddress endAddress : Address) :
    Except Fault DetectState :=
  match s.locksetMap.eraseRange (s.locksetMap.lowerBound startAddress)
      (s.locksetMap.lowerBound endAddress) with
  | none => .error .eraseLoop
  | some locksetMap =>
    match s.globalRecordSetMap.eraseRange (s.globalRecordSetMap.lowerBound startAddress)
        (s.globalRecordSetMap.lowerBound endAddress) with
    | none => .error .eraseLoop
    | some globalRecordSetMap =>
      match s.rwMap.eraseRange (s.rwMap.lowerBound startAddress)
          (s.rwMap.lowerBound endAddress) with
      | none => .error .eraseLoop
      | some rwMap => .ok { s with locksetMap, globalRecordSetMap, rwMap }

/-- `heap_map[a]` as a value: the lookup creates the entry when it is missing. -/
def heapSize (s : DetectState) (a : Address) : DetectState × ℤ :=
  let heapMap := (s.heapMap.insert a 0).1
  ({ s with heapMap }, (heapMap.find? a).getD 0)

/-- The branch of `offline_detection` for allocations and releases. -/
def detectAlloc (enableMemoryReuse : Bool) (s : DetectState) (op : MemAllocOp) :
    Except Fault DetectState :=
  if enableMemoryReuse = true then
    if op.isAlloc ≠ 0 then
      .ok { s with
        heapMap := (s.heapMap.insert op.startAddress 0).1.assign op.startAddress op.size }
    else if op.startAddress = 0 then .ok s
    else if op.size = 0 then
      let (s', size) := heapSize s op.startAddress
      if size = 0 then .ok s'
      else deleteMapEntries s' op.startAddress (op.startAddress + BitVec.ofInt 64 size)
    else deleteMapEntries s op.startAddress (op.startAddress + BitVec.ofInt 64 op.size)
  else .ok s

/-- `offline_detection`: the next state, and the report if there is one. -/
def offlineDetection (enableMemoryReuse : Bool) (s : DetectState) (record : Record) :
    Except Fault (DetectState × Option Report) :=
  match record.type with
  | .memoryOp => detectAccess s record
  | .memoryAlloc => do
    let s' ← detectAlloc enableMemoryReuse s record.memAllocOp
    return (s', none)
  | _ => .ok (s, none)

/-! ## The joint view of the three maps -/

namespace DetectState

/-- The three maps agree that `a` has no entry, or on the entry it has. -/
def EntryIs (s : DetectState) (a : Address) : Option Entry → Prop
  | none => s.globalRecordSetMap.find? a = none ∧ s.rwMap.find? a = none
      ∧ s.locksetMap.find? a = none
  | some e => s.globalRecordSetMap.find? a = some (some e.recordSet)
      ∧ s.rwMap.find? a = some e.status ∧ s.locksetMap.find? a = some (some e.lockset)

/-- The three maps agree everywhere, and hold no null pointer. -/
def InStep (s : DetectState) : Prop := ∀ a, ∃ o, s.EntryIs a o

/-- The address has an entry. -/
def HasEntry (s : DetectState) (a : Address) : Prop := (s.rwMap.find? a).isSome = true

instance (s : DetectState) (a : Address) : Decidable (s.HasEntry a) :=
  inferInstanceAs (Decidable (_ = true))

variable {s s' : DetectState} {a b : Address} {o : Option Entry} {e : Entry}

theorem EntryIs.hasEntry_iff (h : s.EntryIs a o) : s.HasEntry a ↔ o.isSome = true := by
  cases o with
  | none => simp [HasEntry, h.2.1]
  | some e => simp [HasEntry, h.2.1]

theorem EntryIs.unique {o' : Option Entry} (h : s.EntryIs a o) (h' : s.EntryIs a o') : o = o' := by
  cases o with
  | none =>
    cases o' with
    | none => rfl
    | some e' => exact absurd (h.2.1.symm.trans h'.2.1) (by simp)
  | some e =>
    cases o' with
    | none => exact absurd (h.2.1.symm.trans h'.2.1) (by simp)
    | some e' =>
      obtain ⟨h₁, h₂, h₃⟩ := h
      obtain ⟨h₁', h₂', h₃'⟩ := h'
      have hrec := Option.some.inj (Option.some.inj (h₁.symm.trans h₁'))
      have hstatus := Option.some.inj (h₂.symm.trans h₂')
      have hlock := Option.some.inj (Option.some.inj (h₃.symm.trans h₃'))
      cases e; cases e'
      simp_all

@[simp] theorem entryIs_init (a : Address) : init.EntryIs a none := ⟨rfl, rfl, rfl⟩

@[simp] theorem entryIs_setEntry_self (s : DetectState) (a : Address) (e : Entry) :
    (s.setEntry a e).EntryIs a (some e) := by
  simp [EntryIs, setEntry]

private theorem entryIs_setEntry_of_ne (h : s.EntryIs b o) (hb : b ≠ a) :
    (s.setEntry a e).EntryIs b o := by
  cases o <;>
    simpa [EntryIs, setEntry, hb] using h

theorem EntryIs.of_eq (h : s.EntryIs a o) (h₁ : s'.globalRecordSetMap = s.globalRecordSetMap)
    (h₂ : s'.rwMap = s.rwMap) (h₃ : s'.locksetMap = s.locksetMap) : s'.EntryIs a o := by
  cases o <;> simpa [EntryIs, h₁, h₂, h₃] using h

end DetectState

open DetectState

section Steps

variable {s s' : DetectState} {record : Record} {a : Address} {e : Entry}

/-! ## Accesses -/

theorem detectAccess_zero (h : record.memoryAccess.memoryAddress = 0) :
    detectAccess s record = .ok (s, none) := by
  rw [detectAccess, if_pos h]

theorem detectAccess_of_none (ha : record.memoryAccess.memoryAddress ≠ 0)
    (h : s.EntryIs record.memoryAccess.memoryAddress none) :
    detectAccess s record = do
      let locks ← readLocks record
      return (s.setEntry record.memoryAccess.memoryAddress
        ⟨OrderedSet.empty.insert record, record.memoryAccess.isWrite, locks⟩, none) := by
  obtain ⟨h₁, h₂, h₃⟩ := h
  rw [detectAccess, if_neg ha]
  simp [h₁, h₂, h₃]

theorem detectAccess_of_some (ha : record.memoryAccess.memoryAddress ≠ 0)
    (h : s.EntryIs record.memoryAccess.memoryAddress (some e)) :
    detectAccess s record = do
      let res ← coreDetection record e.recordSet e.status e.lockset
      return finishAccess s record.memoryAccess.memoryAddress res := by
  obtain ⟨h₁, h₂, h₃⟩ := h
  rw [detectAccess, if_neg ha]
  simp [h₁, h₂, h₃]

theorem entryIs_finishAccess_self (s : DetectState) (a : Address) (res : CoreResult) :
    (finishAccess s a res).1.EntryIs a (some ⟨res.recordSet, res.status, res.lockset⟩) := by
  rw [finishAccess]
  split_ifs
  · exact (entryIs_setEntry_self s a _).of_eq rfl rfl rfl
  · exact entryIs_setEntry_self s a _

private theorem entryIs_finishAccess_of_ne {b : Address} {o : Option Entry} {res : CoreResult}
    (h : s.EntryIs b o) (hb : b ≠ a) : (finishAccess s a res).1.EntryIs b o := by
  rw [finishAccess]
  split_ifs
  · exact (entryIs_setEntry_of_ne h hb).of_eq rfl rfl rfl
  · exact entryIs_setEntry_of_ne h hb

theorem finishAccess_snd (s : DetectState) (a : Address) (res : CoreResult) :
    (finishAccess s a res).2
      = if res.willReport = true then some ⟨s.warningCount + 1, a, res.recordSet⟩ else none := by
  rw [finishAccess]
  split_ifs <;> rfl

/-! ## Releases -/

/-- What the three loops do when all of them are defined. -/
theorem deleteMapEntries_eq_ok {lo hi : Address} (h : deleteMapEntries s lo hi = .ok s') :
    ∃ locks records statuses,
      s.locksetMap.eraseRange (s.locksetMap.lowerBound lo) (s.locksetMap.lowerBound hi) = some locks
        ∧ s.globalRecordSetMap.eraseRange (s.globalRecordSetMap.lowerBound lo)
          (s.globalRecordSetMap.lowerBound hi) = some records
        ∧ s.rwMap.eraseRange (s.rwMap.lowerBound lo) (s.rwMap.lowerBound hi) = some statuses
        ∧ s' = { s with
          locksetMap := locks
          globalRecordSetMap := records
          rwMap := statuses } := by
  rw [deleteMapEntries] at h
  split at h
  · exact absurd h (by simp)
  rename_i locks hlocks
  split at h
  · exact absurd h (by simp)
  rename_i records hrecords
  split at h
  · exact absurd h (by simp)
  rename_i statuses hstatuses
  exact ⟨locks, records, statuses, hlocks, hrecords, hstatuses, (Except.ok.inj h).symm⟩

/-- **Range deletion.** Whenever the three loops are defined, exactly the entries of the range are
gone from the joint view. -/
theorem entryIs_deleteMapEntries {lo hi : Address} {o : Option Entry}
    (h : deleteMapEntries s lo hi = .ok s') (ho : s.EntryIs a o) :
    s'.EntryIs a (if lo ≤ a ∧ a < hi then none else o) := by
  obtain ⟨locks, records, statuses, hlocks, hrecords, hstatuses, rfl⟩ := deleteMapEntries_eq_ok h
  have h₁ := OrderedMap.find?_eraseRange hrecords a
  have h₂ := OrderedMap.find?_eraseRange hstatuses a
  have h₃ := OrderedMap.find?_eraseRange hlocks a
  split_ifs with hrange
  · rw [if_pos hrange] at h₁ h₂ h₃
    exact ⟨h₁, h₂, h₃⟩
  · rw [if_neg hrange] at h₁ h₂ h₃
    cases o <;> simpa [EntryIs, h₁, h₂, h₃] using ho

theorem exists_deleteMapEntries (s : DetectState) {lo hi : Address} (h : lo ≤ hi) :
    ∃ s', deleteMapEntries s lo hi = .ok s' := by
  obtain ⟨locks, hlocks⟩ := s.locksetMap.exists_eraseRange h
  obtain ⟨records, hrecords⟩ := s.globalRecordSetMap.exists_eraseRange h
  obtain ⟨statuses, hstatuses⟩ := s.rwMap.exists_eraseRange h
  rw [deleteMapEntries, hlocks, hrecords, hstatuses]
  exact ⟨_, rfl⟩

private theorem deleteMapEntries_error {lo hi : Address} {f : Fault}
    (h : deleteMapEntries s lo hi = .error f) : f = .eraseLoop := by
  rw [deleteMapEntries] at h
  repeat' split at h
  all_goals first
    | (cases h; rfl)
    | cases h

/-- The addresses a release makes the detector forget. -/
def Releases (enableMemoryReuse : Bool) (s : DetectState) (op : MemAllocOp) (a : Address) : Prop :=
  let size := if op.size = 0 then (heapSize s op.startAddress).2 else op.size
  enableMemoryReuse = true ∧ op.isAlloc = 0 ∧ op.startAddress ≠ 0 ∧ size ≠ 0
    ∧ op.startAddress ≤ a ∧ a < op.startAddress + BitVec.ofInt 64 size

instance (enableMemoryReuse : Bool) (s : DetectState) (op : MemAllocOp) (a : Address) :
    Decidable (Releases enableMemoryReuse s op a) := inferInstanceAs (Decidable (_ ∧ _))

theorem entryIs_detectAlloc {reuse : Bool} {op : MemAllocOp} {o : Option Entry}
    (h : detectAlloc reuse s op = .ok s') (ho : s.EntryIs a o) :
    s'.EntryIs a (if Releases reuse s op a then none else o) := by
  rw [detectAlloc] at h
  split_ifs at h with hreuse halloc hzero hsize
  · obtain rfl := Except.ok.inj h
    rw [if_neg fun hrel : Releases reuse s op a ↦ halloc hrel.2.1]
    exact ho.of_eq rfl rfl rfl
  · obtain rfl := Except.ok.inj h
    rwa [if_neg fun hrel : Releases reuse s op a ↦ hrel.2.2.1 hzero]
  · -- the size comes from the map of allocations
    have ho' : (heapSize s op.startAddress).1.EntryIs a o := ho.of_eq rfl rfl rfl
    simp only at h
    split_ifs at h with hheap
    · obtain rfl := Except.ok.inj h
      rwa [if_neg fun hrel : Releases reuse s op a ↦ hrel.2.2.2.1 (by rw [if_pos hsize, hheap])]
    · have hdel := entryIs_deleteMapEntries h ho'
      simp only [Releases, hreuse, not_not.mp halloc, hsize, if_true, ne_eq, hzero,
        not_false_eq_true, hheap, true_and]
      exact hdel
  · have hdel := entryIs_deleteMapEntries h ho
    simp only [Releases, hreuse, not_not.mp halloc, hsize, if_false, ne_eq, hzero,
      not_false_eq_true, true_and]
    exact hdel
  · obtain rfl := Except.ok.inj h
    rwa [if_neg fun hrel : Releases reuse s op a ↦ hreuse hrel.1]

theorem detectAlloc_error {reuse : Bool} {op : MemAllocOp} {f : Fault}
    (h : detectAlloc reuse s op = .error f) : f = .eraseLoop ∧ reuse = true := by
  rw [detectAlloc] at h
  split_ifs at h with hreuse
  · simp only at h
    split_ifs at h
    exact ⟨deleteMapEntries_error h, hreuse⟩
  · exact ⟨deleteMapEntries_error h, hreuse⟩

theorem exists_detectAlloc (reuse : Bool) {op : MemAllocOp}
    (hle : op.startAddress ≤ op.startAddress + BitVec.ofInt 64
      (if op.size = 0 then (heapSize s op.startAddress).2 else op.size)) :
    ∃ s', detectAlloc reuse s op = .ok s' := by
  rw [detectAlloc]
  split_ifs with hreuse halloc hzero hsize
  · exact ⟨_, rfl⟩
  · exact ⟨_, rfl⟩
  · simp only
    split_ifs with hheap
    · exact ⟨_, rfl⟩
    · rw [if_pos hsize] at hle
      exact exists_deleteMapEntries _ hle
  · rw [if_neg hsize] at hle
    exact exists_deleteMapEntries _ hle
  · exact ⟨_, rfl⟩

end Steps

/-! ## What one record does to one address

Every invariant of the detector is about single addresses, and one record can do four things to an
address: nothing, create its entry, run `core_detection` on its entry, or release it. -/

/-- The record is a memory access at the address. -/
def Record.AccessAt (r : Record) (a : Address) : Prop :=
  r.type = .memoryOp ∧ r.memoryAccess.memoryAddress = a

instance (r : Record) (a : Address) : Decidable (r.AccessAt a) :=
  inferInstanceAs (Decidable (_ ∧ _))

/-- The ways the entry of `a` can change when `record` is processed in the state `s`. -/
inductive Effect (reuse : Bool) (s : DetectState) (record : Record) (report : Option Report)
    (a : Address) : Option Entry → Option Entry → Prop
  | unchanged {o : Option Entry} (hacc : record.AccessAt a → a = 0)
      (hrel : record.type = .memoryAlloc → ¬Releases reuse s record.memAllocOp a)
      (hrep : ∀ rep, report = some rep → rep.memoryAddress ≠ a) : Effect reuse s record report a o o
  | created (hacc : record.AccessAt a) (ha : a ≠ 0) (hcount : record.memoryAccess.lockCount ≤ 10)
      (hrep : report = none) :
      Effect reuse s record report a none
        (some ⟨OrderedSet.empty.insert record, record.memoryAccess.isWrite,
          record.memoryAccess.locks.toFinset⟩)
  | accessed {e : Entry} {res : CoreResult} (hacc : record.AccessAt a) (ha : a ≠ 0)
      (hres : coreDetection record e.recordSet e.status e.lockset = .ok res)
      (hrep : report
        = if res.willReport = true then some ⟨s.warningCount + 1, a, res.recordSet⟩ else none) :
      Effect reuse s record report a (some e) (some ⟨res.recordSet, res.status, res.lockset⟩)
  | released {o : Option Entry} (htype : record.type = .memoryAlloc)
      (hrel : Releases reuse s record.memAllocOp a) (hrep : report = none) :
      Effect reuse s record report a o none

section Effect

variable {reuse : Bool} {s s' : DetectState} {record : Record} {report : Option Report}
  {a : Address} {o : Option Entry}

private theorem exists_effect_of_access (hs : s.InStep) (htype : record.type = .memoryOp)
    (h : detectAccess s record = .ok (s', report)) (ho : s.EntryIs a o) :
    ∃ o', s'.EntryIs a o' ∧ Effect reuse s record report a o o' := by
  set b := record.memoryAccess.memoryAddress with hb
  have hnot : record.type = .memoryAlloc → ¬Releases reuse s record.memAllocOp a := by
    rw [htype]
    exact nofun
  by_cases hzero : b = 0
  · rw [detectAccess_zero hzero] at h
    cases h
    exact ⟨o, ho, .unchanged (fun hacc ↦ hacc.2.symm.trans hzero) hnot nofun⟩
  obtain ⟨o₀, ho₀⟩ := hs b
  cases o₀ with
  | none =>
    rw [detectAccess_of_none hzero ho₀, Run.bind_eq_ok] at h
    obtain ⟨locks, hlocks, h⟩ := h
    cases h
    rw [readLocks] at hlocks
    split_ifs at hlocks with hcount
    obtain rfl := Except.ok.inj hlocks
    by_cases hab : a = b
    · subst hab
      rw [ho.unique ho₀]
      exact ⟨_, entryIs_setEntry_self s b _, .created ⟨htype, rfl⟩ hzero (not_lt.mp hcount) rfl⟩
    · exact ⟨o, entryIs_setEntry_of_ne ho hab,
        .unchanged (fun hacc ↦ absurd hacc.2.symm hab) hnot nofun⟩
  | some e =>
    rw [detectAccess_of_some hzero ho₀, Run.bind_eq_ok] at h
    obtain ⟨res, hres, h⟩ := h
    have hpair : finishAccess s b res = (s', report) := Except.ok.inj h
    have hs' : s' = (finishAccess s b res).1 := by rw [hpair]
    have hreport : report = (finishAccess s b res).2 := by rw [hpair]
    rw [finishAccess_snd] at hreport
    subst hs'
    by_cases hab : a = b
    · subst hab
      rw [ho.unique ho₀]
      exact ⟨_, entryIs_finishAccess_self s b res, .accessed ⟨htype, rfl⟩ hzero hres hreport⟩
    · refine ⟨o, entryIs_finishAccess_of_ne ho hab,
        .unchanged (fun hacc ↦ absurd hacc.2.symm hab) hnot fun rep hrep heq ↦ hab ?_⟩
      rw [hreport] at hrep
      split_ifs at hrep
      obtain rfl := Option.some.inj hrep
      exact heq.symm

/-- **What one record does.** -/
theorem exists_effect (hs : s.InStep) (h : offlineDetection reuse s record = .ok (s', report))
    (ho : s.EntryIs a o) : ∃ o', s'.EntryIs a o' ∧ Effect reuse s record report a o o' := by
  rw [offlineDetection] at h
  split at h
  · rename_i htype
    exact exists_effect_of_access hs htype h ho
  · rename_i htype
    rw [Run.bind_eq_ok] at h
    obtain ⟨s₀, hs₀, h⟩ := h
    cases h
    have ho' := entryIs_detectAlloc hs₀ ho
    have hacc : ¬record.AccessAt a := by
      intro hacc
      rw [hacc.1] at htype
      exact absurd htype (by simp)
    split_ifs at ho' with hrel
    · exact ⟨none, ho', .released htype hrel rfl⟩
    · exact ⟨o, ho', .unchanged (fun h ↦ absurd h hacc) (fun _ ↦ hrel) nofun⟩
  · rename_i hop halloc
    cases h
    exact ⟨o, ho, .unchanged (fun hacc ↦ absurd hacc.1 hop) (fun h ↦ absurd h halloc) nofun⟩

end Effect

end Racez
