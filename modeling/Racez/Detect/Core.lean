import Racez.Container.OrderedSet
import Racez.Eraser.Discipline
import Racez.Record.Basic

/-!
# The lockset state machine

`core_detection`, the step the detector takes at an access to an address it already knows. It holds
three things for the address: the record set, a status, and the candidate lockset. The status is
one of

```text
0  one thread, only reads          2  several threads, only reads
1  one thread, a write             3  several threads, a write
4  reported
```

The first four are the phases of `Discipline`; the function below is translated from the source
branch by branch, and `transition_spec` says that each branch keeps the record set an `Evidence` of
the history and moves the status to the phase of the extended history.

## Failures

An `assert` that fires, a read past the ten slots of a lockset array, a null pointer and an erasing
loop that runs past the end of a map all end the run, each with its own `Fault`.

## How a step is verified

The history of an address is the list of its accesses since its entry was created. It is not part of
the state; `Detect/Invariant` carries it along. Here a step is stated for any history for which the
record set is an `Evidence` and the status is that of its phase. A branch looks for the thread among
the records kept, and then there are three cases: the access is new to the set, it takes the place
of the thread's record, or it is ignored. `Evidence.insert`, `Evidence.replace` and `Evidence.keep`
of the library are these cases, so a branch is verified by saying which of them it is.

The record set is ordered by number and instruction address. An insertion is dropped if an
equivalent record is there, which is why equal numbers are required to mean equal threads.

At an address that has been reported nothing but the candidate lockset changes any more
(`coreDetection_reported`).
-/

open Container

namespace Racez

/-! ## Data -/

/-- The ways a run of the detector can go wrong. -/
inductive Fault
  /-- An `assert` of `core_detection`. -/
  | coreAssertion
  /-- An `assert` of `offline_detection`. -/
  | offlineAssertion
  /-- A read of `lockset_[i]` with `i ≥ 10`. -/
  | outOfBounds
  /-- A null record set or lockset. -/
  | nullPointer
  /-- An erasing loop that runs past the end of its map. -/
  | eraseLoop
  deriving DecidableEq

/-- `INDEX_IP_SET`: the records kept for an address. -/
abbrev RecordSet := OrderedSet Record.lt

/-- The candidate lockset of an address. Its order is never observed. -/
abbrev LockSet := Finset Address

/-- The set of the first `lock_count_` locks of a record. -/
def readLocks (record : Record) : Except Fault LockSet :=
  if 10 < record.memoryAccess.lockCount then .error .outOfBounds
  else .ok record.memoryAccess.locks.toFinset

/-- The iterator to the first record of a thread, past the end when there is none. -/
def setIncludesThreadId (recordSet : RecordSet) (threadId : ℤ) : ℕ :=
  recordSet.elems.findIdx fun r ↦ r.threadId = threadId

/-! ## The five states -/

/-- What a state leaves behind: the record set, the next status, and `may_report`. -/
structure Transition where
  /-- The record set after the access. -/
  recordSet : RecordSet
  /-- The new state. -/
  status : ℤ
  /-- `may_report`. -/
  mayReport : Bool
  deriving DecidableEq

/-- State 0: one thread, only reads. -/
def exclusiveRead (cur : Record) (recordSet : RecordSet) : Transition :=
  let iter := setIncludesThreadId recordSet cur.threadId
  match recordSet.get? iter with
  | none =>
    if cur.memoryAccess.isWrite = 1 then ⟨recordSet.insert cur, 3, true⟩
    else ⟨recordSet.insert cur, 2, false⟩
  | some _ =>
    ⟨(recordSet.eraseAt iter).insert cur, if cur.memoryAccess.isWrite = 1 then 1 else 0, false⟩

/-- State 1: one thread, a write. Only a write replaces the record kept. -/
def exclusiveWrite (cur : Record) (recordSet : RecordSet) : Transition :=
  let iter := setIncludesThreadId recordSet cur.threadId
  match recordSet.get? iter with
  | none => ⟨recordSet.insert cur, 3, true⟩
  | some _ =>
    if cur.memoryAccess.isWrite = 1 then ⟨(recordSet.eraseAt iter).insert cur, 1, false⟩
    else ⟨recordSet, 1, false⟩

/-- State 2: several threads, only reads. -/
def sharedRead (cur : Record) (recordSet : RecordSet) : Transition :=
  let iter := setIncludesThreadId recordSet cur.threadId
  let next := match recordSet.get? iter with
    | none => recordSet.insert cur
    | some _ => (recordSet.eraseAt iter).insert cur
  if cur.memoryAccess.isWrite = 1 then ⟨next, 3, true⟩ else ⟨next, 2, false⟩

/-- State 3: several threads, a write. A new thread is recorded without a check of the lockset. -/
def sharedModified (cur : Record) (recordSet : RecordSet) : Transition :=
  let iter := setIncludesThreadId recordSet cur.threadId
  match recordSet.get? iter with
  | none => ⟨recordSet.insert cur, 3, false⟩
  | some old =>
    if cur.memoryAccess.isWrite = 1
        ∨ (old.memoryAccess.isWrite = 0 ∧ cur.memoryAccess.isWrite = 1) then
      ⟨(recordSet.eraseAt iter).insert cur, 3, true⟩
    else ⟨recordSet, 3, true⟩

/-- The `switch` on the status, with the assertion each case starts with. -/
def transition (cur : Record) (recordSet : RecordSet) (status : ℤ) : Except Fault Transition :=
  if status = 0 then
    if recordSet.size = 1 then .ok (exclusiveRead cur recordSet) else .error .coreAssertion
  else if status = 1 then
    if recordSet.size = 1 then .ok (exclusiveWrite cur recordSet) else .error .coreAssertion
  else if status = 2 then
    if 1 < recordSet.size then .ok (sharedRead cur recordSet) else .error .coreAssertion
  else if status = 3 then
    if 1 < recordSet.size then .ok (sharedModified cur recordSet) else .error .coreAssertion
  else if status = 4 then
    -- the branch that would look at later accesses is disabled
    if 1 < recordSet.size then .ok ⟨recordSet, 4, false⟩ else .error .coreAssertion
  else .error .coreAssertion

/-- What `core_detection` returns and leaves in its three out-parameters. -/
structure CoreResult where
  /-- The result of the function. -/
  willReport : Bool
  /-- The record set. -/
  recordSet : RecordSet
  /-- The state. -/
  status : ℤ
  /-- The locks all accesses have in common. -/
  lockset : LockSet
  deriving DecidableEq

/-- The end of `core_detection`: the lockset is intersected, and checked if the state asked. -/
def checkLockset (t : Transition) (lockset : LockSet) : CoreResult :=
  if t.mayReport = true ∧ t.status = 3 ∧ lockset = ∅ then ⟨true, t.recordSet, 4, lockset⟩
  else ⟨false, t.recordSet, t.status, lockset⟩

/-- `core_detection`. -/
def coreDetection (cur : Record) (recordSet : RecordSet) (status : ℤ) (lockset : LockSet) :
    Except Fault CoreResult := do
  let t ← transition cur recordSet status
  let tempSet ← readLocks cur
  return checkLockset t (lockset ∩ tempSet)

/-! ## Accesses as a discipline -/

/-- The observations of the lockset method on log records. -/
def accessDiscipline : Discipline Record ℤ Address where
  thread r := r.threadId
  write r := r.memoryAccess.isWrite = 1
  locks r := r.memoryAccess.locks.toFinset

/-- The status that stands for a phase. -/
def statusOf : Discipline.Phase → ℤ
  | .exclusiveRead => 0
  | .exclusiveWrite => 1
  | .sharedRead => 2
  | .sharedModified => 3

section Evidence

open Discipline

variable {H : List Record} {cur : Record} {S : RecordSet}

@[simp] theorem thread_accessDiscipline (r : Record) : accessDiscipline.thread r = r.threadId := rfl

@[simp] theorem write_accessDiscipline (r : Record) :
    accessDiscipline.write r = true ↔ r.memoryAccess.isWrite = 1 := by
  simp [accessDiscipline]

@[simp] theorem write_accessDiscipline_eq_false (r : Record) :
    accessDiscipline.write r = false ↔ r.memoryAccess.isWrite ≠ 1 := by
  simp [accessDiscipline]

/-! ## Finding a thread's record -/

private theorem get?_setIncludesThreadId (S : RecordSet) (t : ℤ) :
    S.get? (setIncludesThreadId S t) = S.elems.find? fun r ↦ r.threadId = t :=
  List.find?_eq_getElem?_findIdx.symm

theorem get?_eq_none_of_notMem (hE : accessDiscipline.Evidence H S.elems)
    (h : cur.threadId ∉ accessDiscipline.threads H) :
    S.get? (setIncludesThreadId S cur.threadId) = none := by
  rw [get?_setIncludesThreadId, List.find?_eq_none]
  intro r hr hthread
  exact h ((hE.mem_iff _).mp (List.mem_map.mpr ⟨r, hr, of_decide_eq_true hthread⟩))

theorem exists_get?_of_mem (hE : accessDiscipline.Evidence H S.elems)
    (h : cur.threadId ∈ accessDiscipline.threads H) :
    ∃ old, S.get? (setIncludesThreadId S cur.threadId) = some old
      ∧ old.threadId = cur.threadId := by
  obtain ⟨r, hr, hthread⟩ := List.mem_map.mp ((hE.mem_iff _).mpr h)
  have hsome : (S.elems.find? fun r ↦ r.threadId = cur.threadId).isSome := by
    rw [List.find?_isSome]
    exact ⟨r, hr, decide_eq_true hthread⟩
  obtain ⟨old, hold⟩ := Option.isSome_iff_exists.mp hsome
  have hthread' := List.find?_some hold
  exact ⟨old, by rw [get?_setIncludesThreadId, hold], of_decide_eq_true hthread'⟩

/-! ## The record set stays evidence

The record set is ordered by number and instruction, so that an insertion is dropped when an
equivalent record is present, while it has to be unique by thread. The two meet in the assumption
that equal numbers mean equal threads: a record of another thread is never equivalent. -/

private theorem not_equivalent_of_thread_ne {r : Record}
    (hno : r.recordNo = cur.recordNo → r.threadId = cur.threadId)
    (h : r.threadId ≠ cur.threadId) : ¬Equivalent Record.lt cur r := by
  intro heq
  have hnumber : cur.recordNo = r.recordNo := (Record.not_lt_and_not_lt_iff.mp heq).1
  exact h (hno hnumber.symm)

theorem elems_insert_of_new (hE : accessDiscipline.Evidence H S.elems)
    (hno : ∀ r ∈ H, r.recordNo = cur.recordNo → r.threadId = cur.threadId)
    (h : cur.threadId ∉ accessDiscipline.threads H) :
    (S.insert cur).elems.Perm (cur :: S.elems) := by
  refine OrderedSet.elems_insert_perm ?_
  intro r hr
  refine not_equivalent_of_thread_ne (hno r (hE.subset r hr)) fun hthread ↦ h ?_
  exact hthread ▸ (hE.mem_iff _).mp (List.mem_map_of_mem hr)

theorem elems_insert_of_replace (hE : accessDiscipline.Evidence H S.elems)
    (hno : ∀ r ∈ H, r.recordNo = cur.recordNo → r.threadId = cur.threadId)
    {i : ℕ} {old : Record} (hold : S.get? i = some old) (hthread : old.threadId = cur.threadId) :
    ((S.eraseAt i).insert cur).elems.Perm (cur :: (S.eraseAt i).elems) := by
  have hE' := hE.perm (OrderedSet.elems_perm_of_get? hold).symm
  refine OrderedSet.elems_insert_perm ?_
  intro r hr
  refine not_equivalent_of_thread_ne (hno r (hE'.subset r (List.mem_cons_of_mem old hr))) ?_
  -- what is left after the removal belongs to other threads
  intro heq
  have hnot := (List.nodup_cons.mp hE'.nodup).1
  exact hnot (List.mem_map.mpr ⟨r, hr, heq.trans hthread.symm⟩)

private theorem evidence_insert (hE : accessDiscipline.Evidence H S.elems)
    (hno : ∀ r ∈ H, r.recordNo = cur.recordNo → r.threadId = cur.threadId)
    (h : cur.threadId ∉ accessDiscipline.threads H) :
    accessDiscipline.Evidence (H ++ [cur]) (S.insert cur).elems :=
  (hE.insert h).perm (elems_insert_of_new hE hno h)

private theorem evidence_replace (hE : accessDiscipline.Evidence H S.elems)
    (hno : ∀ r ∈ H, r.recordNo = cur.recordNo → r.threadId = cur.threadId)
    {i : ℕ} {old : Record} (hold : S.get? i = some old) (hthread : old.threadId = cur.threadId)
    (hw : accessDiscipline.write cur = true
      ∨ accessDiscipline.latestWrite H cur.threadId = none) :
    accessDiscipline.Evidence (H ++ [cur]) ((S.eraseAt i).insert cur).elems := by
  have hE' := hE.perm (OrderedSet.elems_perm_of_get? hold).symm
  exact (hE'.replace hthread hw).perm (elems_insert_of_replace hE hno hold hthread)

/-! ## One transition -/

/-- What a transition from the phase of `H` has to achieve at the access `cur`. -/
structure TransitionSpec (H : List Record) (cur : Record) (t : Transition) : Prop where
  /-- The record set represents the extended history. -/
  evidence : accessDiscipline.Evidence (H ++ [cur]) t.recordSet.elems
  /-- The status is the phase of the extended history. -/
  status : t.status = statusOf (accessDiscipline.phase (H ++ [cur]))
  /-- The lockset is checked exactly when the location is shared and modified, except when a new
  thread comes to a location that was so before. -/
  mayReport : t.mayReport = true ↔
    (accessDiscipline.Shared (H ++ [cur]) ∧ accessDiscipline.HasWrite (H ++ [cur]))
      ∧ (accessDiscipline.Shared H → accessDiscipline.HasWrite H →
          cur.threadId ∈ accessDiscipline.threads H)

section Steps

variable (hE : accessDiscipline.Evidence H S.elems)
  (hno : ∀ r ∈ H, r.recordNo = cur.recordNo → r.threadId = cur.threadId)

include hE hno

private theorem exclusiveRead_spec (hH : H ≠ []) (hs : ¬accessDiscipline.Shared H)
    (hw : ¬accessDiscipline.HasWrite H) : TransitionSpec H cur (exclusiveRead cur S) := by
  by_cases hmem : cur.threadId ∈ accessDiscipline.threads H
  · obtain ⟨old, hold, hthread⟩ := exists_get?_of_mem hE hmem
    have hshared : ¬accessDiscipline.Shared (H ++ [cur]) := by rwa [shared_append_of_mem hmem]
    have hev := evidence_replace hE hno hold hthread (Or.inr (latestWrite_eq_none hw _))
    simp only [exclusiveRead, hold]
    refine ⟨hev, ?_, ?_⟩
    · by_cases hcur : cur.memoryAccess.isWrite = 1 <;>
        simp [phase, hshared, hasWrite_append_singleton, hw, hcur, statusOf]
    · simp [hshared]
  · have hnone := get?_eq_none_of_notMem hE hmem
    have hshared : accessDiscipline.Shared (H ++ [cur]) := shared_append_of_new hH hmem
    have hev := evidence_insert hE hno hmem
    by_cases hcur : cur.memoryAccess.isWrite = 1
    · simp only [exclusiveRead, hnone, hcur, if_true]
      exact ⟨hev, by simp [phase, hshared, hasWrite_append_singleton, hcur, statusOf],
        by simp [hshared, hasWrite_append_singleton, hcur, hs]⟩
    · simp only [exclusiveRead, hnone, hcur, if_false]
      exact ⟨hev, by simp [phase, hshared, hasWrite_append_singleton, hcur, hw, statusOf],
        by simp [hasWrite_append_singleton, hcur, hw]⟩

private theorem exclusiveWrite_spec (hH : H ≠ []) (hs : ¬accessDiscipline.Shared H)
    (hw : accessDiscipline.HasWrite H) : TransitionSpec H cur (exclusiveWrite cur S) := by
  have hwrite : accessDiscipline.HasWrite (H ++ [cur]) := hasWrite_append_singleton.mpr (Or.inl hw)
  by_cases hmem : cur.threadId ∈ accessDiscipline.threads H
  · obtain ⟨old, hold, hthread⟩ := exists_get?_of_mem hE hmem
    have hshared : ¬accessDiscipline.Shared (H ++ [cur]) := by rwa [shared_append_of_mem hmem]
    by_cases hcur : cur.memoryAccess.isWrite = 1
    · simp only [exclusiveWrite, hold, hcur, if_true]
      exact ⟨evidence_replace hE hno hold hthread (Or.inl (by simpa using hcur)),
        by simp [phase, hshared, hwrite, statusOf], by simp [hshared]⟩
    · simp only [exclusiveWrite, hold, hcur, if_false]
      exact ⟨hE.keep hmem (by simpa using hcur), by simp [phase, hshared, hwrite, statusOf],
        by simp [hshared]⟩
  · have hnone := get?_eq_none_of_notMem hE hmem
    have hshared : accessDiscipline.Shared (H ++ [cur]) := shared_append_of_new hH hmem
    simp only [exclusiveWrite, hnone]
    exact ⟨evidence_insert hE hno hmem, by simp [phase, hshared, hwrite, statusOf],
      by simp [hshared, hwrite, hs]⟩

private theorem sharedRead_spec (hs : accessDiscipline.Shared H)
    (hw : ¬accessDiscipline.HasWrite H) : TransitionSpec H cur (sharedRead cur S) := by
  have hshared : accessDiscipline.Shared (H ++ [cur]) := hs.append
  -- both branches leave evidence; the status depends only on the kind of the access
  have hev : accessDiscipline.Evidence (H ++ [cur])
      (match S.get? (setIncludesThreadId S cur.threadId) with
        | none => S.insert cur
        | some _ => (S.eraseAt (setIncludesThreadId S cur.threadId)).insert cur).elems := by
    by_cases hmem : cur.threadId ∈ accessDiscipline.threads H
    · obtain ⟨old, hold, hthread⟩ := exists_get?_of_mem hE hmem
      rw [hold]
      exact evidence_replace hE hno hold hthread (Or.inr (latestWrite_eq_none hw _))
    · rw [get?_eq_none_of_notMem hE hmem]
      exact evidence_insert hE hno hmem
  by_cases hcur : cur.memoryAccess.isWrite = 1
  · simp only [sharedRead, hcur, if_true]
    exact ⟨hev, by simp [phase, hshared, hasWrite_append_singleton, hcur, statusOf],
      by simp [hshared, hasWrite_append_singleton, hcur, hw]⟩
  · simp only [sharedRead, hcur, if_false]
    exact ⟨hev, by simp [phase, hshared, hasWrite_append_singleton, hcur, hw, statusOf],
      by simp [hasWrite_append_singleton, hcur, hw]⟩

private theorem sharedModified_spec (hs : accessDiscipline.Shared H)
    (hw : accessDiscipline.HasWrite H) : TransitionSpec H cur (sharedModified cur S) := by
  have hshared : accessDiscipline.Shared (H ++ [cur]) := hs.append
  have hwrite : accessDiscipline.HasWrite (H ++ [cur]) := hasWrite_append_singleton.mpr (Or.inl hw)
  have hphase : (3 : ℤ) = statusOf (accessDiscipline.phase (H ++ [cur])) := by
    simp [phase, hshared, hwrite, statusOf]
  by_cases hmem : cur.threadId ∈ accessDiscipline.threads H
  · obtain ⟨old, hold, hthread⟩ := exists_get?_of_mem hE hmem
    by_cases hcur : cur.memoryAccess.isWrite = 1
    · simp only [sharedModified, hold, hcur, true_or, if_true]
      exact ⟨evidence_replace hE hno hold hthread (Or.inl (by simpa using hcur)), hphase,
        by simp [hshared, hwrite, hmem]⟩
    · simp only [sharedModified, hold, hcur, and_false, or_self, if_false]
      exact ⟨hE.keep hmem (by simpa using hcur), hphase, by simp [hshared, hwrite, hmem]⟩
  · simp only [sharedModified, get?_eq_none_of_notMem hE hmem]
    exact ⟨evidence_insert hE hno hmem, hphase, by simp [hs, hw, hmem]⟩

/-- **One transition.** From the phase of a history the switch never fires an assertion, and it
arrives in the phase of the extended history. -/
theorem transition_spec (hH : H ≠ []) :
    ∃ t, transition cur S (statusOf (accessDiscipline.phase H)) = .ok t
      ∧ TransitionSpec H cur t := by
  have hsize : S.size = (accessDiscipline.threads H).card := hE.length_eq
  have hpos : 0 < (accessDiscipline.threads H).card := by
    obtain ⟨x, hx⟩ := List.exists_mem_of_ne_nil H hH
    exact Finset.card_pos.mpr ⟨_, mem_threads.mpr ⟨x, hx, rfl⟩⟩
  by_cases hs : accessDiscipline.Shared H
  · have hgt : 1 < S.size := by rw [hsize]; exact hs
    by_cases hw : accessDiscipline.HasWrite H
    · refine ⟨_, ?_, sharedModified_spec hE hno hs hw⟩
      simp [transition, phase, hs, hw, statusOf, hgt]
    · refine ⟨_, ?_, sharedRead_spec hE hno hs hw⟩
      simp [transition, phase, hs, hw, statusOf, hgt]
  · have hone : S.size = 1 := by
      rw [Shared] at hs
      omega
    by_cases hw : accessDiscipline.HasWrite H
    · refine ⟨_, ?_, exclusiveWrite_spec hE hno hH hs hw⟩
      simp [transition, phase, hs, hw, statusOf, hone]
    · refine ⟨_, ?_, exclusiveRead_spec hE hno hH hs hw⟩
      simp [transition, phase, hs, hw, statusOf, hone]

/-! ## One call -/

/-- What a call of `core_detection` achieves at an address that has not been reported. -/
structure CoreSpec (H : List Record) (cur : Record) (res : CoreResult) : Prop where
  /-- The record set represents the extended history. -/
  evidence : accessDiscipline.Evidence (H ++ [cur]) res.recordSet.elems
  /-- The lockset is the intersection over the extended history. -/
  lockset : ∀ l, l ∈ res.lockset ↔ accessDiscipline.CommonLock (H ++ [cur]) l
  /-- The call asks for a report exactly at an alarm. -/
  willReport : res.willReport = true ↔ accessDiscipline.Alarm H cur
  /-- The status is the phase of the extended history, or `4` at a report. -/
  status : res.status
    = if res.willReport = true then 4 else statusOf (accessDiscipline.phase (H ++ [cur]))

theorem coreDetection_spec (hH : H ≠ []) {L : LockSet}
    (hL : ∀ l, l ∈ L ↔ accessDiscipline.CommonLock H l) (hcount : cur.memoryAccess.lockCount ≤ 10) :
    ∃ res, coreDetection cur S (statusOf (accessDiscipline.phase H)) L = .ok res
      ∧ CoreSpec H cur res := by
  obtain ⟨t, ht, hspec⟩ := transition_spec hE hno hH
  have hread : readLocks cur = .ok cur.memoryAccess.locks.toFinset := if_neg (not_lt.mpr hcount)
  have hL' : ∀ l, l ∈ L ∩ cur.memoryAccess.locks.toFinset
      ↔ accessDiscipline.CommonLock (H ++ [cur]) l := by
    intro l
    rw [Finset.mem_inter, hL, commonLock_append_singleton]
    rfl
  have hempty : L ∩ cur.memoryAccess.locks.toFinset = ∅
      ↔ ∀ l, ¬accessDiscipline.CommonLock (H ++ [cur]) l := by
    rw [Finset.eq_empty_iff_forall_notMem]
    exact forall_congr' fun l ↦ not_congr (hL' l)
  -- the extra test for status 3 is implied by `may_report`
  have hthree : t.mayReport = true → t.status = 3 := by
    intro hmay
    rw [hspec.status, phase_eq_sharedModified.mpr (hspec.mayReport.mp hmay).1]
    rfl
  refine ⟨checkLockset t (L ∩ cur.memoryAccess.locks.toFinset), ?_, ?_⟩
  · rw [coreDetection, ht, hread]
    rfl
  · rw [checkLockset]
    split_ifs with hcase
    · refine ⟨hspec.evidence, hL', ?_, by simp⟩
      obtain ⟨⟨hs, hw⟩, hnew⟩ := hspec.mayReport.mp hcase.1
      simpa [Alarm, Racy, hs, hw] using ⟨hempty.mp hcase.2.2, fun h₁ h₂ ↦ hnew h₁ h₂⟩
    · refine ⟨hspec.evidence, hL', ?_, by simpa using hspec.status⟩
      refine ⟨fun h ↦ absurd h (by simp), ?_⟩
      intro halarm
      have hmay := hspec.mayReport.mpr ⟨⟨halarm.1.1, halarm.1.2.1⟩, halarm.2⟩
      exact absurd ⟨hmay, hthree hmay, hempty.mpr halarm.1.2.2⟩ hcase

omit hE hno in
/-- At a reported address the record set is frozen and only the lockset goes on shrinking. -/
theorem coreDetection_reported (hsize : 1 < S.size) {L : LockSet}
    (hcount : cur.memoryAccess.lockCount ≤ 10) :
    coreDetection cur S 4 L = .ok ⟨false, S, 4, L ∩ cur.memoryAccess.locks.toFinset⟩ := by
  have hread : readLocks cur = .ok cur.memoryAccess.locks.toFinset := if_neg (not_lt.mpr hcount)
  have ht : transition cur S 4 = .ok ⟨S, 4, false⟩ := by simp [transition, hsize]
  rw [coreDetection, ht, hread]
  rfl

/-- With more than ten locks the call reads past the lockset array, whatever the state. -/
theorem coreDetection_outOfBounds (hH : H ≠ []) {L : LockSet}
    (hcount : 10 < cur.memoryAccess.lockCount) :
    coreDetection cur S (statusOf (accessDiscipline.phase H)) L = .error .outOfBounds := by
  obtain ⟨t, ht, -⟩ := transition_spec hE hno hH
  rw [coreDetection, ht, readLocks, if_pos hcount]
  rfl

end Steps

end Evidence

end Racez
