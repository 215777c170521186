import Racez.Detect.Forget

/-!
# Range deletion and the three maps

The detector keeps what it knows about an address in three maps, and looks at one of them only to
decide whether the address is new to all three. `delete_map_entries` removes a range by the same
loop on each of them, between the lower bounds of its two ends.

Two things are shown about logs whose allocations lie in the address space. The maps have the same
keys after every record and hold no null pointer, so that neither of the assertions on the way into
a new entry can fail and the loops end; and a range of which the start is not above the end is
removed exactly, the end itself not included.

`InStep` is preserved by creation, by an access and by a deletion, one lemma for each; the deletion
is the same loop on all maps, and since their keys are the same it ends on all of them or on none.
-/

open Container

namespace Racez

open DetectState

/-! ## Failures of one record -/

section Errors

variable {s : DetectState} {record : Record} {f : Fault}

private theorem readLocks_error (h : readLocks record = .error f) : f = .outOfBounds := by
  rw [readLocks] at h
  split_ifs at h
  exact (Except.error.inj h).symm

private theorem transition_error {recordSet : RecordSet} {status : ℤ}
    (h : transition record recordSet status = .error f) : f = .coreAssertion := by
  rw [transition] at h
  split_ifs at h <;> exact (Except.error.inj h).symm

private theorem coreDetection_error {recordSet : RecordSet} {status : ℤ} {lockset : LockSet}
    (h : coreDetection record recordSet status lockset = .error f) :
    f = .coreAssertion ∨ f = .outOfBounds := by
  rw [coreDetection, Run.bind_eq_error] at h
  rcases h with h | ⟨t, -, h⟩
  · exact Or.inl (transition_error h)
  · rw [Run.bind_eq_error] at h
    rcases h with h | ⟨locks, -, h⟩
    · exact Or.inr (readLocks_error h)
    · cases h

private theorem detectAccess_error (hs : s.InStep) (h : detectAccess s record = .error f) :
    f = .coreAssertion ∨ f = .outOfBounds := by
  by_cases hzero : record.memoryAccess.memoryAddress = 0
  · rw [detectAccess_zero hzero] at h
    exact absurd h (by simp)
  · obtain ⟨o, ho⟩ := hs record.memoryAccess.memoryAddress
    cases o with
    | none =>
      rw [detectAccess_of_none hzero ho, Run.bind_eq_error] at h
      rcases h with h | ⟨locks, -, h⟩
      · exact Or.inr (readLocks_error h)
      · cases h
    | some e =>
      rw [detectAccess_of_some hzero ho, Run.bind_eq_error] at h
      rcases h with h | ⟨res, -, h⟩
      · exact coreDetection_error h
      · cases h

/-- With the maps in step and releases in order, what is left are the assertions of
`core_detection` and the size of the array of locks. -/
theorem offlineDetection_error (hs : s.InStep) (hheap : HeapFits s)
    (hfits : record.type = .memoryAlloc → record.memAllocOp.Fits)
    (h : offlineDetection true s record = .error f) : f = .coreAssertion ∨ f = .outOfBounds := by
  rw [offlineDetection] at h
  split at h
  · exact detectAccess_error hs h
  · rename_i htype
    obtain ⟨s', hs', -⟩ := detectAlloc_of_fits true (hfits htype) hheap
    rw [hs'] at h
    exact absurd h (by simp)
  · exact absurd h (by simp)

end Errors

/-! ## Deletion -/

/-- The entry of a key after a range has been removed. -/
def afterDeletion {α : Type*} (lo hi : Address) (m : OrderedMap Address α) (k : Address) :
    Option α :=
  if lo ≤ k ∧ k < hi then none else m.find? k

private theorem exists_deleteMapEntries_exact (s : DetectState) {lo hi : Address} (h : lo ≤ hi) :
    ∃ s', deleteMapEntries s lo hi = .ok s' ∧ ∀ k,
      s'.globalRecordSetMap.find? k = afterDeletion lo hi s.globalRecordSetMap k
      ∧ s'.rwMap.find? k = afterDeletion lo hi s.rwMap k
      ∧ s'.locksetMap.find? k = afterDeletion lo hi s.locksetMap k := by
  obtain ⟨s', hs'⟩ := exists_deleteMapEntries s h
  obtain ⟨locks, records, statuses, hlocks, hrecords, hstatuses, rfl⟩ := deleteMapEntries_eq_ok hs'
  refine ⟨_, hs', ?_⟩
  intro k
  exact ⟨OrderedMap.find?_eraseRange hrecords k, OrderedMap.find?_eraseRange hstatuses k,
    OrderedMap.find?_eraseRange hlocks k⟩

/-! ## Whole logs -/

/-- **The three maps stay in step, and range deletion is exact.** After every beginning of a log
whose allocations and releases lie in the address space: unless `core_detection` has failed on the
way, the maps have the same keys and no null pointer, and from this state every range is removed
from all three of them, exactly. -/
theorem maps_inStep_and_deletion_exact {log pre : List Record}
    (hfits : ∀ r ∈ log, r.type = .memoryAlloc → r.memAllocOp.Fits) (hpre : pre <+: log) :
    (∃ s reports, processLog true pre = .ok (s, reports) ∧ s.InStep
      ∧ ∀ lo hi, lo ≤ hi → ∃ s', deleteMapEntries s lo hi = .ok s' ∧ ∀ k,
        s'.globalRecordSetMap.find? k = afterDeletion lo hi s.globalRecordSetMap k
        ∧ s'.rwMap.find? k = afterDeletion lo hi s.rwMap k
        ∧ s'.locksetMap.find? k = afterDeletion lo hi s.locksetMap k)
    ∨ ∃ f, processLog true pre = .error f ∧ (f = .coreAssertion ∨ f = .outOfBounds) := by
  have hinit : (DetectState.init, ([] : List Report)).1.InStep
      ∧ HeapFits (DetectState.init, ([] : List Report)).1 :=
    ⟨fun a ↦ ⟨none, entryIs_init a⟩, nofun⟩
  have hrun : (∃ st, processLog true pre = .ok st ∧ st.1.InStep ∧ HeapFits st.1)
      ∨ ∃ f, processLog true pre = .error f ∧ (f = .coreAssertion ∨ f = .outOfBounds) := by
    refine Run.progress (P := fun _ (st : DetectState × List Report) ↦
      st.1.InStep ∧ HeapFits st.1) pre hinit ?_
    rintro l record st hl ⟨hs, hheap⟩
    have hrecord : record ∈ log := (hl.trans hpre).subset (by simp)
    cases hoff : offlineDetection true st.1 record with
    | ok res =>
      obtain ⟨s', report⟩ := res
      exact Or.inl ⟨_, detectStep_of_eq_ok hoff, inStep_offlineDetection hs hoff,
        heapFits_offlineDetection hheap (hfits record hrecord) hoff⟩
    | error f =>
      refine Or.inr ⟨f, ?_, offlineDetection_error hs hheap (hfits record hrecord) hoff⟩
      rw [detectStep, hoff]
      rfl
  rcases hrun with ⟨⟨s, reports⟩, hs, hinv⟩ | hfault
  · exact Or.inl ⟨s, reports, hs, hinv.1, fun lo hi h ↦ exists_deleteMapEntries_exact s h⟩
  · exact Or.inr hfault

/-- A block that is used and released, with another address behind it. -/
theorem maps_inStep_and_deletion_exact_usedBlock :
    (∀ r ∈ usedBlock 16 ++ [freeRecord 7 64], r.type = .memoryAlloc → r.memAllocOp.Fits)
    ∧ ∃ s reports, processLog true (usedBlock 16) = .ok (s, reports) ∧ s.InStep
      ∧ s.HasEntry 64 ∧ s.HasEntry 128
      ∧ ∃ s', deleteMapEntries s 64 128 = .ok s' ∧ ¬s'.HasEntry 64 ∧ s'.HasEntry 128 := by
  have hfits : ∀ r ∈ usedBlock 16 ++ [freeRecord 7 64],
      r.type = .memoryAlloc → r.memAllocOp.Fits := by decide
  rcases maps_inStep_and_deletion_exact hfits (List.prefix_append _ _)
    with ⟨s, reports, hs, hinStep, hdelete⟩ | ⟨f, hf, -⟩
  · obtain ⟨s', hs', hexact⟩ := hdelete 64 128 (by decide)
    obtain ⟨rfl, rfl⟩ := Prod.mk.inj (Except.ok.inj hs)
    refine ⟨hfits, _, _, rfl, hinStep, by decide, by decide, s', hs', ?_, ?_⟩
    · rw [HasEntry, (hexact 64).2.1]
      decide
    · rw [HasEntry, (hexact 128).2.1]
      decide
  · cases hf

end Racez
