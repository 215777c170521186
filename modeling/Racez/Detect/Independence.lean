import Racez.Detect.Invariant

/-!
# Addresses are independent

The detector keeps its knowledge about all addresses in the same maps, and a release touches many
of them at once. Still, what it knows about one address depends only on the accesses to that
address and on the allocations and releases: the rest of the log can be left out.

The proof runs the detector on both logs at once. The two states have the same entry at the address
and the same map of allocations. An access to another address leaves both alone, and a record that
is kept does to the second state what it does to the first one, since `detectAccess` looks at one
entry and a release is decided by the map of allocations.

## Two runs in step

`AgreeAt` relates the states of the two runs. A record that does not concern the address keeps it
with the second run standing still (`AgreeAt.skip`); a record that does is taken by both
(`AgreeAt.access`, `AgreeAt.alloc`). A release has to get through in the second run too. It does
when the filter is off, and when the sizes that are remembered fit into the address space, which
`SideBySide` carries along. `SideBySide.step` puts these together for one record, and
`Run.induction` for a log.

The warnings at an address agree up to the counter of warnings, which counts those at other
addresses as well.
-/

open Container

namespace Racez

open DetectState

/-! ## Range deletion with the bounds either way -/

section Delete

variable {s s' : DetectState} {lo hi : Address}

private theorem hasEntry_iff_find? (hs : s.InStep) (a : Address) :
    (¬s.HasEntry a ↔ s.locksetMap.find? a = none)
      ∧ (¬s.HasEntry a ↔ s.globalRecordSetMap.find? a = none)
      ∧ (¬s.HasEntry a ↔ s.rwMap.find? a = none) := by
  obtain ⟨o, ho⟩ := hs a
  rw [ho.hasEntry_iff]
  cases o with
  | none => simp [ho.1, ho.2.1, ho.2.2]
  | some e => simp [ho.1, ho.2.1, ho.2.2]

/-- With the bounds the wrong way round the three loops are defined if no address between them has
an entry. -/
theorem exists_deleteMapEntries_iff_of_lt (hs : s.InStep) (h : hi < lo) :
    (∃ s', deleteMapEntries s lo hi = .ok s') ↔ ∀ a, hi ≤ a → a < lo → ¬s.HasEntry a := by
  constructor
  · rintro ⟨s', hs'⟩ a hhi hlo
    obtain ⟨locks, -, -, hlocks, -⟩ := deleteMapEntries_eq_ok hs'
    exact (hasEntry_iff_find? hs a).1.mpr
      ((s.locksetMap.exists_eraseRange_iff_of_lt h).mp ⟨locks, hlocks⟩ a hhi hlo)
  · intro hnone
    obtain ⟨locks, hlocks⟩ := (s.locksetMap.exists_eraseRange_iff_of_lt h).mpr
      fun a hhi hlo ↦ (hasEntry_iff_find? hs a).1.mp (hnone a hhi hlo)
    obtain ⟨records, hrecords⟩ := (s.globalRecordSetMap.exists_eraseRange_iff_of_lt h).mpr
      fun a hhi hlo ↦ (hasEntry_iff_find? hs a).2.1.mp (hnone a hhi hlo)
    obtain ⟨statuses, hstatuses⟩ := (s.rwMap.exists_eraseRange_iff_of_lt h).mpr
      fun a hhi hlo ↦ (hasEntry_iff_find? hs a).2.2.mp (hnone a hhi hlo)
    rw [deleteMapEntries, hlocks, hrecords, hstatuses]
    exact ⟨_, rfl⟩

theorem exists_deleteMapEntries_iff (hs : s.InStep) :
    (∃ s', deleteMapEntries s lo hi = .ok s') ↔ ∀ a, hi ≤ a → a < lo → ¬s.HasEntry a := by
  rcases le_or_gt lo hi with hle | hlt
  · refine iff_of_true (exists_deleteMapEntries s hle) ?_
    intro a hhi hlo
    exact absurd (hle.trans hhi) (not_le.mpr hlo)
  · exact exists_deleteMapEntries_iff_of_lt hs hlt

end Delete

/-! ## What a release depends on -/

/-- The map of allocations after an allocation or a release. -/
def heapAfter (enableMemoryReuse : Bool) (heapMap : OrderedMap Address ℤ) (op : MemAllocOp) :
    OrderedMap Address ℤ :=
  if enableMemoryReuse = true then
    if op.isAlloc ≠ 0 then (heapMap.insert op.startAddress 0).1.assign op.startAddress op.size
    else if op.startAddress = 0 then heapMap
    else if op.size = 0 then (heapMap.insert op.startAddress 0).1
    else heapMap
  else heapMap

section Steps

variable {reuse : Bool} {s s' t t' : DetectState} {record : Record} {report : Option Report}
  {op : MemAllocOp} {a : Address} {o : Option Entry}

private theorem heapMap_deleteMapEntries {lo hi : Address} (h : deleteMapEntries s lo hi = .ok s') :
    s'.heapMap = s.heapMap := by
  obtain ⟨locks, records, statuses, -, -, -, rfl⟩ := deleteMapEntries_eq_ok h
  rfl

theorem heapMap_detectAlloc (h : detectAlloc reuse s op = .ok s') :
    s'.heapMap = heapAfter reuse s.heapMap op := by
  rw [detectAlloc] at h
  rw [heapAfter]
  split_ifs at h ⊢ with hreuse halloc hzero hsize
  · rw [← Except.ok.inj h]
  · rw [← Except.ok.inj h]
  · simp only at h
    split_ifs at h
    · rw [← Except.ok.inj h]
      rfl
    · rw [heapMap_deleteMapEntries h]
      rfl
  · exact heapMap_deleteMapEntries h
  · rw [← Except.ok.inj h]

private theorem heapFits_of_heapMap_eq (h : HeapFits s) (heq : t.heapMap = s.heapMap) :
    HeapFits t := by
  intro b n hb
  rw [heq] at hb
  exact h b n hb

theorem releases_congr (h : t.heapMap = s.heapMap) :
    Releases reuse t op a ↔ Releases reuse s op a := by
  rw [Releases, Releases, heapSize, heapSize, h]

theorem inStep_heapSize (hs : s.InStep) (b : Address) : (heapSize s b).1.InStep := by
  intro a
  obtain ⟨o, ho⟩ := hs a
  exact ⟨o, ho.of_eq rfl rfl rfl⟩

theorem inStep_offlineDetection (hs : s.InStep)
    (h : offlineDetection reuse s record = .ok (s', report)) : s'.InStep := by
  intro b
  obtain ⟨o, ho⟩ := hs b
  obtain ⟨o', ho', -⟩ := exists_effect hs h ho
  exact ⟨o', ho'⟩

theorem heapMap_offlineDetection (h : offlineDetection reuse s record = .ok (s', report)) :
    s'.heapMap = if record.type = .memoryAlloc then heapAfter reuse s.heapMap record.memAllocOp
      else s.heapMap := by
  rw [offlineDetection] at h
  split at h
  · rename_i htype
    rw [if_neg (by simp [htype])]
    exact heapMap_detectAccess h
  · rename_i htype
    rw [Run.bind_eq_ok] at h
    obtain ⟨s₁, hs₁, h⟩ := h
    obtain ⟨rfl, -⟩ := Prod.mk.inj (Except.ok.inj h)
    rw [if_pos htype]
    exact heapMap_detectAlloc hs₁
  · rename_i hop halloc
    rw [if_neg halloc, (Prod.mk.inj (Except.ok.inj h)).1]

theorem hasEntry_offlineDetection (hs : s.InStep)
    (h : offlineDetection reuse s record = .ok (s', report)) (a : Address) :
    s'.HasEntry a ↔ (s.HasEntry a ∨ record.AccessAt a ∧ a ≠ 0)
      ∧ ¬(record.type = .memoryAlloc ∧ Releases reuse s record.memAllocOp a) := by
  obtain ⟨o, ho⟩ := hs a
  obtain ⟨o', ho', heff⟩ := exists_effect hs h ho
  rw [ho'.hasEntry_iff, ho.hasEntry_iff]
  cases heff with
  | unchanged hacc hrel hrep =>
    have hnot : ¬(record.AccessAt a ∧ a ≠ 0) := fun hat ↦ hat.2 (hacc hat.1)
    have hkept : ¬(record.type = .memoryAlloc ∧ Releases reuse s record.memAllocOp a) :=
      fun hat ↦ hrel hat.1 hat.2
    simp only [hnot, hkept, or_false, not_false_eq_true, and_true]
  | created hacc ha => simpa [hacc, hacc.1] using ha
  | accessed hacc => simp [hacc.1]
  | released htype hrel => simp [htype, hrel]

/-- Whether an allocation or a release gets through depends on the addresses with an entry and on
the map of allocations. -/
theorem exists_detectAlloc_of_congr (hs : s.InStep) (ht : t.InStep) (hheap : t.heapMap = s.heapMap)
    (hentry : ∀ a, t.HasEntry a ↔ s.HasEntry a) (h : detectAlloc reuse s op = .ok s') :
    ∃ t', detectAlloc reuse t op = .ok t' := by
  have hdelete : ∀ {u v : DetectState} {lo hi : Address}, u.InStep → v.InStep →
      (∀ a, v.HasEntry a ↔ u.HasEntry a) → (∃ u', deleteMapEntries u lo hi = .ok u') →
      ∃ v', deleteMapEntries v lo hi = .ok v' := by
    intro u v lo hi hu hv huv hok
    rw [exists_deleteMapEntries_iff hv]
    intro a hhi hlo hhas
    exact (exists_deleteMapEntries_iff hu).mp hok a hhi hlo ((huv a).mp hhas)
  have hsize : (heapSize t op.startAddress).2 = (heapSize s op.startAddress).2 := by
    rw [heapSize, heapSize, hheap]
  rw [detectAlloc] at h ⊢
  split_ifs at h ⊢ with hreuse halloc hzero hop
  · exact ⟨_, rfl⟩
  · exact ⟨_, rfl⟩
  · dsimp only at h ⊢
    rw [hsize]
    split_ifs at h ⊢ with hnil
    · exact ⟨_, rfl⟩
    · exact hdelete (inStep_heapSize hs _) (inStep_heapSize ht _) hentry ⟨_, h⟩
  · exact hdelete hs ht hentry ⟨_, h⟩
  · exact ⟨_, rfl⟩

/-! ## Two states that agree at an address -/

/-- The two states know the same about `a`, and remember the same allocations. -/
structure AgreeAt (a : Address) (s t : DetectState) : Prop where
  /-- The entries at `a` are the same, or there are none. -/
  entry : ∃ o, s.EntryIs a o ∧ t.EntryIs a o
  /-- The sizes of all blocks are the same. -/
  heapMap : t.heapMap = s.heapMap

/-- The record sets reported for `a`. -/
def reportedAt (a : Address) (reports : List Report) : List RecordSet :=
  (reports.filter fun rep ↦ rep.memoryAddress = a).map Report.recordSet

@[simp] theorem reportedAt_append (a : Address) (l l' : List Report) :
    reportedAt a (l ++ l') = reportedAt a l ++ reportedAt a l' := by
  rw [reportedAt, List.filter_append, List.map_append, reportedAt, reportedAt]

private theorem reportedAt_of_ne (h : ∀ rep, report = some rep → rep.memoryAddress ≠ a) :
    reportedAt a report.toList = [] := by
  cases report with
  | none => rfl
  | some rep => simp [reportedAt, h rep rfl]

/-- The records that can matter for `a`: its accesses, allocations and releases. -/
def Record.ConcernsAddress (a : Address) (record : Record) : Prop :=
  record.AccessAt a ∨ record.type = .memoryAlloc

instance (a : Address) (record : Record) : Decidable (record.ConcernsAddress a) :=
  inferInstanceAs (Decidable (_ ∨ _))

/-- A record that does not concern `a` changes nothing there. -/
theorem AgreeAt.skip (h : AgreeAt a s t) (hs : s.InStep)
    (hstep : offlineDetection reuse s record = .ok (s', report))
    (hnot : ¬record.ConcernsAddress a) :
    AgreeAt a s' t ∧ reportedAt a report.toList = [] := by
  obtain ⟨o, ho, ho'⟩ := h.entry
  obtain ⟨o₁, ho₁, heff⟩ := exists_effect hs hstep ho
  have hheap : s'.heapMap = s.heapMap := by
    rw [heapMap_offlineDetection hstep, if_neg fun htype ↦ hnot (Or.inr htype)]
  cases heff with
  | unchanged hacc hrel hrep =>
    exact ⟨⟨⟨o, ho₁, ho'⟩, h.heapMap.trans hheap.symm⟩, reportedAt_of_ne hrep⟩
  | created hacc => exact absurd (Or.inl hacc) hnot
  | accessed hacc => exact absurd (Or.inl hacc) hnot
  | released htype => exact absurd (Or.inr htype) hnot

/-- An access to `a` does the same in both states. -/
theorem AgreeAt.access (h : AgreeAt a s t) (ha : a ≠ 0) (hacc : record.AccessAt a)
    (hstep : offlineDetection reuse s record = .ok (s', report)) :
    ∃ t' report', offlineDetection reuse t record = .ok (t', report') ∧ AgreeAt a s' t'
      ∧ reportedAt a report'.toList = reportedAt a report.toList := by
  obtain ⟨o, ho, ho'⟩ := h.entry
  obtain ⟨htype, rfl⟩ := hacc
  rw [offlineDetection, htype] at hstep ⊢
  dsimp only at hstep ⊢
  have hheap := heapMap_detectAccess hstep
  cases o with
  | none =>
    -- a first access: the locks are those of the record
    rw [detectAccess_of_none ha ho, Run.bind_eq_ok] at hstep
    obtain ⟨locks, hlocks, hstep⟩ := hstep
    obtain ⟨rfl, rfl⟩ := Prod.mk.inj (Except.ok.inj hstep)
    rw [detectAccess_of_none ha ho', hlocks]
    exact ⟨_, none, rfl, ⟨⟨_, entryIs_setEntry_self _ _ _, entryIs_setEntry_self _ _ _⟩, h.heapMap⟩,
      rfl⟩
  | some e =>
    -- a later access: `core_detection` sees the entry and nothing else of the state
    rw [detectAccess_of_some ha ho, Run.bind_eq_ok] at hstep
    obtain ⟨res, hres, hstep⟩ := hstep
    have hpair := Except.ok.inj hstep
    have hs' : s' = (finishAccess s record.memoryAccess.memoryAddress res).1 := by rw [hpair]
    have hreport : report = (finishAccess s record.memoryAccess.memoryAddress res).2 := by
      rw [hpair]
    rw [detectAccess_of_some ha ho', hres]
    refine ⟨(finishAccess t record.memoryAccess.memoryAddress res).1,
      (finishAccess t record.memoryAccess.memoryAddress res).2, rfl,
      ⟨⟨_, ?_, entryIs_finishAccess_self _ _ _⟩, ?_⟩, ?_⟩
    · rw [hs']
      exact entryIs_finishAccess_self _ _ _
    · rw [hheap, ← h.heapMap, finishAccess]
      split_ifs <;> rfl
    · rw [hreport, finishAccess_snd, finishAccess_snd]
      split_ifs <;> simp [reportedAt]

theorem AgreeAt.alloc (h : AgreeAt a s t) (htype : record.type = .memoryAlloc)
    (hstep : offlineDetection reuse s record = .ok (s', report))
    (ht : detectAlloc reuse t record.memAllocOp = .ok t') :
    offlineDetection reuse t record = .ok (t', none) ∧ AgreeAt a s' t' ∧ report = none := by
  obtain ⟨o, ho, ho'⟩ := h.entry
  rw [offlineDetection, htype] at hstep ⊢
  dsimp only at hstep ⊢
  rw [Run.bind_eq_ok] at hstep
  obtain ⟨s₁, hs₁, hstep⟩ := hstep
  obtain ⟨rfl, rfl⟩ := Prod.mk.inj (Except.ok.inj hstep)
  rw [ht]
  refine ⟨rfl, ⟨⟨_, entryIs_detectAlloc hs₁ ho, ?_⟩, ?_⟩, rfl⟩
  · have hentry := entryIs_detectAlloc ht ho'
    rwa [if_congr (releases_congr h.heapMap) rfl rfl] at hentry
  · rw [heapMap_detectAlloc ht, heapMap_detectAlloc hs₁, h.heapMap]

end Steps

/-! ## Whole logs -/

section Log

variable {reuse : Bool} {log : List Record} {a : Address}

theorem processLog_append_singleton (reuse : Bool) (log : List Record) (record : Record) :
    processLog reuse (log ++ [record])
      = processLog reuse log >>= fun st ↦ detectStep reuse st record := by
  rw [processLog, Run.foldlM_append_singleton, ← processLog]

theorem detectStep_eq_ok {st st' : DetectState × List Report} {record : Record}
    (h : detectStep reuse st record = .ok st') :
    ∃ report, offlineDetection reuse st.1 record = .ok (st'.1, report)
      ∧ st'.2 = st.2 ++ report.toList := by
  rw [detectStep, Run.bind_eq_ok] at h
  obtain ⟨⟨s, report⟩, hoff, h⟩ := h
  obtain rfl := Except.ok.inj h
  exact ⟨report, hoff, rfl⟩

theorem detectStep_of_eq_ok {st : DetectState × List Report} {record : Record} {s : DetectState}
    {report : Option Report} (h : offlineDetection reuse st.1 record = .ok (s, report)) :
    detectStep reuse st record = .ok (s, st.2 ++ report.toList) := by
  rw [detectStep, h]
  rfl

/-- A log and its part that concerns `a`, run side by side. -/
structure SideBySide (a : Address) (reuse : Bool) (log : List Record)
    (st : DetectState × List Report) : Prop where
  /-- The maps have the same keys. -/
  inStep : st.1.InStep
  /-- The sizes can be subtracted, if the filter is on. -/
  heapFits : reuse = true → HeapFits st.1
  /-- The part of the log gets through, to the same entry and the same warnings at `a`. -/
  kept : ∃ t reports, processLog reuse (log.filter fun r ↦ r.ConcernsAddress a) = .ok (t, reports)
    ∧ AgreeAt a st.1 t ∧ reportedAt a reports = reportedAt a st.2

theorem SideBySide.init (a : Address) (reuse : Bool) :
    SideBySide a reuse [] (DetectState.init, []) where
  inStep b := ⟨none, entryIs_init b⟩
  heapFits _ := nofun
  kept := ⟨_, _, rfl, ⟨⟨none, entryIs_init a, entryIs_init a⟩, rfl⟩, rfl⟩

theorem heapFits_offlineDetection {s s' : DetectState} {record : Record} {report : Option Report}
    (h : HeapFits s) (hfits : record.type = .memoryAlloc → record.memAllocOp.Fits)
    (hoff : offlineDetection reuse s record = .ok (s', report)) : HeapFits s' := by
  rw [offlineDetection] at hoff
  split at hoff
  · exact heapFits_of_heapMap_eq h (heapMap_detectAccess hoff)
  · rename_i htype
    rw [Run.bind_eq_ok] at hoff
    obtain ⟨s₁, hs₁, hoff⟩ := hoff
    obtain ⟨rfl, -⟩ := Prod.mk.inj (Except.ok.inj hoff)
    obtain ⟨s₂, hs₂, hheap⟩ := detectAlloc_of_fits reuse (hfits htype) h
    obtain rfl := Except.ok.inj (hs₁.symm.trans hs₂)
    exact hheap
  · obtain ⟨rfl, -⟩ := Prod.mk.inj (Except.ok.inj hoff)
    exact h

private theorem exists_detectAlloc_of_fits {s : DetectState} {op : MemAllocOp}
    (hop : reuse = true → op.Fits) (hs : reuse = true → HeapFits s) :
    ∃ s', detectAlloc reuse s op = .ok s' := by
  cases reuse with
  | false => exact ⟨s, rfl⟩
  | true =>
    obtain ⟨s', hs', -⟩ := detectAlloc_of_fits true (hop rfl) (hs rfl)
    exact ⟨s', hs'⟩

theorem SideBySide.step (ha : a ≠ 0) {st st' : DetectState × List Report} {record : Record}
    (h : SideBySide a reuse log st)
    (hfits : reuse = true → record.type = .memoryAlloc → record.memAllocOp.Fits)
    (hstep : detectStep reuse st record = .ok st') :
    SideBySide a reuse (log ++ [record]) st' := by
  obtain ⟨report, hoff, hreports⟩ := detectStep_eq_ok hstep
  obtain ⟨t, reports, hrun, hagree, hrep⟩ := h.kept
  refine ⟨inStep_offlineDetection h.inStep hoff,
    fun hr ↦ heapFits_offlineDetection (h.heapFits hr) (hfits hr) hoff, ?_⟩
  rw [List.filter_append, hreports, reportedAt_append]
  by_cases hconcerns : record.ConcernsAddress a
  · have hkept : [record].filter (fun r ↦ r.ConcernsAddress a) = [record] := by
      rw [List.filter_cons_of_pos (by simpa using hconcerns), List.filter_nil]
    rw [hkept, processLog_append_singleton, hrun]
    -- both runs take the record
    rcases hconcerns with hacc | htype
    · obtain ⟨t', report', hoff', hagree', hsame⟩ := hagree.access ha hacc hoff
      refine ⟨t', reports ++ report'.toList, detectStep_of_eq_ok hoff', hagree', ?_⟩
      rw [reportedAt_append, hrep, hsame]
    · have hheap : reuse = true → HeapFits t := fun hr ↦
        heapFits_of_heapMap_eq (h.heapFits hr) hagree.heapMap
      obtain ⟨t', ht'⟩ := exists_detectAlloc_of_fits (fun hr ↦ hfits hr htype) hheap
      obtain ⟨hoff', hagree', rfl⟩ := hagree.alloc htype hoff ht'
      have hstep' := @detectStep_of_eq_ok reuse (t, reports) record t' none hoff'
      refine ⟨t', _, hstep', hagree', ?_⟩
      rw [reportedAt_append, hrep]
  · have hdropped : [record].filter (fun r ↦ r.ConcernsAddress a) = [] := by
      rw [List.filter_cons_of_neg (by simpa using hconcerns), List.filter_nil]
    -- only the run of the whole log takes the record
    obtain ⟨hagree', hnone⟩ := hagree.skip h.inStep hoff hconcerns
    rw [hdropped, List.append_nil, hnone, List.append_nil]
    exact ⟨t, reports, hrun, hagree', hrep⟩

private theorem processLog_sideBySide (ha : a ≠ 0)
    (hfits : reuse = true → ∀ r ∈ log, r.type = .memoryAlloc → r.memAllocOp.Fits)
    {st : DetectState × List Report} (h : processLog reuse log = .ok st) :
    SideBySide a reuse log st := by
  refine Run.induction h (SideBySide.init a reuse) ?_
  intro l record st st' hpre hside hstep
  have hmem : record ∈ log := hpre.subset (List.mem_append_right _ (List.mem_singleton_self record))
  exact hside.step ha (fun hr ↦ hfits hr record hmem) hstep

/-- **Addresses are independent.** The detector gets through the log, and what it has stored and
reported for an address is what it stores and reports on the accesses to that address and the
allocations and releases alone. -/
theorem addresses_independent (hwf : WellFormedLog log)
    (hfits : reuse = true → ∀ r ∈ log, r.type = .memoryAlloc → r.memAllocOp.Fits) (ha : a ≠ 0) :
    ((∀ r ∈ log, r.type = .memoryOp → r.memoryAccess.lockCount ≤ 10) →
        ∃ out, processLog reuse log = .ok out)
      ∧ ∀ s reports, processLog reuse log = .ok (s, reports) →
        ∃ s' reports',
          processLog reuse (log.filter fun r ↦ r.ConcernsAddress a) = .ok (s', reports')
          ∧ s'.rwMap.find? a = s.rwMap.find? a
          ∧ s'.globalRecordSetMap.find? a = s.globalRecordSetMap.find? a
          ∧ s'.locksetMap.find? a = s.locksetMap.find? a
          ∧ reportedAt a reports' = reportedAt a reports := by
  constructor
  · intro hcount
    obtain ⟨t, ht⟩ := exists_tracedRun hwf hcount hfits
    rw [processLog_eq_map_tracedRun, ht]
    exact ⟨_, rfl⟩
  intro s reports h
  obtain ⟨s', reports', hrun, ⟨⟨o, ho, ho'⟩, -⟩, hrep⟩ := (processLog_sideBySide ha hfits h).kept
  refine ⟨s', reports', hrun, ?_⟩
  cases o with
  | none =>
    rw [ho.1, ho.2.1, ho.2.2]
    exact ⟨ho'.2.1, ho'.1, ho'.2.2, hrep⟩
  | some e =>
    rw [ho.1, ho.2.1, ho.2.2]
    exact ⟨ho'.2.1, ho'.1, ho'.2.2, hrep⟩

/-- Two accesses at each of two addresses, and a release of the second address. -/
def twoAddresses : List Record :=
  [sampleAccess 1 7 64 1 [], sampleAccess 2 7 128 1 [],
    { Record.zeroed with recordNo := 3, type := .memoryAlloc, memAllocOp := ⟨128, 16, 0⟩ },
    sampleAccess 4 8 64 0 [], sampleAccess 5 8 128 0 []]

theorem addresses_independent_twoAddresses :
    ∃ s reports s' reports', processLog true twoAddresses = .ok (s, reports)
      ∧ processLog true (twoAddresses.filter fun r ↦ r.ConcernsAddress 64) = .ok (s', reports')
      ∧ s'.rwMap.find? 64 = s.rwMap.find? 64
      ∧ reportedAt 64 reports' = reportedAt 64 reports := by
  have hthm := @addresses_independent true twoAddresses 64 ⟨by decide, by decide⟩
    (fun _ ↦ by decide) (by decide)
  obtain ⟨⟨s, reports⟩, hrun⟩ := hthm.1 (by decide)
  obtain ⟨s', reports', hrun', hstatus, -, -, hrep⟩ := hthm.2 s reports hrun
  exact ⟨s, reports, s', reports', hrun, hrun', hstatus, hrep⟩

end Log

end Racez
