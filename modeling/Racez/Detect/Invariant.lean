import Racez.Detect.Offline
import Racez.Transition.Run

/-!
# The invariant of the detector

What the detector knows about an address is compared with what happened there. The comparison needs
the accesses made *since the entry of the address was created*, which the program does not keep, so
a run is instrumented: next to the state it carries for every address the list of those accesses
and whether one of them was reported. `ghostStep` is the definition of both; it looks at the states
before and after a step only to see whether the address has an entry.

The invariant of one address is `EntryInvariant`. An access to a known address keeps it by
`coreDetection_spec`, everything else leaves the entry alone or removes it, and `Run.induction`
carries it along whole logs.

## Which logs

Two facts about a log are used: the write flag of an access is `0` or `1`, and accesses with equal
numbers belong to the same thread. The second is what keeps an insertion into a record set from
being dropped. More than ten locks make the detector read out of bounds, and a release whose range
is reversed makes an erasing loop run away; no other failure is possible.

## What is known of an entry

The candidate lockset is the set of locks that all accesses of the history have in common, and the
address was reported if and only if an access of the history has raised the alarm. Before a report
the status is that of the phase of the history, and the record set is an `Evidence` of it: one
access of each thread, its latest write if it wrote. After a report both are frozen: the status
stays `4`, and the record set is evidence of the history up to the report only, which is a racy one.

## How the histories go along

`ghostStep` is one definition for all addresses and all records. An address whose entry a record
leaves alone keeps its history (`ghostStep_of_unchanged`), an address without an entry has the empty
one, and an access adds itself to the history of its address or begins it. `Effect` lists what one
record can do to the entry of an address, and `Effect.tracks` that the history follows. From this
the run invariant is carried by one induction, and everything that is later said about reports is
read off it. The instrumentation does not influence the run (`processLog_eq_map_tracedRun`).

## How a run can end

`tracedStep_error` lists the faults of a step. Without the filter no release removes anything, so
accesses with at most ten locks always get through (`exists_tracedRun`); with it, the ranges have to
lie in the address space.
-/

open Container

namespace Racez

open DetectState Discipline

/-! ## Runs -/

/-- One record, with the reports made so far. -/
def detectStep (enableMemoryReuse : Bool) (st : DetectState × List Report) (record : Record) :
    Except Fault (DetectState × List Report) := do
  let (s, report) ← offlineDetection enableMemoryReuse st.1 record
  return (s, st.2 ++ report.toList)

/-- The detector on a log: the final state and the reports in order. -/
def processLog (enableMemoryReuse : Bool) (log : List Record) :
    Except Fault (DetectState × List Report) :=
  log.foldlM (detectStep enableMemoryReuse) (DetectState.init, [])

/-! ## Instrumented runs -/

/-- The history of an address since its entry was created. -/
structure Ghost where
  /-- The accesses, in order. -/
  accesses : List Record
  /-- Whether the address was reported. -/
  reported : Bool

/-- The history of an address without an entry. -/
def Ghost.fresh : Ghost := ⟨[], false⟩

/-- The history of an address after a step from `s` to `s'`. -/
def ghostStep (s s' : DetectState) (record : Record) (report : Option Report)
    (ghost : Address → Ghost) (a : Address) : Ghost :=
  if s'.HasEntry a then
    let old := if s.HasEntry a then ghost a else .fresh
    ⟨if record.AccessAt a then old.accesses ++ [record] else old.accesses,
      old.reported || report.any fun rep ↦ rep.memoryAddress = a⟩
  else .fresh

/-- The state of a run with the reports made and the histories. -/
structure Traced where
  /-- The maps. -/
  state : DetectState
  /-- The warnings so far. -/
  reports : List Report
  /-- What has happened at each address. -/
  ghost : Address → Ghost

/-- The start of a run. -/
def Traced.init : Traced := ⟨DetectState.init, [], fun _ ↦ .fresh⟩

/-- One record. -/
def tracedStep (enableMemoryReuse : Bool) (t : Traced) (record : Record) : Except Fault Traced := do
  let (s, report) ← offlineDetection enableMemoryReuse t.state record
  return ⟨s, t.reports ++ report.toList, ghostStep t.state s record report t.ghost⟩

/-- The detector on a log. -/
def tracedRun (enableMemoryReuse : Bool) (log : List Record) : Except Fault Traced :=
  log.foldlM (tracedStep enableMemoryReuse) Traced.init

/-- The instrumentation does not influence the run. -/
theorem processLog_eq_map_tracedRun (reuse : Bool) (log : List Record) :
    processLog reuse log = (tracedRun reuse log).map fun t ↦ (t.state, t.reports) := by
  induction log using List.reverseRecOn with
  | nil => rfl
  | append_singleton log record ih =>
    rw [processLog, tracedRun, Run.foldlM_append_singleton, Run.foldlM_append_singleton,
      ← processLog, ← tracedRun, ih]
    cases tracedRun reuse log with
    | error f => rfl
    | ok t =>
      change detectStep reuse (t.state, t.reports) record = (tracedStep reuse t record).map _
      rw [detectStep, tracedStep]
      cases offlineDetection reuse t.state record <;> rfl

theorem exists_tracedRun_of_processLog {reuse : Bool} {log : List Record} {s : DetectState}
    {reports : List Report} (h : processLog reuse log = .ok (s, reports)) :
    ∃ t, tracedRun reuse log = .ok t ∧ t.state = s ∧ t.reports = reports := by
  rw [processLog_eq_map_tracedRun] at h
  cases ht : tracedRun reuse log with
  | error f =>
    rw [ht] at h
    cases h
  | ok t =>
    rw [ht] at h
    cases h
    exact ⟨t, rfl, rfl, rfl⟩

theorem tracedStep_eq_ok {reuse : Bool} {t t' : Traced} {record : Record}
    (h : tracedStep reuse t record = .ok t') :
    ∃ report, offlineDetection reuse t.state record = .ok (t'.state, report)
      ∧ t'.reports = t.reports ++ report.toList
      ∧ t'.ghost = ghostStep t.state t'.state record report t.ghost := by
  rw [tracedStep, Run.bind_eq_ok] at h
  obtain ⟨⟨s, report⟩, hstep, h⟩ := h
  obtain rfl := Except.ok.inj h
  exact ⟨report, hstep, rfl, rfl⟩

theorem tracedStep_eq_error {reuse : Bool} {t : Traced} {record : Record} {f : Fault}
    (h : tracedStep reuse t record = .error f) :
    offlineDetection reuse t.state record = .error f := by
  rw [tracedStep, Run.bind_eq_error] at h
  rcases h with h | ⟨b, -, h⟩
  · exact h
  · cases h

/-! ## The invariant of an address -/

/-- What holds of the entry of an address and its history. -/
structure EntryInvariant (g : Ghost) (e : Entry) : Prop where
  /-- The access that created the entry is in the history. -/
  nonempty : g.accesses ≠ []
  /-- The lockset is the intersection of the locksets of all accesses. -/
  lockset : ∀ l, l ∈ e.lockset ↔ accessDiscipline.CommonLock g.accesses l
  /-- Before a report, the status is the phase of the history. -/
  status : g.reported = false → e.status = statusOf (accessDiscipline.phase g.accesses)
  /-- Before a report, the record set is evidence of the history. -/
  evidence : g.reported = false → accessDiscipline.Evidence g.accesses e.recordSet.elems
  /-- After a report the status is `4`. -/
  reported : g.reported = true → e.status = 4
  /-- After a report the record set is evidence of the history up to the report, which is racy. -/
  frozen : g.reported = true → ∃ H₁ H₂, g.accesses = H₁ ++ H₂ ∧ accessDiscipline.Racy H₁
    ∧ accessDiscipline.Evidence H₁ e.recordSet.elems
  /-- A report was made exactly if some access raised an alarm. -/
  alarmed : g.reported = true ↔ accessDiscipline.Alarmed g.accesses

/-- The joint view of an address agrees with its history. -/
def Tracks (g : Ghost) : Option Entry → Prop
  | none => g = .fresh
  | some e => EntryInvariant g e

private theorem EntryInvariant.one_lt_size {g : Ghost} {e : Entry} (h : EntryInvariant g e)
    (hrep : g.reported = true) : 1 < e.recordSet.size := by
  obtain ⟨H₁, H₂, -, hracy, hE⟩ := h.frozen hrep
  rw [OrderedSet.size, hE.length_eq]
  exact hracy.1

theorem EntryInvariant.create {record : Record}
    (hw : record.memoryAccess.isWrite = 0 ∨ record.memoryAccess.isWrite = 1) :
    EntryInvariant ⟨[record], false⟩
      ⟨OrderedSet.empty.insert record, record.memoryAccess.isWrite,
        record.memoryAccess.locks.toFinset⟩ where
  nonempty := by simp
  lockset l := by simp [CommonLock, accessDiscipline]
  status _ := by
    have hshared : ¬accessDiscipline.Shared [record] := by simp [Shared, threads]
    have hwrite : accessDiscipline.HasWrite [record] ↔ record.memoryAccess.isWrite = 1 := by
      simp [HasWrite]
    rcases hw with hw | hw <;> simp [phase, hshared, hwrite, hw, statusOf]
  evidence _ := Evidence.singleton accessDiscipline record
  reported := nofun
  frozen := nofun
  alarmed := ⟨nofun, fun h ↦ absurd h (not_alarmed_singleton record)⟩

theorem EntryInvariant.access {g : Ghost} {e : Entry} {record : Record} (h : EntryInvariant g e)
    (hno : ∀ r ∈ g.accesses, r.recordNo = record.recordNo → r.threadId = record.threadId)
    (hcount : record.memoryAccess.lockCount ≤ 10) :
    ∃ res, coreDetection record e.recordSet e.status e.lockset = .ok res
      ∧ EntryInvariant ⟨g.accesses ++ [record], g.reported || res.willReport⟩
          ⟨res.recordSet, res.status, res.lockset⟩
      ∧ (res.willReport = true → g.reported = false
          ∧ accessDiscipline.Racy (g.accesses ++ [record])
          ∧ accessDiscipline.Evidence (g.accesses ++ [record]) res.recordSet.elems)
      ∧ (g.reported = true → res.recordSet = e.recordSet ∧ res.status = 4) := by
  cases hrep : g.reported with
  | false =>
    -- up to the report the set is evidence, and an alarm is a report
    have hE := h.evidence hrep
    obtain ⟨res, hres, hspec⟩ := coreDetection_spec hE hno h.nonempty h.lockset hcount
    have hnot : ¬accessDiscipline.Alarmed g.accesses := by
      intro hal
      rw [h.alarmed.mpr hal] at hrep
      exact absurd hrep (by simp)
    have halarm : accessDiscipline.Alarmed (g.accesses ++ [record]) ↔ res.willReport = true := by
      rw [alarmed_append_singleton, hspec.willReport]
      exact or_iff_right hnot
    refine ⟨res, by rw [h.status hrep]; exact hres, ?_, ?_, nofun⟩
    · rw [Bool.false_or]
      refine ⟨by simp, hspec.lockset, ?_, fun _ ↦ hspec.evidence, ?_, ?_, halarm.symm⟩
      · intro hwill
        rw [hspec.status, if_neg (Bool.eq_false_iff.mp hwill)]
      · intro hwill
        rw [hspec.status, if_pos hwill]
      · intro hwill
        exact ⟨g.accesses ++ [record], [], by simp, (hspec.willReport.mp hwill).1, hspec.evidence⟩
    · intro hwill
      exact ⟨rfl, (hspec.willReport.mp hwill).1, hspec.evidence⟩
  | true =>
    -- after it only the lockset changes
    have hres := coreDetection_reported (L := e.lockset) (h.one_lt_size hrep) hcount
    refine ⟨_, by rw [h.reported hrep]; exact hres, ?_, fun hwill ↦ absurd hwill (by simp),
      fun _ ↦ ⟨rfl, rfl⟩⟩
    rw [Bool.or_false]
    refine ⟨by simp, ?_, nofun, nofun, fun _ ↦ rfl, ?_, ?_⟩
    · intro l
      rw [Finset.mem_inter, h.lockset, commonLock_append_singleton]
      rfl
    · intro _
      obtain ⟨H₁, H₂, hsplit, hracy, hE⟩ := h.frozen hrep
      exact ⟨H₁, H₂ ++ [record], by rw [hsplit, List.append_assoc], hracy, hE⟩
    · exact ⟨fun _ ↦ alarmed_append_singleton.mpr (Or.inl (h.alarmed.mp hrep)), fun _ ↦ rfl⟩

theorem EntryInvariant.access_outOfBounds {g : Ghost} {e : Entry} {record : Record}
    (h : EntryInvariant g e)
    (hno : ∀ r ∈ g.accesses, r.recordNo = record.recordNo → r.threadId = record.threadId)
    (hcount : 10 < record.memoryAccess.lockCount) :
    coreDetection record e.recordSet e.status e.lockset = .error .outOfBounds := by
  cases hrep : g.reported with
  | false =>
    rw [h.status hrep]
    exact coreDetection_outOfBounds (h.evidence hrep) hno h.nonempty hcount
  | true =>
    have ht : transition record e.recordSet 4 = .ok ⟨e.recordSet, 4, false⟩ := by
      simp [transition, h.one_lt_size hrep]
    rw [h.reported hrep, coreDetection, ht, readLocks, if_pos hcount]
    rfl

/-! ## The invariant of a run -/

/-- What is assumed of the accesses of a log. -/
structure WellFormedLog (log : List Record) : Prop where
  /-- The write flag is `0` or `1`. -/
  isWrite : ∀ r ∈ log, r.type = .memoryOp →
    r.memoryAccess.isWrite = 0 ∨ r.memoryAccess.isWrite = 1
  /-- Accesses with equal numbers belong to the same thread. -/
  threadId : ∀ r ∈ log, ∀ r' ∈ log, r.type = .memoryOp → r'.type = .memoryOp →
    r.recordNo = r'.recordNo → r.threadId = r'.threadId

theorem WellFormedLog.of_isPrefix {pre log : List Record} (h : WellFormedLog log)
    (hpre : pre <+: log) : WellFormedLog pre where
  isWrite r hr := h.isWrite r (hpre.subset hr)
  threadId r hr r' hr' := h.threadId r (hpre.subset hr) r' (hpre.subset hr')

/-- What holds of an instrumented run after the log. -/
structure RunInvariant (log : List Record) (t : Traced) : Prop where
  /-- The maps are in step, and each entry satisfies its invariant. -/
  tracks : ∀ a, ∃ o, t.state.EntryIs a o ∧ Tracks (t.ghost a) o
  /-- Histories consist of accesses of the log at their address. -/
  accesses : ∀ a, ∀ r ∈ (t.ghost a).accesses, r ∈ log ∧ r.AccessAt a
  /-- The null address never has an entry. -/
  zero : t.state.EntryIs 0 none

theorem RunInvariant.init : RunInvariant [] Traced.init where
  tracks a := ⟨none, entryIs_init a, rfl⟩
  accesses a r hr := by cases hr
  zero := entryIs_init 0

section GhostStep

variable {s s' : DetectState} {record : Record} {report : Option Report}
  {ghost : Address → Ghost} {a : Address}

private theorem ghostStep_of_none (h : s'.EntryIs a none) :
    ghostStep s s' record report ghost a = .fresh := by
  rw [ghostStep, if_neg (by simp [h.hasEntry_iff])]

private theorem ghostStep_create {e : Entry} (h : s.EntryIs a none) (h' : s'.EntryIs a (some e))
    (hacc : record.AccessAt a) : ghostStep s s' record none ghost a = ⟨[record], false⟩ := by
  rw [ghostStep, if_pos (by simp [h'.hasEntry_iff]), if_neg (by simp [h.hasEntry_iff])]
  simp [hacc, Ghost.fresh]

theorem ghostStep_access {e e' : Entry} (h : s.EntryIs a (some e)) (h' : s'.EntryIs a (some e'))
    (hacc : record.AccessAt a) :
    ghostStep s s' record report ghost a
      = ⟨(ghost a).accesses ++ [record],
          (ghost a).reported || report.any fun rep ↦ rep.memoryAddress = a⟩ := by
  rw [ghostStep, if_pos (by simp [h'.hasEntry_iff]), if_pos (by simp [h.hasEntry_iff])]
  simp [hacc]

private theorem any_eq_false (hrep : ∀ rep, report = some rep → rep.memoryAddress ≠ a) :
    (report.any fun rep ↦ rep.memoryAddress = a) = false := by
  cases report with
  | none => rfl
  | some rep => simpa using hrep rep rfl

theorem ghostStep_of_unchanged {o : Option Entry} (h : s.EntryIs a o) (h' : s'.EntryIs a o)
    (ht : Tracks (ghost a) o) (hacc : o.isSome = true → ¬record.AccessAt a)
    (hrep : ∀ rep, report = some rep → rep.memoryAddress ≠ a) :
    ghostStep s s' record report ghost a = ghost a := by
  cases o with
  | none => rw [ghostStep_of_none h', ht]
  | some e =>
    rw [ghostStep, if_pos (by simp [h'.hasEntry_iff]), if_pos (by simp [h.hasEntry_iff])]
    simp [hacc rfl, any_eq_false hrep]

end GhostStep

section Step

variable {reuse : Bool} {log : List Record} {t t' : Traced} {record : Record}

/-- What one record does to an address keeps its history in step with its entry. -/
theorem Effect.tracks {s s' : DetectState} {report : Option Report} {ghost : Address → Ghost}
    {a : Address} {o o' : Option Entry} (heff : Effect reuse s record report a o o')
    (ho : s.EntryIs a o) (ho' : s'.EntryIs a o') (ht : Tracks (ghost a) o)
    (hzero : s.EntryIs 0 none)
    (hw : record.memoryAccess.isWrite = 0 ∨ record.memoryAccess.isWrite = 1
      ∨ record.type ≠ .memoryOp)
    (hno : record.AccessAt a → ∀ r ∈ (ghost a).accesses, r.recordNo = record.recordNo →
      r.threadId = record.threadId) :
    Tracks (ghostStep s s' record report ghost a) o' := by
  cases heff with
  | unchanged hacc hrel hrep =>
    have hnone : o.isSome = true → ¬record.AccessAt a := by
      intro hsome hat
      have ha := hacc hat
      subst ha
      rw [ho.unique hzero] at hsome
      exact absurd hsome (by simp)
    rwa [ghostStep_of_unchanged ho ho' ht hnone hrep]
  | created hacc ha hcount hrep =>
    subst hrep
    rw [ghostStep_create ho ho' hacc]
    exact EntryInvariant.create
      (hw.imp_right fun h ↦ h.resolve_right fun hne ↦ hne hacc.1)
  | @accessed e res hacc ha hres hrep =>
    have hany : (report.any fun rep ↦ rep.memoryAddress = a) = res.willReport := by
      rw [hrep]
      cases res.willReport <;> simp
    rw [ghostStep_access ho ho' hacc, hany]
    have hcount : record.memoryAccess.lockCount ≤ 10 := by
      by_contra hgt
      rw [ht.access_outOfBounds (hno hacc) (not_le.mp hgt)] at hres
      exact absurd hres (by simp)
    obtain ⟨res', hres', hinv, -⟩ := EntryInvariant.access ht (hno hacc) hcount
    obtain rfl := Except.ok.inj (hres.symm.trans hres')
    exact hinv
  | released htype hrel hrep => exact ghostStep_of_none ho'

theorem Effect.ghostStep_eq {s s' : DetectState} {report : Option Report} {ghost : Address → Ghost}
    {a : Address} {o o' : Option Entry} (heff : Effect reuse s record report a o o')
    (ho : s.EntryIs a o) (ho' : s'.EntryIs a o') (ht : Tracks (ghost a) o)
    (htype : record.type ≠ .memoryAlloc) (ha : a ≠ 0) :
    ghostStep s s' record report ghost a
      = ⟨(ghost a).accesses ++ [record].filter fun r ↦ r.AccessAt a,
          (ghost a).reported || report.any fun rep ↦ rep.memoryAddress = a⟩ := by
  cases heff with
  | unchanged hacc hrel hrep =>
    have hnot : ¬record.AccessAt a := fun hat ↦ ha (hacc hat)
    rw [ghostStep_of_unchanged ho ho' ht (fun _ ↦ hnot) hrep]
    simp [hnot, any_eq_false hrep]
  | created hacc ha hcount hrep =>
    subst hrep
    have hfresh : ghost a = .fresh := ht
    rw [ghostStep_create ho ho' hacc, hfresh]
    simp [Ghost.fresh, hacc]
  | accessed hacc =>
    rw [ghostStep_access ho ho' hacc, List.filter_cons_of_pos (by simpa using hacc),
      List.filter_nil]
  | released htype' => exact absurd htype' htype

private theorem mem_accesses_ghostStep {s s' : DetectState} {report : Option Report}
    {ghost : Address → Ghost} {a : Address} {r : Record}
    (h : r ∈ (ghostStep s s' record report ghost a).accesses) :
    r ∈ (ghost a).accesses ∨ r = record ∧ record.AccessAt a := by
  rw [ghostStep] at h
  split_ifs at h with h₁ h₂ h₃ h₃
  · rcases List.mem_append.mp h with h | h
    · exact Or.inl h
    · exact Or.inr ⟨List.mem_singleton.mp h, h₃⟩
  · exact Or.inl h
  · rcases List.mem_append.mp h with h | h
    · cases h
    · exact Or.inr ⟨List.mem_singleton.mp h, h₃⟩
  · cases h
  · cases h

theorem RunInvariant.inStep (h : RunInvariant log t) : t.state.InStep := by
  intro a
  obtain ⟨o, ho, -⟩ := h.tracks a
  exact ⟨o, ho⟩

theorem RunInvariant.numbers (h : RunInvariant log t) (hwf : WellFormedLog (log ++ [record]))
    {a : Address} (hacc : record.AccessAt a) : ∀ r ∈ (t.ghost a).accesses,
      r.recordNo = record.recordNo → r.threadId = record.threadId := by
  intro r hr
  obtain ⟨hmem, htype, -⟩ := h.accesses a r hr
  have hself : record ∈ log ++ [record] := List.mem_append_right _ (List.mem_singleton_self record)
  exact hwf.threadId r (List.mem_append_left _ hmem) record hself htype hacc.1

/-- **One record keeps the invariant.** -/
theorem tracedStep_invariant (h : RunInvariant log t) (hwf : WellFormedLog (log ++ [record]))
    (hstep : tracedStep reuse t record = .ok t') : RunInvariant (log ++ [record]) t' := by
  obtain ⟨report, hoff, -, hghost⟩ := tracedStep_eq_ok hstep
  have hself : record ∈ log ++ [record] := List.mem_append_right _ (List.mem_singleton_self record)
  refine ⟨?_, ?_, ?_⟩
  · intro a
    obtain ⟨o, ho, ht⟩ := h.tracks a
    obtain ⟨o', ho', heff⟩ := exists_effect h.inStep hoff ho
    refine ⟨o', ho', ?_⟩
    rw [hghost]
    refine heff.tracks ho ho' ht h.zero ?_ (h.numbers hwf)
    by_cases htype : record.type = .memoryOp
    · exact (hwf.isWrite record hself htype).imp_right Or.inl
    · exact Or.inr (Or.inr htype)
  · intro a r hr
    rw [hghost] at hr
    rcases mem_accesses_ghostStep hr with hr | ⟨rfl, hacc⟩
    · exact ⟨List.mem_append_left _ (h.accesses a r hr).1, (h.accesses a r hr).2⟩
    · exact ⟨hself, hacc⟩
  · obtain ⟨o', ho', heff⟩ := exists_effect h.inStep hoff h.zero
    cases heff with
    | unchanged => exact ho'
    | created hacc ha => exact absurd rfl ha
    | released => exact ho'

theorem tracedStep_frozen (h : RunInvariant log t) (hwf : WellFormedLog (log ++ [record]))
    (hstep : tracedStep reuse t record = .ok t') {a : Address} {e : Entry}
    (he : t.state.EntryIs a (some e)) (hrep : (t.ghost a).reported = true) :
    t'.state.EntryIs a none ∧ record.type = .memoryAlloc
        ∧ Releases reuse t.state record.memAllocOp a
      ∨ ∃ e', t'.state.EntryIs a (some e') ∧ (t'.ghost a).reported = true
          ∧ e'.recordSet = e.recordSet := by
  obtain ⟨report, hoff, -, hghost⟩ := tracedStep_eq_ok hstep
  obtain ⟨o, ho, ht⟩ := h.tracks a
  cases ho.unique he
  obtain ⟨o', ho', heff⟩ := exists_effect h.inStep hoff he
  have hghost' : (t'.ghost a).reported = true ∨ o' = none := by
    rw [hghost, ghostStep]
    cases o' with
    | none => exact Or.inr rfl
    | some e' =>
      refine Or.inl ?_
      rw [if_pos (by simp [ho'.hasEntry_iff]), if_pos (by simp [he.hasEntry_iff])]
      simp [hrep]
  cases heff with
  | unchanged => exact Or.inr ⟨e, ho', hghost'.resolve_right nofun, rfl⟩
  | @accessed _ res hacc ha hres =>
    refine Or.inr ⟨_, ho', hghost'.resolve_right nofun, ?_⟩
    by_cases hcount : record.memoryAccess.lockCount ≤ 10
    · obtain ⟨res', hres', -, -, hfrozen⟩ := EntryInvariant.access ht (h.numbers hwf hacc) hcount
      obtain rfl := Except.ok.inj (hres.symm.trans hres')
      exact (hfrozen hrep).1
    · rw [ht.access_outOfBounds (h.numbers hwf hacc) (not_le.mp hcount)] at hres
      exact absurd hres (by simp)
  | released htype hrel => exact Or.inl ⟨ho', htype, hrel⟩

theorem tracedStep_error (h : RunInvariant log t) (hwf : WellFormedLog (log ++ [record]))
    {f : Fault} (hstep : tracedStep reuse t record = .error f) :
    f = .outOfBounds ∧ record.type = .memoryOp ∧ 10 < record.memoryAccess.lockCount
      ∨ f = .eraseLoop ∧ record.type = .memoryAlloc ∧ reuse = true := by
  have hoff := tracedStep_eq_error hstep
  rw [offlineDetection] at hoff
  split at hoff
  · rename_i htype
    refine Or.inl ?_
    set a := record.memoryAccess.memoryAddress with ha
    by_cases hzero : a = 0
    · rw [detectAccess_zero hzero] at hoff
      exact absurd hoff (by simp)
    obtain ⟨o, ho, ht⟩ := h.tracks a
    cases o with
    | none =>
      rw [detectAccess_of_none hzero ho, Run.bind_eq_error] at hoff
      rcases hoff with hread | ⟨locks, -, hoff⟩
      · rw [readLocks] at hread
        split_ifs at hread with hcount
        cases hread
        exact ⟨rfl, htype, hcount⟩
      · cases hoff
    | some e =>
      rw [detectAccess_of_some hzero ho, Run.bind_eq_error] at hoff
      have hno := h.numbers hwf ⟨htype, ha.symm⟩
      rcases hoff with hcore | ⟨res, -, hoff⟩
      · by_cases hcount : record.memoryAccess.lockCount ≤ 10
        · obtain ⟨res, hres, -⟩ := EntryInvariant.access ht hno hcount
          cases hcore.symm.trans hres
        · have hgt := not_le.mp hcount
          cases hcore.symm.trans (ht.access_outOfBounds hno hgt)
          exact ⟨rfl, htype, hgt⟩
      · cases hoff
  · rename_i htype
    rw [Run.bind_eq_error] at hoff
    rcases hoff with halloc | ⟨s, -, hoff⟩
    · exact Or.inr ⟨(detectAlloc_error halloc).1, htype, (detectAlloc_error halloc).2⟩
    · cases hoff
  · exact absurd hoff (by simp)

end Step

/-! ## Logs whose releases are in order

The erasing loops are defined when the end of a released range is not below its start. That holds
when sizes are not negative and ranges do not wrap around, in the releases and in the allocations
from which a release may take its size. -/

/-- The range of an allocation or release lies in the address space. -/
def MemAllocOp.Fits (op : MemAllocOp) : Prop :=
  0 ≤ op.size ∧ (op.startAddress.toNat : ℤ) + op.size < 2 ^ 64

instance (op : MemAllocOp) : Decidable op.Fits := inferInstanceAs (Decidable (_ ∧ _))

/-- Every allocation remembered lies in the address space. -/
def HeapFits (s : DetectState) : Prop :=
  ∀ a n, s.heapMap.find? a = some n → 0 ≤ n ∧ (a.toNat : ℤ) + n < 2 ^ 64

private theorem le_add_ofInt {a : Address} {n : ℤ} (hn : 0 ≤ n) (h : (a.toNat : ℤ) + n < 2 ^ 64) :
    a ≤ a + BitVec.ofInt 64 n := by
  rw [BitVec.le_def, BitVec.toNat_add, BitVec.toNat_ofInt]
  omega

private theorem heapFits_of_deleteMapEntries {s s' : DetectState} {lo hi : Address} (h : HeapFits s)
    (hdel : deleteMapEntries s lo hi = .ok s') : HeapFits s' := by
  obtain ⟨locks, records, statuses, -, -, -, rfl⟩ := deleteMapEntries_eq_ok hdel
  exact h

private theorem heapFits_heapSize {s : DetectState} (h : HeapFits s) (a : Address) :
    HeapFits (heapSize s a).1 := by
  intro b n hb
  rw [heapSize, OrderedMap.find?_insert] at hb
  split_ifs at hb with hba
  · subst hba
    cases hfind : s.heapMap.find? b with
    | none =>
      rw [hfind, Option.getD_none] at hb
      have hlt := b.isLt
      rw [← Option.some.inj hb]
      exact ⟨le_rfl, by omega⟩
    | some m =>
      rw [hfind] at hb
      obtain rfl := Option.some.inj hb
      exact h b m hfind
  · exact h b n hb

private theorem heapSize_fits {s : DetectState} (h : HeapFits s) (a : Address) :
    0 ≤ (heapSize s a).2 ∧ (a.toNat : ℤ) + (heapSize s a).2 < 2 ^ 64 := by
  refine heapFits_heapSize h a a _ ?_
  simp [heapSize]

theorem detectAlloc_of_fits (reuse : Bool) {s : DetectState} {op : MemAllocOp} (hop : op.Fits)
    (hs : HeapFits s) : ∃ s', detectAlloc reuse s op = .ok s' ∧ HeapFits s' := by
  have hle : op.startAddress ≤ op.startAddress + BitVec.ofInt 64
      (if op.size = 0 then (heapSize s op.startAddress).2 else op.size) := by
    split_ifs
    · exact le_add_ofInt (heapSize_fits hs _).1 (heapSize_fits hs _).2
    · exact le_add_ofInt hop.1 hop.2
  obtain ⟨s', hs'⟩ := exists_detectAlloc reuse hle
  refine ⟨s', hs', ?_⟩
  rw [detectAlloc] at hs'
  split_ifs at hs' with hreuse halloc hzero hsize
  · obtain rfl := Except.ok.inj hs'
    intro a n ha
    rw [OrderedMap.find?_assign] at ha
    split_ifs at ha with hstart
    · simp only [OrderedMap.find?_insert, if_true, Option.map_some] at ha
      rw [← Option.some.inj ha, hstart]
      exact hop
    · rw [OrderedMap.find?_insert, if_neg hstart] at ha
      exact hs a n ha
  · obtain rfl := Except.ok.inj hs'
    exact hs
  · simp only at hs'
    split_ifs at hs'
    · obtain rfl := Except.ok.inj hs'
      exact heapFits_heapSize hs _
    · exact heapFits_of_deleteMapEntries (heapFits_heapSize hs _) hs'
  · exact heapFits_of_deleteMapEntries hs hs'
  · obtain rfl := Except.ok.inj hs'
    exact hs

theorem heapMap_detectAccess {s s' : DetectState} {record : Record} {report : Option Report}
    (h : detectAccess s record = .ok (s', report)) : s'.heapMap = s.heapMap := by
  simp only [detectAccess] at h
  split_ifs at h
  · cases h
    rfl
  · rw [Run.bind_eq_ok] at h
    obtain ⟨locks, -, h⟩ := h
    cases h
    rfl
  · split at h
    · rw [Run.bind_eq_ok] at h
      obtain ⟨res, -, h⟩ := h
      have hpair := Except.ok.inj h
      have hs' : s' = (finishAccess s record.memoryAccess.memoryAddress res).1 := by rw [hpair]
      rw [hs', finishAccess]
      split_ifs <;> rfl
    · exact absurd h (by simp)

private theorem heapFits_tracedStep {reuse : Bool} {t t' : Traced} {record : Record}
    (h : HeapFits t.state) (hfits : record.type = .memoryAlloc → record.memAllocOp.Fits)
    (hstep : tracedStep reuse t record = .ok t') : HeapFits t'.state := by
  obtain ⟨report, hoff, -, -⟩ := tracedStep_eq_ok hstep
  rw [offlineDetection] at hoff
  split at hoff
  · intro a n
    rw [heapMap_detectAccess hoff]
    exact h a n
  · rename_i htype
    rw [Run.bind_eq_ok] at hoff
    obtain ⟨s, hs, hoff⟩ := hoff
    obtain ⟨s', hs', hheap⟩ := detectAlloc_of_fits reuse (hfits htype) h
    obtain rfl := Except.ok.inj (hs.symm.trans hs')
    have heq : s = t'.state := congrArg Prod.fst (Except.ok.inj hoff)
    exact heq ▸ hheap
  · have heq : t.state = t'.state := congrArg Prod.fst (Except.ok.inj hoff)
    exact heq ▸ h

/-! ## Whole logs -/

section Log

variable {reuse : Bool} {log : List Record}

theorem tracedRun_invariant (hwf : WellFormedLog log) {t : Traced}
    (h : tracedRun reuse log = .ok t) : RunInvariant log t :=
  Run.induction h RunInvariant.init fun _ _ _ _ hpre hinv hstep ↦
    tracedStep_invariant hinv (hwf.of_isPrefix hpre) hstep

private theorem tracedRun_ok_or_eraseLoop (hwf : WellFormedLog log)
    (hcount : ∀ r ∈ log, r.type = .memoryOp → r.memoryAccess.lockCount ≤ 10) :
    (∃ t, tracedRun reuse log = .ok t) ∨ tracedRun reuse log = .error .eraseLoop := by
  have hstep : ∀ l' x t, l' ++ [x] <+: log → RunInvariant l' t →
      (∃ t', tracedStep reuse t x = .ok t' ∧ RunInvariant (l' ++ [x]) t')
        ∨ ∃ f, tracedStep reuse t x = .error f ∧ f = .eraseLoop := by
    intro l' x t hpre hinv
    have hx : x ∈ log := hpre.subset (List.mem_append_right _ (List.mem_singleton_self x))
    cases hstep : tracedStep reuse t x with
    | ok t' => exact Or.inl ⟨t', rfl, tracedStep_invariant hinv (hwf.of_isPrefix hpre) hstep⟩
    | error f =>
      refine Or.inr ⟨f, rfl, ?_⟩
      rcases tracedStep_error hinv (hwf.of_isPrefix hpre) hstep with ⟨-, htype, hgt⟩ | ⟨hf, -⟩
      · exact absurd (hcount x hx htype) (not_le.mpr hgt)
      · exact hf
  rcases Run.progress log RunInvariant.init hstep with ⟨t, ht, -⟩ | ⟨f, hf, rfl⟩
  · exact Or.inl ⟨t, ht⟩
  · exact Or.inr hf

/-- With releases in order, or the memory-reuse filter off, the detector gets through. -/
theorem exists_tracedRun (hwf : WellFormedLog log)
    (hcount : ∀ r ∈ log, r.type = .memoryOp → r.memoryAccess.lockCount ≤ 10)
    (hfits : reuse = true → ∀ r ∈ log, r.type = .memoryAlloc → r.memAllocOp.Fits) :
    ∃ t, tracedRun reuse log = .ok t := by
  have hstep : ∀ l' x t, l' ++ [x] <+: log →
      (RunInvariant l' t ∧ (reuse = true → HeapFits t.state)) →
      (∃ t', tracedStep reuse t x = .ok t'
          ∧ RunInvariant (l' ++ [x]) t' ∧ (reuse = true → HeapFits t'.state))
        ∨ ∃ f, tracedStep reuse t x = .error f ∧ False := by
    intro l' x t hpre hinv
    have hx : x ∈ log := hpre.subset (List.mem_append_right _ (List.mem_singleton_self x))
    cases hstep : tracedStep reuse t x with
    | ok t' =>
      exact Or.inl ⟨t', rfl, tracedStep_invariant hinv.1 (hwf.of_isPrefix hpre) hstep,
        fun hr ↦ heapFits_tracedStep (hinv.2 hr) (hfits hr x hx) hstep⟩
    | error f =>
      rcases tracedStep_error hinv.1 (hwf.of_isPrefix hpre) hstep
        with ⟨-, htype, hgt⟩ | ⟨-, htype, hr⟩
      · exact absurd (hcount x hx htype) (not_le.mpr hgt)
      · obtain ⟨s', hs', -⟩ := detectAlloc_of_fits reuse (hfits hr x hx htype) (hinv.2 hr)
        have hoff := tracedStep_eq_error hstep
        rw [offlineDetection, htype, hs'] at hoff
        exact absurd hoff (by simp)
  have hinit : RunInvariant [] Traced.init ∧ (reuse = true → HeapFits Traced.init.state) :=
    ⟨RunInvariant.init, fun _ a n h ↦ by cases h⟩
  rcases Run.progress (P := fun l t ↦ RunInvariant l t ∧ (reuse = true → HeapFits t.state)) log
    hinit hstep with ⟨t, ht, -⟩ | ⟨-, -, hfalse⟩
  · exact ⟨t, ht⟩
  · exact hfalse.elim

theorem tracedRun_append {pre mid : List Record} {t : Traced} (h : tracedRun reuse pre = .ok t) :
    tracedRun reuse (pre ++ mid) = mid.foldlM (tracedStep reuse) t := by
  rw [tracedRun, List.foldlM_append, ← tracedRun, h]
  rfl

/-- A reported address keeps its record set and its status as long as it keeps its entry. -/
theorem frozen_of_hasEntry (hwf : WellFormedLog log) {pre mid : List Record} {t t' : Traced}
    (hpre : pre ++ mid <+: log) (ht : tracedRun reuse pre = .ok t)
    (ht' : tracedRun reuse (pre ++ mid) = .ok t') {a : Address} {e : Entry}
    (he : t.state.EntryIs a (some e)) (hrep : (t.ghost a).reported = true)
    (hkeep : ∀ mid' t'', mid' <+: mid → tracedRun reuse (pre ++ mid') = .ok t'' →
      t''.state.HasEntry a) :
    ∃ e', t'.state.EntryIs a (some e') ∧ (t'.ghost a).reported = true
      ∧ e'.recordSet = e.recordSet := by
  have hrun := ht'
  rw [tracedRun_append ht] at hrun
  -- along `mid`, the entry is there and unchanged, and the run so far is a run of the log
  have hind := Run.induction
    (P := fun mid' s ↦ tracedRun reuse (pre ++ mid') = .ok s
      ∧ ∃ e', s.state.EntryIs a (some e') ∧ (s.ghost a).reported = true
        ∧ e'.recordSet = e.recordSet) hrun
    ⟨by rw [List.append_nil]; exact ht, e, he, hrep, rfl⟩
    fun mid' x s s' hmid ⟨hs, e', he', hrep', hset⟩ hstep ↦ by
      have hlog : (pre ++ mid') ++ [x] <+: log := by
        rw [List.append_assoc]
        exact ((List.prefix_append_right_inj pre).mpr hmid).trans hpre
      have hs' : tracedRun reuse (pre ++ (mid' ++ [x])) = .ok s' := by
        rw [← List.append_assoc, tracedRun, Run.foldlM_append_singleton, ← tracedRun, hs]
        exact hstep
      have hinv : RunInvariant (pre ++ mid') s :=
        tracedRun_invariant (hwf.of_isPrefix ((List.prefix_append _ [x]).trans hlog)) hs
      rcases tracedStep_frozen hinv (hwf.of_isPrefix hlog) hstep he' hrep'
        with ⟨hnone, -⟩ | ⟨e'', he'', hrep'', hset'⟩
      · have hhas := hkeep (mid' ++ [x]) s' hmid hs'
        rw [hnone.hasEntry_iff] at hhas
        exact absurd hhas (by simp)
      · exact ⟨hs', e'', he'', hrep'', hset'.trans hset⟩
  exact hind.2

/-- **The invariant of the detector.** On a well-formed log no assertion fires after any prefix:
the detector gets through, unless the memory-reuse filter meets a release whose range is reversed.
In every state reached, each address with an entry satisfies `EntryInvariant`, and once it has been
reported its status stays `4` and its record set stays the same until the entry is removed. -/
theorem detector_invariant (hwf : WellFormedLog log)
    (hcount : ∀ r ∈ log, r.type = .memoryOp → r.memoryAccess.lockCount ≤ 10)
    {pre : List Record} (hpre : pre <+: log) :
    ((∃ t, tracedRun reuse pre = .ok t) ∨ tracedRun reuse pre = .error .eraseLoop)
      ∧ ((reuse = true → ∀ r ∈ log, r.type = .memoryAlloc → r.memAllocOp.Fits) →
          ∃ t, tracedRun reuse pre = .ok t)
      ∧ ∀ t, tracedRun reuse pre = .ok t →
          (∀ a, t.state.HasEntry a → ∃ e, t.state.EntryIs a (some e)
            ∧ EntryInvariant (t.ghost a) e)
          ∧ ∀ mid t' a e, pre ++ mid <+: log → tracedRun reuse (pre ++ mid) = .ok t' →
              t.state.EntryIs a (some e) → (t.ghost a).reported = true →
              (∀ mid' t'', mid' <+: mid → tracedRun reuse (pre ++ mid') = .ok t'' →
                t''.state.HasEntry a) →
              ∃ e', t'.state.EntryIs a (some e') ∧ e'.status = 4
                ∧ e'.recordSet = e.recordSet := by
  have hcount' : ∀ r ∈ pre, r.type = .memoryOp → r.memoryAccess.lockCount ≤ 10 := by
    intro r hr
    exact hcount r (hpre.subset hr)
  refine ⟨tracedRun_ok_or_eraseLoop (hwf.of_isPrefix hpre) hcount', ?_, ?_⟩
  · intro hfits
    exact exists_tracedRun (hwf.of_isPrefix hpre) hcount' fun hr r hmem ↦
      hfits hr r (hpre.subset hmem)
  intro t ht
  constructor
  · intro a hhas
    obtain ⟨o, ho, htracks⟩ := (tracedRun_invariant (hwf.of_isPrefix hpre) ht).tracks a
    cases o with
    | none =>
      rw [ho.hasEntry_iff] at hhas
      exact absurd hhas (by simp)
    | some e => exact ⟨e, ho, htracks⟩
  · intro mid t' a e hmid ht' he hrep hkeep
    obtain ⟨e', he', hrep', hset⟩ := frozen_of_hasEntry hwf hmid ht ht' he hrep hkeep
    obtain ⟨o, ho, htracks⟩ := (tracedRun_invariant (hwf.of_isPrefix hmid) ht').tracks a
    cases ho.unique he'
    exact ⟨e', he', htracks.reported hrep', hset⟩

end Log

/-- A memory access with no registers and no stack trace. -/
def sampleAccess (recordNo threadId : ℤ) (memoryAddress : Address) (isWrite : ℤ)
    (locks : List Address) : Record :=
  { Record.zeroed with
    recordNo
    threadId
    type := .memoryOp
    memoryAccess :=
      { Record.zeroed.memoryAccess with
        memoryAddress
        isWrite
        lockCount := locks.length
        lockset := Vector.ofFn fun i ↦ locks.getD i 0 } }

/-- A write and a read by different threads without a lock. -/
def unlockedPair : List Record := [sampleAccess 1 7 64 1 [], sampleAccess 2 8 64 0 []]

theorem detector_invariant_unlockedPair :
    WellFormedLog unlockedPair ∧ ∃ t, tracedRun true unlockedPair = .ok t := by
  have hwf : WellFormedLog unlockedPair := ⟨by decide, by decide⟩
  exact ⟨hwf, (detector_invariant hwf (by decide) (List.prefix_refl _)).2.1 (by decide)⟩

end Racez
