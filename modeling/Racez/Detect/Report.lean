import Racez.Detect.Invariant

/-!
# Which races are reported

The invariant of the detector says what it knows about an address after a log. Here that is turned
into statements about its output.

A report is sound: the accesses to the address since its entry was created are racy, and the record
set that is printed contains two conflicting accesses. It is made once for each life of an entry.

A race is not always reported. The step from state 3 that meets a new thread does not look at the
lockset, so when the last common lock is lost at such a step and only further new threads follow,
nothing is printed. `reported_iff_not_late` says that this is the only way to miss a race.

## From the invariant to the output

`report_step` is the step that makes a report: an access at the address, in a history not reported
before. The invariant holds before and after it, so the history with the access is racy, and its
record set contains a thread's write and an access of another thread.

Soundness speaks about the accesses since the entry was created. Without releases these are all
accesses of the log at the address (`ghost_of_no_alloc`), and that is where the exact statement on
missed races holds. With releases `reported_or_released` says that between two moments a reported
entry is kept, or some release removes it; two reports of one address therefore have a release in
between.
-/

open Container

namespace Racez

open DetectState Discipline

/-! ## Logs without releases -/

/-- The accesses of a log at an address. -/
def accessesAt (a : Address) (log : List Record) : List Record := log.filter fun r ↦ r.AccessAt a

section Complete

variable {reuse : Bool} {log : List Record} {a : Address}

theorem ghost_of_no_alloc (hwf : WellFormedLog log) (halloc : ∀ r ∈ log, r.type ≠ .memoryAlloc)
    (ha : a ≠ 0) {t : Traced} (h : tracedRun reuse log = .ok t) :
    RunInvariant log t ∧ (t.ghost a).accesses = accessesAt a log
      ∧ ((t.ghost a).reported = true ↔ ∃ rep ∈ t.reports, rep.memoryAddress = a) := by
  refine Run.induction (P := fun l t ↦ RunInvariant l t ∧ (t.ghost a).accesses = accessesAt a l
    ∧ ((t.ghost a).reported = true ↔ ∃ rep ∈ t.reports, rep.memoryAddress = a)) h
    ⟨RunInvariant.init, rfl, by simp [Traced.init, Ghost.fresh]⟩ ?_
  rintro l x t t' hpre ⟨hinv, hacc, hrep⟩ hstep
  refine ⟨tracedStep_invariant hinv (hwf.of_isPrefix hpre) hstep, ?_⟩
  have hx : x ∈ log := hpre.subset (List.mem_append_right _ (List.mem_singleton_self x))
  obtain ⟨report, hoff, hreports, hghost⟩ := tracedStep_eq_ok hstep
  obtain ⟨o, ho, ht⟩ := hinv.tracks a
  obtain ⟨o', ho', heff⟩ := exists_effect hinv.inStep hoff ho
  rw [hghost, heff.ghostStep_eq ho ho' ht (halloc x hx) ha, hreports]
  refine ⟨?_, ?_⟩
  · rw [hacc, accessesAt, accessesAt, List.filter_append]
  · rw [Bool.or_eq_true, hrep]
    cases report <;> simp [or_and_right, exists_or]

/-- **Completeness, exactly.** On a log without releases a race at an address is reported, unless
its accesses fall into a part that is already shared and modified under a common lock, and first
accesses of further threads. -/
theorem reported_iff_not_late (hwf : WellFormedLog log)
    (halloc : ∀ r ∈ log, r.type ≠ .memoryAlloc) (ha : a ≠ 0) :
    ((∀ r ∈ log, r.type = .memoryOp → r.memoryAccess.lockCount ≤ 10) →
        ∃ out, processLog reuse log = .ok out)
      ∧ ∀ s reports, processLog reuse log = .ok (s, reports) →
        ((accessDiscipline.Racy (accessesAt a log) →
            (∃ rep ∈ reports, rep.memoryAddress = a) ∧ s.rwMap.find? a = some 4)
          ↔ ¬(accessDiscipline.Racy (accessesAt a log)
            ∧ accessDiscipline.Late (accessesAt a log))) := by
  constructor
  · intro hcount
    obtain ⟨t, ht⟩ : ∃ t, tracedRun reuse log = .ok t :=
      exists_tracedRun hwf hcount fun _ r hr htype ↦ absurd htype (halloc r hr)
    rw [processLog_eq_map_tracedRun, ht]
    exact ⟨_, rfl⟩
  intro s reports h
  obtain ⟨t, ht, rfl, rfl⟩ := exists_tracedRun_of_processLog h
  obtain ⟨hinv, hacc, hrep⟩ := ghost_of_no_alloc hwf halloc ha ht
  rw [← hacc, ← hrep]
  by_cases hracy : accessDiscipline.Racy (t.ghost a).accesses
  · obtain ⟨o, ho, htracks⟩ := hinv.tracks a
    cases o with
    | none =>
      -- an address without an entry has not been accessed
      rw [show t.ghost a = .fresh from htracks] at hracy
      exact absurd hracy.1 (by simp [Ghost.fresh, Shared, threads])
    | some e =>
      have hstatus : (t.ghost a).reported = true → t.state.rwMap.find? a = some 4 := by
        intro hr
        rw [ho.2.1, htracks.reported hr]
      rw [← not_alarmed_iff_late hracy, ← htracks.alarmed]
      constructor
      · rintro himp ⟨-, hnot⟩
        exact hnot (himp hracy).1
      · intro hnot _
        have hr : (t.ghost a).reported = true := not_not.mp fun hno ↦ hnot ⟨hracy, hno⟩
        exact ⟨hr, hstatus hr⟩
  · exact iff_of_true (fun h ↦ absurd h hracy) fun h ↦ hracy h.1

end Complete

theorem reported_iff_not_late_unlockedPair : WellFormedLog unlockedPair
    ∧ ∃ s reports, processLog false unlockedPair = .ok (s, reports)
      ∧ ((accessDiscipline.Racy (accessesAt 64 unlockedPair) →
            (∃ rep ∈ reports, rep.memoryAddress = 64) ∧ s.rwMap.find? 64 = some 4)
          ↔ ¬(accessDiscipline.Racy (accessesAt 64 unlockedPair)
            ∧ accessDiscipline.Late (accessesAt 64 unlockedPair))) := by
  have hwf : WellFormedLog unlockedPair := ⟨by decide, by decide⟩
  have hthm := @reported_iff_not_late false unlockedPair 64 hwf (by decide) (by decide)
  obtain ⟨⟨s, reports⟩, hrun⟩ := hthm.1 (by decide)
  exact ⟨hwf, s, reports, hrun, hthm.2 s reports hrun⟩

/-- Two threads write and read under a lock, a third reads without it and is never seen again. -/
def lateReader : List Record :=
  [sampleAccess 1 7 64 1 [8], sampleAccess 2 8 64 0 [8], sampleAccess 3 9 64 0 []]

private theorem racy_lateReader : accessDiscipline.Racy (accessesAt 64 lateReader) := by
  have hall : accessesAt 64 lateReader = lateReader := by decide
  rw [hall]
  refine ⟨by decide, by decide, ?_⟩
  intro l hl
  have hmem := hl (sampleAccess 3 9 64 0 []) (by decide)
  exact absurd hmem (by simp [accessDiscipline, sampleAccess, MemoryAccess.locks])

theorem lateReader_not_reported : WellFormedLog lateReader
    ∧ (∀ r ∈ lateReader, r.type = .memoryOp ∧ r.memoryAccess.lockCount ≤ 10)
    ∧ accessDiscipline.Racy (accessesAt 64 lateReader)
    ∧ ∃ s, processLog false lateReader = .ok (s, []) ∧ s.rwMap.find? 64 = some 3 := by
  refine ⟨⟨by decide, by decide⟩, by decide, racy_lateReader, _, rfl, rfl⟩

/-! ## Reports are sound and not repeated -/

section Sound

variable {reuse : Bool} {log pre mid : List Record} {record : Record} {t t' : Traced}
  {report : Report} {a : Address}

theorem tracedStep_of_tracedRun (ht : tracedRun reuse pre = .ok t)
    (ht' : tracedRun reuse (pre ++ [record]) = .ok t') : tracedStep reuse t record = .ok t' := by
  rwa [tracedRun, Run.foldlM_append_singleton, ← tracedRun, ht] at ht'

/-- A report comes from a call of `core_detection` on the entry of its address. -/
theorem exists_coreDetection_of_report (h : RunInvariant log t)
    (hoff : offlineDetection reuse t.state record = .ok (t'.state, some report)) :
    ∃ e res, record.AccessAt report.memoryAddress
      ∧ t.state.EntryIs report.memoryAddress (some e)
      ∧ coreDetection record e.recordSet e.status e.lockset = .ok res
      ∧ res.willReport = true
      ∧ report.recordSet = res.recordSet
      ∧ t'.state.EntryIs report.memoryAddress (some ⟨res.recordSet, res.status, res.lockset⟩) := by
  obtain ⟨o, ho, -⟩ := h.tracks report.memoryAddress
  obtain ⟨o', ho', heff⟩ := exists_effect h.inStep hoff ho
  cases heff with
  | unchanged hacc hrel hrep => exact absurd rfl (hrep report rfl)
  | created hacc ha hcount hrep => exact absurd hrep (by simp)
  | @accessed e res hacc ha hres hrep =>
    split_ifs at hrep with hwill
    exact ⟨e, res, hacc, ho, hres, hwill, by rw [Option.some.inj hrep], ho'⟩
  | released htype hrel hrep => exact absurd hrep (by simp)

theorem report_step (h : RunInvariant log t) (hwf : WellFormedLog (log ++ [record]))
    (hstep : tracedStep reuse t record = .ok t')
    (hoff : offlineDetection reuse t.state record = .ok (t'.state, some report)) :
    (t.ghost report.memoryAddress).reported = false
      ∧ (t'.ghost report.memoryAddress).reported = true
      ∧ t'.state.HasEntry report.memoryAddress
      ∧ accessDiscipline.Racy (t'.ghost report.memoryAddress).accesses
      ∧ accessDiscipline.Evidence (t'.ghost report.memoryAddress).accesses
          report.recordSet.elems := by
  obtain ⟨report', hoff', -, hghost⟩ := tracedStep_eq_ok hstep
  have hreport : report' = some report :=
    congrArg Prod.snd (Except.ok.inj (hoff'.symm.trans hoff))
  subst hreport
  obtain ⟨e, res, hacc, ho, hres, hwill, hset, ho'⟩ := exists_coreDetection_of_report h hoff
  obtain ⟨o, htracked, ht⟩ := h.tracks report.memoryAddress
  obtain rfl : o = some e := htracked.unique ho
  have hnew : t'.ghost report.memoryAddress
      = ⟨(t.ghost report.memoryAddress).accesses ++ [record], true⟩ := by
    rw [hghost, ghostStep_access ho ho' hacc]
    simp
  by_cases hcount : record.memoryAccess.lockCount ≤ 10
  · obtain ⟨res', hres', -, hsound, -⟩ := EntryInvariant.access ht (h.numbers hwf hacc) hcount
    obtain rfl := Except.ok.inj (hres.symm.trans hres')
    rw [hset, hnew]
    obtain ⟨hunrep, hracy, hE⟩ := hsound hwill
    exact ⟨hunrep, rfl, by simp [ho'.hasEntry_iff], hracy, hE⟩
  · rw [ht.access_outOfBounds (h.numbers hwf hacc) (not_le.mp hcount)] at hres
    exact absurd hres (by simp)

theorem not_reported_of_commonLock (hwf : WellFormedLog log) {l : Address}
    (hlock : ∀ r ∈ log, r.AccessAt a → l ∈ r.memoryAccess.locks)
    (h : tracedRun reuse log = .ok t) : ∀ rep ∈ t.reports, rep.memoryAddress ≠ a := by
  refine (Run.induction (P := fun l t ↦ RunInvariant l t
    ∧ ∀ rep ∈ t.reports, rep.memoryAddress ≠ a) h ⟨RunInvariant.init, by simp [Traced.init]⟩ ?_).2
  rintro pre record t t' hpre ⟨hinv, hnone⟩ hstep
  have hinv' := tracedStep_invariant hinv (hwf.of_isPrefix hpre) hstep
  refine ⟨hinv', ?_⟩
  obtain ⟨report, hoff, hreports, -⟩ := tracedStep_eq_ok hstep
  rw [hreports]
  intro rep hrep
  rcases List.mem_append.mp hrep with hold | hnew
  · exact hnone rep hold
  -- a new report would say that the history is racy
  obtain rfl := Option.mem_toList.mp hnew
  rintro rfl
  obtain ⟨-, -, -, hracy, -⟩ := report_step hinv (hwf.of_isPrefix hpre) hstep hoff
  refine hracy.2.2 l ?_
  intro r hr
  obtain ⟨hmem, hacc⟩ := hinv'.accesses _ r hr
  exact List.mem_toFinset.mpr (hlock r (hpre.subset hmem) hacc)

/-- Between two moments a reported entry is kept, or some release removes it. -/
theorem reported_or_released (hwf : WellFormedLog (pre ++ mid))
    (ht : tracedRun reuse pre = .ok t) (ht' : tracedRun reuse (pre ++ mid) = .ok t') {e : Entry}
    (he : t.state.EntryIs a (some e)) (hrep : (t.ghost a).reported = true) :
    (∃ e', t'.state.EntryIs a (some e') ∧ (t'.ghost a).reported = true)
      ∨ ∃ mid₁ d mid₂ u u', mid = mid₁ ++ d :: mid₂
          ∧ tracedRun reuse (pre ++ mid₁) = .ok u ∧ tracedRun reuse (pre ++ mid₁ ++ [d]) = .ok u'
          ∧ u.state.HasEntry a ∧ d.type = .memoryAlloc ∧ Releases reuse u.state d.memAllocOp a
          ∧ ¬u'.state.HasEntry a := by
  induction mid using List.reverseRecOn generalizing t' with
  | nil =>
    rw [List.append_nil] at ht'
    obtain rfl := Except.ok.inj (ht.symm.trans ht')
    exact Or.inl ⟨e, he, hrep⟩
  | append_singleton mid d ih =>
    rw [← List.append_assoc] at hwf ht'
    have hrun := ht'
    rw [tracedRun, Run.foldlM_append_singleton, ← tracedRun, Run.bind_eq_ok] at hrun
    obtain ⟨u, hu, hstep⟩ := hrun
    have hwf' : WellFormedLog (pre ++ mid) := hwf.of_isPrefix (List.prefix_append _ _)
    rcases ih hwf' hu with ⟨e', he', hrep'⟩ | ⟨mid₁, d', mid₂, v, v', rfl, hrest⟩
    · rcases tracedStep_frozen (tracedRun_invariant hwf' hu) hwf hstep he' hrep'
        with ⟨hnone, htype, hrel⟩ | ⟨e'', he'', hrep'', -⟩
      · exact Or.inr ⟨mid, d, [], u, t', rfl, hu, ht', by simp [he'.hasEntry_iff], htype, hrel,
          by simp [hnone.hasEntry_iff]⟩
      · exact Or.inl ⟨e'', he'', hrep''⟩
    · exact Or.inr ⟨mid₁, d', mid₂ ++ [d], v, v', by simp, hrest⟩

/-- **Soundness of reports.** When `report_error` is called at `record`, the accesses to the
address since its entry was created are racy and the record set handed over contains a conflicting
pair; if the address was reported before, a release removed its entry in between. -/
theorem report_sound (hwf : WellFormedLog log) (hpre : pre ++ [record] <+: log)
    (ht : tracedRun reuse pre = .ok t) (ht' : tracedRun reuse (pre ++ [record]) = .ok t')
    (hoff : offlineDetection reuse t.state record = .ok (t'.state, some report)) :
    accessDiscipline.Racy (t'.ghost report.memoryAddress).accesses
      ∧ (∃ x ∈ report.recordSet, ∃ y ∈ report.recordSet, x.threadId ≠ y.threadId
          ∧ (x.memoryAccess.isWrite = 1 ∨ y.memoryAccess.isWrite = 1))
      ∧ ∀ pre₁ record₁ mid₁ t₁ t₁' report₁, pre = pre₁ ++ [record₁] ++ mid₁ →
          tracedRun reuse pre₁ = .ok t₁ → tracedRun reuse (pre₁ ++ [record₁]) = .ok t₁' →
          offlineDetection reuse t₁.state record₁ = .ok (t₁'.state, some report₁) →
          report₁.memoryAddress = report.memoryAddress →
          ∃ mid₂ d mid₃ u u', mid₁ = mid₂ ++ d :: mid₃
            ∧ tracedRun reuse (pre₁ ++ [record₁] ++ mid₂) = .ok u
            ∧ tracedRun reuse (pre₁ ++ [record₁] ++ mid₂ ++ [d]) = .ok u'
            ∧ u.state.HasEntry report.memoryAddress ∧ d.type = .memoryAlloc
            ∧ Releases reuse u.state d.memAllocOp report.memoryAddress
            ∧ ¬u'.state.HasEntry report.memoryAddress := by
  have hwf' := hwf.of_isPrefix hpre
  have hwfpre := hwf'.of_isPrefix (List.prefix_append pre [record])
  obtain ⟨hunrep, -, -, hracy, hE⟩ := report_step (tracedRun_invariant hwfpre ht) hwf'
    (tracedStep_of_tracedRun ht ht') hoff
  refine ⟨hracy, ?_, ?_⟩
  · obtain ⟨x, hx, y, hy, hne, hw⟩ := hE.exists_conflict hracy.1 hracy.2.1
    exact ⟨x, hx, y, hy, hne, by simpa using hw⟩
  · rintro pre₁ record₁ mid₁ t₁ t₁' report₁ rfl ht₁ ht₁' hoff₁ haddr
    -- after the first report the entry is there and marked as reported
    have hwf₁ : WellFormedLog (pre₁ ++ [record₁]) := hwfpre.of_isPrefix (List.prefix_append _ mid₁)
    have hinv₁ := tracedRun_invariant (hwf₁.of_isPrefix (List.prefix_append pre₁ [record₁])) ht₁
    obtain ⟨-, hrep₁, hhas₁, -⟩ :=
      report_step hinv₁ hwf₁ (tracedStep_of_tracedRun ht₁ ht₁') hoff₁
    rw [haddr] at hrep₁ hhas₁
    obtain ⟨o, ho, -⟩ := (tracedRun_invariant hwf₁ ht₁').tracks report.memoryAddress
    obtain ⟨e, rfl⟩ := Option.isSome_iff_exists.mp (ho.hasEntry_iff.mp hhas₁)
    -- it cannot have stayed so until the second one
    rcases reported_or_released hwfpre ht₁' ht ho hrep₁ with ⟨e', -, hrep⟩ | hreleased
    · rw [hunrep] at hrep
      exact absurd hrep (by simp)
    · exact hreleased

/-- The unlocked pair is reported at its second access. -/
theorem report_sound_unlockedPair : ∃ t t' report,
    tracedRun true (unlockedPair.take 1) = .ok t ∧ tracedRun true unlockedPair = .ok t'
      ∧ offlineDetection true t.state (sampleAccess 2 8 64 0 []) = .ok (t'.state, some report)
      ∧ accessDiscipline.Racy (t'.ghost report.memoryAddress).accesses :=
  have hwf : WellFormedLog unlockedPair := ⟨by decide, by decide⟩
  ⟨_, _, _, rfl, rfl, rfl, (@report_sound true unlockedPair (unlockedPair.take 1)
    (sampleAccess 2 8 64 0 []) _ _ _ hwf (List.prefix_refl _) rfl rfl rfl).1⟩

end Sound

end Racez
