import Racez.Detect.Independence
import Racez.Detect.Report

/-!
# More locks, fewer warnings

Two logs with the same records, except that the accesses of the second are under fewer locks. Their
runs part company as soon as one of them has reported an address, since a reported entry is frozen.
What they keep in common are the addresses with an entry, the map of allocations, and for each
address the accesses since its entry was created, up to the locks: that is `Coupled`. The invariant
of the detector reads everything else off these accesses, in particular whether there was a report,
and fewer locks can only make the alarm come earlier.

## Why the states do not match

An address that is reported in one run and not in the other has different record sets from then on,
different statuses and different candidates. So the two states are not compared with each other.
Each is compared with its own history by the invariant of the detector, and the histories are
compared: same threads, same kinds of access, fewer locks. That the alarm comes no later with fewer
locks is a fact about histories (`Alarmed` in `Eraser/Discipline`).
-/

open Container

namespace Racez

open DetectState Discipline

/-! ## Fewer locks -/

/-- The same record, except that an access may be under fewer locks. -/
structure FewerLocks (r r' : Record) : Prop where
  /-- The records agree in all fields but the locks. -/
  fields : r' = { r with
    memoryAccess := { r.memoryAccess with
      lockCount := r'.memoryAccess.lockCount
      lockset := r'.memoryAccess.lockset } }
  /-- Only accesses have locks. -/
  others : r.type ≠ .memoryOp → r' = r
  /-- The locks of the second access are among those of the first. -/
  locks : r.type = .memoryOp → r'.memoryAccess.locks ⊆ r.memoryAccess.locks
  /-- They fit into the array. -/
  lockCount : r.type = .memoryOp → r'.memoryAccess.lockCount ≤ 10

namespace FewerLocks

variable {r r' : Record} {a : Address}

theorem type_eq (h : FewerLocks r r') : r'.type = r.type := by rw [h.fields]

private theorem memAllocOp_eq (h : FewerLocks r r') :
    r'.memAllocOp = r.memAllocOp := by rw [h.fields]

private theorem accessAt_iff (h : FewerLocks r r') : r'.AccessAt a ↔ r.AccessAt a := by
  rw [Record.AccessAt, Record.AccessAt, h.fields]

theorem fewer (h : FewerLocks r r') (hacc : r.AccessAt a) : accessDiscipline.Fewer r r' where
  thread := by rw [thread_accessDiscipline, thread_accessDiscipline, h.fields]
  write := by
    have hw : r'.memoryAccess.isWrite = r.memoryAccess.isWrite := by rw [h.fields]
    simp only [accessDiscipline, hw]
  locks l hl := List.mem_toFinset.mpr (h.locks hacc.1 (List.mem_toFinset.mp hl))

end FewerLocks

private theorem WellFormedLog.of_fewerLocks {log log' : List Record} (h : WellFormedLog log)
    (hlogs : List.Forall₂ FewerLocks log log') : WellFormedLog log' := by
  have hmem : ∀ r' ∈ log', ∃ r ∈ log, FewerLocks r r' := by
    intro r' hr'
    obtain ⟨i, hi, rfl⟩ := List.getElem_of_mem hr'
    have hi' : i < log.length := hlogs.length_eq ▸ hi
    exact ⟨log[i], List.getElem_mem hi', List.Forall₂.get hlogs hi' hi⟩
  constructor
  · intro r' hr' htype
    obtain ⟨r, hr, hf⟩ := hmem r' hr'
    have hw := h.isWrite r hr (hf.type_eq ▸ htype)
    rw [hf.fields]
    exact hw
  · intro r' hr' u' hu' htype htype' hno
    obtain ⟨r, hr, hf⟩ := hmem r' hr'
    obtain ⟨u, hu, hg⟩ := hmem u' hu'
    rw [hf.fields, hg.fields] at hno ⊢
    exact h.threadId r hr u hu (hf.type_eq ▸ htype) (hg.type_eq ▸ htype') hno

/-! ## Two runs -/

/-- What the two runs have in common. -/
structure Coupled (t t' : Traced) : Prop where
  /-- The same allocations are remembered. -/
  heapMap : t'.state.heapMap = t.state.heapMap
  /-- The same addresses have an entry. -/
  hasEntry : ∀ a, t'.state.HasEntry a ↔ t.state.HasEntry a
  /-- The histories differ in the locks only. -/
  accesses : ∀ a, List.Forall₂ FewerLocks (t.ghost a).accesses (t'.ghost a).accesses

theorem Coupled.init : Coupled Traced.init Traced.init where
  heapMap := rfl
  hasEntry _ := Iff.rfl
  accesses _ := List.Forall₂.nil

section Step

variable {reuse : Bool} {log log' : List Record} {t t' u u' : Traced} {r r' : Record}

private theorem accesses_ghostStep (s s' : DetectState) (record : Record) (report : Option Report)
    (ghost : Address → Ghost) (a : Address) :
    (ghostStep s s' record report ghost a).accesses
      = if s'.HasEntry a then
          (if s.HasEntry a then (ghost a).accesses else [])
            ++ if record.AccessAt a then [record] else []
        else [] := by
  rw [ghostStep]
  split_ifs <;> simp [Ghost.fresh]

/-- The second run can follow the first one. -/
theorem Coupled.exists_step (h : Coupled t t') (hr : FewerLocks r r') (hinv : RunInvariant log t)
    (hinv' : RunInvariant log' t') (hwf' : WellFormedLog (log' ++ [r']))
    (hstep : tracedStep reuse t r = .ok u) : ∃ u', tracedStep reuse t' r' = .ok u' := by
  cases hstep' : tracedStep reuse t' r' with
  | ok u' => exact ⟨u', rfl⟩
  | error f =>
    rcases tracedStep_error hinv' hwf' hstep' with ⟨-, htype, hgt⟩ | ⟨-, htype, -⟩
    · exact absurd (hr.lockCount (hr.type_eq ▸ htype)) (not_le.mpr hgt)
    · -- a release that runs away here would have run away in the first run
      obtain ⟨report, hoff, -, -⟩ := tracedStep_eq_ok hstep
      have hoff' := tracedStep_eq_error hstep'
      rw [offlineDetection, htype] at hoff'
      rw [offlineDetection, ← hr.type_eq, htype] at hoff
      dsimp only at hoff hoff'
      rw [Run.bind_eq_ok] at hoff
      obtain ⟨s, hs, -⟩ := hoff
      obtain ⟨s', hs'⟩ :=
        exists_detectAlloc_of_congr hinv.inStep hinv'.inStep h.heapMap h.hasEntry hs
      rw [hr.memAllocOp_eq, hs'] at hoff'
      exact absurd hoff' (by simp)

theorem Coupled.step (h : Coupled t t') (hr : FewerLocks r r') (hinv : RunInvariant log t)
    (hinv' : RunInvariant log' t') (hstep : tracedStep reuse t r = .ok u)
    (hstep' : tracedStep reuse t' r' = .ok u') : Coupled u u' := by
  obtain ⟨report, hoff, -, hghost⟩ := tracedStep_eq_ok hstep
  obtain ⟨report', hoff', -, hghost'⟩ := tracedStep_eq_ok hstep'
  have hentry : ∀ a, u'.state.HasEntry a ↔ u.state.HasEntry a := by
    intro a
    rw [hasEntry_offlineDetection hinv'.inStep hoff', hasEntry_offlineDetection hinv.inStep hoff,
      h.hasEntry, hr.accessAt_iff, hr.type_eq, hr.memAllocOp_eq, releases_congr h.heapMap]
  refine ⟨?_, hentry, ?_⟩
  · rw [heapMap_offlineDetection hoff, heapMap_offlineDetection hoff', hr.type_eq,
      hr.memAllocOp_eq, h.heapMap]
  · intro a
    rw [hghost, hghost', accesses_ghostStep, accesses_ghostStep]
    simp only [hentry a, h.hasEntry a, hr.accessAt_iff]
    have hacc : List.Forall₂ FewerLocks (if r.AccessAt a then [r] else [])
        (if r.AccessAt a then [r'] else []) := by
      split_ifs
      · exact List.Forall₂.cons hr List.Forall₂.nil
      · exact List.Forall₂.nil
    have hold : List.Forall₂ FewerLocks (if t.state.HasEntry a then (t.ghost a).accesses else [])
        (if t.state.HasEntry a then (t'.ghost a).accesses else []) := by
      split_ifs
      · exact h.accesses a
      · exact List.Forall₂.nil
    by_cases hkept : u.state.HasEntry a
    · rw [if_pos hkept, if_pos hkept]
      exact List.rel_append hold hacc
    · rw [if_neg hkept, if_neg hkept]
      exact List.Forall₂.nil

private theorem exists_coupled (hwf : WellFormedLog log) (hlogs : List.Forall₂ FewerLocks log log')
    (hrun : tracedRun reuse log = .ok t) : ∃ t', tracedRun reuse log' = .ok t' ∧ Coupled t t' := by
  induction log using List.reverseRecOn generalizing log' t with
  | nil =>
    cases hlogs
    obtain rfl := Except.ok.inj hrun
    exact ⟨Traced.init, rfl, Coupled.init⟩
  | append_singleton log r ih =>
    obtain ⟨log', rest, rfl, hlogs', hrest⟩ := exists_append_of_forall₂ hlogs
    obtain ⟨r', rest, hr, hnil, rfl⟩ := List.forall₂_cons_left_iff.mp hrest
    cases hnil
    have hwf₀ := hwf.of_isPrefix (List.prefix_append log [r])
    have hwf' := hwf.of_fewerLocks hlogs
    rw [tracedRun, Run.foldlM_append_singleton, ← tracedRun, Run.bind_eq_ok] at hrun
    obtain ⟨s, hs, hstep⟩ := hrun
    obtain ⟨s', hs', hc⟩ := ih hwf₀ hlogs' hs
    have hinv := tracedRun_invariant hwf₀ hs
    have hinv' := tracedRun_invariant (hwf₀.of_fewerLocks hlogs') hs'
    obtain ⟨t', hstep'⟩ := hc.exists_step hr hinv hinv' hwf' hstep
    refine ⟨t', ?_, hc.step hr hinv hinv' hstep hstep'⟩
    rw [tracedRun, Run.foldlM_append_singleton, ← tracedRun, hs']
    exact hstep'

/-- What is reported in the first run is reported in the second one. -/
theorem Coupled.reported (h : Coupled t t') (hinv : RunInvariant log t)
    (hinv' : RunInvariant log' t') {a : Address} (hrep : (t.ghost a).reported = true) :
    (t'.ghost a).reported = true := by
  obtain ⟨o, ho, ht⟩ := hinv.tracks a
  obtain ⟨o', ho', ht'⟩ := hinv'.tracks a
  cases o with
  | none =>
    rw [show t.ghost a = .fresh from ht] at hrep
    exact absurd hrep (by simp [Ghost.fresh])
  | some e =>
    have hhas : t'.state.HasEntry a := (h.hasEntry a).mpr (by rw [ho.hasEntry_iff]; rfl)
    obtain ⟨e', rfl⟩ := Option.isSome_iff_exists.mp (ho'.hasEntry_iff.mp hhas)
    have hfewer : List.Forall₂ accessDiscipline.Fewer (t.ghost a).accesses
        (t'.ghost a).accesses := by
      have hat : ∀ r ∈ (t.ghost a).accesses, r.AccessAt a := fun r hr ↦ (hinv.accesses a r hr).2
      exact ((List.forall₂_and_left _ _).mpr ⟨hat, h.accesses a⟩).imp
        fun r r' hr ↦ hr.2.fewer hr.1
    exact ht'.alarmed.mpr ((ht.alarmed.mp hrep).of_fewer hfewer)

end Step

/-! ## Reports -/

section Log

variable {reuse : Bool} {log log' pre : List Record} {t : Traced} {record : Record} {a : Address}

private theorem reported_ghostStep {s s' : DetectState} {report : Option Report}
    {ghost : Address → Ghost} :
    (ghostStep s s' record report ghost a).reported = true
      ↔ s'.HasEntry a ∧ ((s.HasEntry a ∧ (ghost a).reported = true)
        ∨ ∃ rep, report = some rep ∧ rep.memoryAddress = a) := by
  rw [ghostStep]
  split_ifs with hhas hold <;> simp [Ghost.fresh, Option.any_eq_true, *]

/-- An address that counts as reported was reported at some record, and its entry was never removed
since. -/
theorem exists_report_of_reported (hrun : tracedRun reuse log = .ok t)
    (hrep : (t.ghost a).reported = true) :
    ∃ pre record mid s reports s' report, log = pre ++ [record] ++ mid
      ∧ processLog reuse pre = .ok (s, reports)
      ∧ offlineDetection reuse s record = .ok (s', some report) ∧ report.memoryAddress = a
      ∧ ∀ mid', mid' <+: mid → ∃ u us,
          processLog reuse (pre ++ [record] ++ mid') = .ok (u, us) ∧ u.HasEntry a := by
  induction log using List.reverseRecOn generalizing t with
  | nil =>
    obtain rfl := Except.ok.inj hrun
    exact absurd hrep (by simp [Traced.init, Ghost.fresh])
  | append_singleton log x ih =>
    have hall : processLog reuse (log ++ [x]) = .ok (t.state, t.reports) := by
      rw [processLog_eq_map_tracedRun, hrun]
      rfl
    rw [tracedRun, Run.foldlM_append_singleton, ← tracedRun, Run.bind_eq_ok] at hrun
    obtain ⟨t₀, ht₀, hstep⟩ := hrun
    obtain ⟨report, hoff, -, hghost⟩ := tracedStep_eq_ok hstep
    rw [hghost, reported_ghostStep] at hrep
    obtain ⟨hhas, ⟨-, hrep⟩ | ⟨report, rfl, haddr⟩⟩ := hrep
    · -- the report is older than `x`
      obtain ⟨pre, record, mid, s, reports, s', report, rfl, hpre, hoff', haddr, hkept⟩ :=
        ih ht₀ hrep
      refine ⟨pre, record, mid ++ [x], s, reports, s', report, by simp, hpre, hoff', haddr, ?_⟩
      intro mid' hmid
      rcases List.prefix_concat_iff.mp hmid with rfl | hmid
      · rw [← List.append_assoc]
        exact ⟨_, _, hall, hhas⟩
      · exact hkept mid' hmid
    · have hlog : processLog reuse log = .ok (t₀.state, t₀.reports) := by
        rw [processLog_eq_map_tracedRun, ht₀]
        rfl
      refine ⟨log, x, [], t₀.state, t₀.reports, t.state, report, by simp, hlog, hoff, haddr, ?_⟩
      intro mid' hmid
      obtain rfl := List.prefix_nil.mp hmid
      rw [List.append_nil]
      exact ⟨_, _, hall, hhas⟩

/-- **More locks never cause more warnings.** Let the second log be the first one with fewer locks
at the accesses. If the first run reports an address at a record, then the second run gets that far
and has reported the address at this record or before, and has kept its entry since. -/
theorem reported_with_fewer_locks (hwf : WellFormedLog log)
    (hlogs : List.Forall₂ FewerLocks log log') (hpre : pre ++ [record] <+: log) {s s₁ : DetectState}
    {reports : List Report} {report : Report} (hrun : processLog reuse pre = .ok (s, reports))
    (hoff : offlineDetection reuse s record = .ok (s₁, some report)) :
    ∃ pre' record' mid s' reports' s₁' report',
      log'.take (pre.length + 1) = pre' ++ [record'] ++ mid
      ∧ processLog reuse pre' = .ok (s', reports')
      ∧ offlineDetection reuse s' record' = .ok (s₁', some report')
      ∧ report'.memoryAddress = report.memoryAddress
      ∧ ∀ mid', mid' <+: mid → ∃ u us, processLog reuse (pre' ++ [record'] ++ mid') = .ok (u, us)
          ∧ u.HasEntry report.memoryAddress := by
  have hwf₁ := hwf.of_isPrefix hpre
  have hwf₀ := hwf₁.of_isPrefix (List.prefix_append pre [record])
  obtain ⟨rest, rfl⟩ := hpre
  obtain ⟨l', rest', rfl, hl', -⟩ := exists_append_of_forall₂ hlogs
  have htake : (l' ++ rest').take (pre.length + 1) = l' := by
    refine List.take_left' ?_
    rw [← hl'.length_eq, List.length_append, List.length_singleton]
  -- the first run marks the address as reported
  obtain ⟨t, ht, rfl, rfl⟩ := exists_tracedRun_of_processLog hrun
  obtain ⟨t₁, ht₁⟩ : ∃ t₁, tracedStep reuse t record = .ok t₁ := by
    rw [tracedStep, hoff]
    exact ⟨_, rfl⟩
  obtain ⟨report₁, hoff₁, -⟩ := tracedStep_eq_ok ht₁
  obtain ⟨rfl, rfl⟩ := Prod.mk.inj (Except.ok.inj (hoff.symm.trans hoff₁))
  have hrun₁ : tracedRun reuse (pre ++ [record]) = .ok t₁ := by
    rw [tracedRun, Run.foldlM_append_singleton, ← tracedRun, ht]
    exact ht₁
  obtain ⟨-, hrep, -⟩ := report_step (tracedRun_invariant hwf₀ ht) hwf₁ ht₁ hoff
  -- and so does the second one
  obtain ⟨t', ht', hc⟩ := exists_coupled hwf₁ hl' hrun₁
  have hrep' := hc.reported (tracedRun_invariant hwf₁ hrun₁)
    (tracedRun_invariant (hwf₁.of_fewerLocks hl') ht') hrep
  rw [htake]
  exact exists_report_of_reported ht' hrep'

/-- Two writes under a lock by different threads, and a read of the second one without it. -/
def lockedPair : List Record :=
  [sampleAccess 1 7 64 1 [8], sampleAccess 2 8 64 1 [8], sampleAccess 3 8 64 0 []]

/-- The same accesses without locks. -/
def unlockedTriple : List Record :=
  [sampleAccess 1 7 64 1 [], sampleAccess 2 8 64 1 [], sampleAccess 3 8 64 0 []]

private theorem fewerLocks_sampleAccess (recordNo threadId : ℤ) (a : Address) (isWrite : ℤ)
    (l : List Address) : FewerLocks (sampleAccess recordNo threadId a isWrite l)
      (sampleAccess recordNo threadId a isWrite []) where
  fields := rfl
  others h := absurd rfl h
  locks _ := by simp [sampleAccess, MemoryAccess.locks]
  lockCount _ := by simp [sampleAccess]

/-- The first log is reported at its third access, the second one at its second. -/
theorem reported_with_fewer_locks_lockedPair :
    ∃ pre' record' mid s' reports' s₁' report', unlockedTriple.take 3 = pre' ++ [record'] ++ mid
      ∧ processLog true pre' = .ok (s', reports')
      ∧ offlineDetection true s' record' = .ok (s₁', some report')
      ∧ report'.memoryAddress = 64
      ∧ ∀ mid', mid' <+: mid → ∃ u us, processLog true (pre' ++ [record'] ++ mid') = .ok (u, us)
          ∧ u.HasEntry 64 :=
  have hlogs : List.Forall₂ FewerLocks lockedPair unlockedTriple :=
    .cons (fewerLocks_sampleAccess ..) (.cons (fewerLocks_sampleAccess ..)
      (.cons (fewerLocks_sampleAccess ..) .nil))
  @reported_with_fewer_locks true lockedPair unlockedTriple (lockedPair.take 2)
    (sampleAccess 3 8 64 0 []) ⟨by decide, by decide⟩ hlogs (List.prefix_refl _) _ _ _ _ rfl rfl

end Log

end Racez
