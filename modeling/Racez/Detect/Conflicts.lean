import Racez.Detect.Report

/-!
# Conflicts

What can be said of the warnings without looking at locks. A warning at an address takes a
*conflict*, a pair of accesses of different threads one of which is a write
(`conflict_of_mem_reports`). And if no access is made under a lock it takes nothing else: the
detector then reports exactly the addresses at which there is a conflict (`reported_iff_conflict`).

Without locks the history of an address is racy as soon as it is shared and modified, and the alarm
cannot be late, since there is never a common lock to lose. So `reported_iff_not_late` turns into a
statement about pairs of accesses.
-/

open Container

namespace Racez

open DetectState Discipline

/-- Two threads access the address, and one of them writes. -/
def Conflict (log : List Record) (a : Address) : Prop :=
  ∃ r ∈ log, ∃ r' ∈ log, r.AccessAt a ∧ r'.AccessAt a ∧ r.threadId ≠ r'.threadId
    ∧ r.memoryAccess.isWrite = 1

theorem Conflict.mono {log log' : List Record} {a : Address} (h : Conflict log a)
    (hsub : log ⊆ log') : Conflict log' a := by
  obtain ⟨r, hr, r', hr', hacc, hacc', hne, hw⟩ := h
  exact ⟨r, hsub hr, r', hsub hr', hacc, hacc', hne, hw⟩

theorem conflict_congr {log log' : List Record} {a : Address} (h : ∀ r, r ∈ log ↔ r ∈ log') :
    Conflict log a ↔ Conflict log' a :=
  ⟨fun hc ↦ hc.mono fun r ↦ (h r).mp, fun hc ↦ hc.mono fun r ↦ (h r).mpr⟩

private theorem conflict_iff {log : List Record} {a : Address} :
    Conflict log a ↔ accessDiscipline.Shared (accessesAt a log)
      ∧ accessDiscipline.HasWrite (accessesAt a log) := by
  rw [shared_and_hasWrite_iff]
  simp only [accessesAt, List.mem_filter, decide_eq_true_eq, accessDiscipline]
  constructor
  · rintro ⟨r, hr, r', hr', hacc, hacc', hne, hw⟩
    exact ⟨r, ⟨hr, hacc⟩, r', ⟨hr', hacc'⟩, hne, hw⟩
  · rintro ⟨r, ⟨hr, hacc⟩, r', ⟨hr', hacc'⟩, hne, hw⟩
    exact ⟨r, hr, r', hr', hacc, hacc', hne, hw⟩

section Reports

variable {reuse : Bool} {log : List Record} {t : Traced} {a : Address}

theorem conflict_of_mem_reports (hwf : WellFormedLog log) (h : tracedRun reuse log = .ok t) :
    ∀ rep ∈ t.reports, Conflict log rep.memoryAddress ∧ rep.memoryAddress ≠ 0 := by
  refine (Run.induction (P := fun l t ↦ RunInvariant l t ∧ ∀ rep ∈ t.reports,
    Conflict l rep.memoryAddress ∧ rep.memoryAddress ≠ 0) h
    ⟨RunInvariant.init, by simp [Traced.init]⟩ ?_).2
  rintro pre record t t' hpre ⟨hinv, hreports⟩ hstep
  have hinv' := tracedStep_invariant hinv (hwf.of_isPrefix hpre) hstep
  refine ⟨hinv', ?_⟩
  obtain ⟨report, hoff, heq, -⟩ := tracedStep_eq_ok hstep
  rw [heq]
  intro rep hrep
  rcases List.mem_append.mp hrep with hold | hnew
  · obtain ⟨hconflict, hzero⟩ := hreports rep hold
    exact ⟨hconflict.mono (List.subset_append_left _ _), hzero⟩
  obtain rfl := Option.mem_toList.mp hnew
  obtain ⟨-, -, -, hracy, -⟩ := report_step hinv (hwf.of_isPrefix hpre) hstep hoff
  obtain ⟨r, hr, r', hr', hne, hw⟩ := shared_and_hasWrite_iff.mp ⟨hracy.1, hracy.2.1⟩
  obtain ⟨hmem, hacc⟩ := hinv'.accesses _ r hr
  obtain ⟨hmem', hacc'⟩ := hinv'.accesses _ r' hr'
  refine ⟨⟨r, hmem, r', hmem', hacc, hacc', hne, by simpa [accessDiscipline] using hw⟩, ?_⟩
  -- the null address has no entry to report
  intro hzero
  obtain ⟨e, -, -, hentry, -⟩ := exists_coreDetection_of_report hinv hoff
  rw [hzero] at hentry
  exact absurd (hentry.unique hinv.zero) (by simp)

/-- Without locks the detector reports exactly the conflicts. -/
theorem reported_iff_conflict (hwf : WellFormedLog log)
    (halloc : ∀ r ∈ log, r.type ≠ .memoryAlloc) (ha : a ≠ 0)
    (hunlocked : ∀ r ∈ log, r.AccessAt a → r.memoryAccess.locks = [])
    (h : tracedRun reuse log = .ok t) :
    (∃ rep ∈ t.reports, rep.memoryAddress = a) ↔ Conflict log a := by
  constructor
  · rintro ⟨rep, hrep, rfl⟩
    exact (conflict_of_mem_reports hwf h rep hrep).1
  intro hconflict
  obtain ⟨hinv, hacc, hreported⟩ := ghost_of_no_alloc hwf halloc ha h
  rw [← hreported]
  have hnolock : ∀ H, H ⊆ accessesAt a log → H ≠ [] → ∀ l, ¬accessDiscipline.CommonLock H l := by
    intro H hsub hne l hl
    obtain ⟨r, hr⟩ := List.exists_mem_of_ne_nil H hne
    have hr' := List.mem_filter.mp (hsub hr)
    have hlock : l ∈ r.memoryAccess.locks.toFinset := hl r hr
    rw [hunlocked r hr'.1 (of_decide_eq_true hr'.2)] at hlock
    exact absurd hlock (by simp)
  have hne : ∀ H, accessDiscipline.Shared H → H ≠ [] := by
    rintro _ hs rfl
    exact absurd hs (by simp [Shared, threads])
  obtain ⟨hs, hw⟩ := conflict_iff.mp hconflict
  have hracy : accessDiscipline.Racy (accessesAt a log) :=
    ⟨hs, hw, hnolock _ (List.Subset.refl _) (hne _ hs)⟩
  -- to be late takes a common lock for some time
  have hlate : ¬accessDiscipline.Late (accessesAt a log) := by
    rintro ⟨H₁, H₂, hsplit, hs₁, -, ⟨l, hl⟩, -⟩
    refine hnolock H₁ ?_ (hne _ hs₁) l hl
    rw [hsplit]
    exact List.subset_append_left _ _
  obtain ⟨o, ho, htracks⟩ := hinv.tracks a
  rw [hacc.symm] at hracy hlate
  rcases o with _ | e
  · rw [show t.ghost a = .fresh from htracks] at hracy
    exact absurd rfl (hne _ hracy.1)
  · rw [htracks.alarmed]
    exact not_not.mp fun hnot ↦ hlate ((not_alarmed_iff_late hracy).mp hnot)

theorem exists_tracedRun_iff_conflict (hwf : WellFormedLog log)
    (halloc : ∀ r ∈ log, r.type ≠ .memoryAlloc)
    (hcount : ∀ r ∈ log, r.type = .memoryOp → r.memoryAccess.lockCount = 0) (reuse : Bool) :
    ∃ t, tracedRun reuse log = .ok t
      ∧ ∀ a, (∃ rep ∈ t.reports, rep.memoryAddress = a) ↔ Conflict log a ∧ a ≠ 0 := by
  obtain ⟨t, ht⟩ : ∃ t, tracedRun reuse log = .ok t :=
    exists_tracedRun hwf (fun r hr hop ↦ (hcount r hr hop).trans_le (by decide))
      fun _ r hr htype ↦ absurd htype (halloc r hr)
  refine ⟨t, ht, fun a ↦ ?_⟩
  rcases eq_or_ne a 0 with rfl | ha
  · refine iff_of_false ?_ fun h ↦ h.2 rfl
    rintro ⟨rep, hrep, hzero⟩
    exact (conflict_of_mem_reports hwf ht rep hrep).2 hzero
  · have hunlocked : ∀ r ∈ log, r.AccessAt a → r.memoryAccess.locks = [] := by
      intro r hr hacc
      rw [MemoryAccess.locks, hcount r hr hacc.1]
      rfl
    rw [reported_iff_conflict hwf halloc ha hunlocked ht]
    exact (and_iff_left ha).symm

end Reports

end Racez
