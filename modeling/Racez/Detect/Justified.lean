import Racez.Detect.Report

/-!
# What a warning prints

`report_error` prints the record set of the address, each access with its locks. The warning itself
comes from the candidate lockset, which is intersected at every access, while the record set keeps
one access for each thread: a write replaces what was kept, and in the shared and modified phase a
read of a known thread is not kept at all. So a lock can be gone from the candidates because of an
access that is no longer in the record set, and the accesses printed may all hold it.

What a warning does say is that the accesses since the entry was created have no lock in common.
The accesses printed have none either as long as no step forgets one that was needed. `Accounted` is
this condition on a step. It is a condition at the address that is reported: what the detector
forgets at other addresses does not matter, nor does what it forgot there before the memory was
freed and its entry deleted. `Justified` is the invariant that such steps keep at an address.

## Candidates and printed accesses

`Justified` says that every lock that all records kept hold is among the candidates. An access of a
new thread is kept, so that the locks in common go down on both sides. An access that replaces a
record, and one that is not kept, can take a lock from the candidates that the records still have in
common. `Accounted` rules out just this at the address in question, and only for as long as the
entry lives: a state without an entry starts again with an empty record set.
-/

open Container

namespace Racez

open DetectState Discipline

/-! ## What a step forgets -/

/-- An access of a known thread takes the place of the record kept for it. -/
def Replaces (status : ℤ) (record : Record) : Prop :=
  record.memoryAccess.isWrite = 1 ∨ status = 0 ∨ status = 2

instance (status : ℤ) (record : Record) : Decidable (Replaces status record) :=
  inferInstanceAs (Decidable (_ ∨ _))

/-- The access that is forgotten, the one of two of the same thread, takes away no lock that the
record set would still show as common. -/
def Covered (recordSet : RecordSet) (status : ℤ) (record old : Record) : Prop :=
  (Replaces status record → ∀ l ∈ record.memoryAccess.locks,
      accessDiscipline.CommonLock (recordSet.elems.filter (·.threadId ≠ record.threadId)) l →
        l ∈ old.memoryAccess.locks)
    ∧ (¬Replaces status record → ∀ l ∈ old.memoryAccess.locks,
      accessDiscipline.CommonLock recordSet.elems l → l ∈ record.memoryAccess.locks)

instance (recordSet : RecordSet) (status : ℤ) (record old : Record) :
    Decidable (Covered recordSet status record old) :=
  inferInstanceAs (Decidable (_ ∧ _))

/-- Whatever an access at `a` makes the detector forget is covered. Only an access of a known thread
makes it forget anything, as long as the address has not been reported. -/
def Accounted (a : Address) (s : DetectState) (record : Record) : Prop :=
  record.AccessAt a →
    ∀ recordSet ∈ (s.globalRecordSetMap.find? a).join,
      ∀ status ∈ s.rwMap.find? a, status ≠ 4 →
        ∀ old ∈ recordSet.get? (setIncludesThreadId recordSet record.threadId),
          Covered recordSet status record old

instance (a : Address) (s : DetectState) (record : Record) : Decidable (Accounted a s record) :=
  inferInstanceAs (Decidable (_ → _))

/-! ## The record set after a transition -/

section Transition

variable {cur old : Record} {S : RecordSet} {status : ℤ} {t : Transition}

private theorem transition_recordSet_of_new (h : transition cur S status = .ok t)
    (hstatus : status ≠ 4)
    (hnew : S.get? (setIncludesThreadId S cur.threadId) = none) : t.recordSet = S.insert cur := by
  rw [transition] at h
  split_ifs at h <;> cases h
  · rw [exclusiveRead, hnew]
    split_ifs <;> rfl
  · rw [exclusiveWrite, hnew]
  · rw [sharedRead, hnew]
    split_ifs <;> rfl
  · rw [sharedModified, hnew]

private theorem transition_recordSet_of_old (h : transition cur S status = .ok t)
    (hstatus : status ≠ 4) (hold : S.get? (setIncludesThreadId S cur.threadId) = some old) :
    t.recordSet = if Replaces status cur
      then (S.eraseAt (setIncludesThreadId S cur.threadId)).insert cur else S := by
  rw [transition] at h
  split_ifs at h with h₀ _ h₁ _ h₂ _ h₃ <;> cases h
  · simp [exclusiveRead, hold, Replaces, h₀]
  · by_cases hw : cur.memoryAccess.isWrite = 1 <;>
      simp [exclusiveWrite, hold, Replaces, h₁, hw]
  · by_cases hw : cur.memoryAccess.isWrite = 1 <;> simp [sharedRead, hold, Replaces, h₂, hw]
  · by_cases hw : cur.memoryAccess.isWrite = 1 <;>
      simp [sharedModified, hold, Replaces, h₀, h₂, hw]

end Transition

/-! ## The candidates and the record set -/

/-- A lock common to the accesses kept is a candidate. -/
def Shows (recordSet : RecordSet) (lockset : LockSet) : Prop :=
  ∀ l, accessDiscipline.CommonLock recordSet.elems l → l ∈ lockset

section Shows

variable {H : List Record} {cur : Record} {S : RecordSet} {status : ℤ} {L : LockSet}
  {res : CoreResult}

private theorem coreDetection_eq_ok (h : coreDetection cur S status L = .ok res) :
    ∃ t, transition cur S status = .ok t ∧ res.recordSet = t.recordSet
      ∧ res.lockset = L ∩ cur.memoryAccess.locks.toFinset := by
  rw [coreDetection, Run.bind_eq_ok] at h
  obtain ⟨t, ht, h⟩ := h
  rw [Run.bind_eq_ok] at h
  obtain ⟨locks, hlocks, h⟩ := h
  rw [readLocks] at hlocks
  split_ifs at hlocks
  obtain rfl := Except.ok.inj hlocks
  obtain rfl := Except.ok.inj h
  refine ⟨t, ht, ?_⟩
  rw [checkLockset]
  split_ifs <;> exact ⟨rfl, rfl⟩

/-- One call of `core_detection` that forgets nothing that was needed. -/
theorem Shows.coreDetection (h : Shows S L) (hE : accessDiscipline.Evidence H S.elems)
    (hno : ∀ r ∈ H, r.recordNo = cur.recordNo → r.threadId = cur.threadId) (hstatus : status ≠ 4)
    (hcov : ∀ old ∈ S.get? (setIncludesThreadId S cur.threadId), Covered S status cur old)
    (hres : coreDetection cur S status L = .ok res) : Shows res.recordSet res.lockset := by
  obtain ⟨t, ht, hset, hlockset⟩ := coreDetection_eq_ok hres
  rw [hset, hlockset]
  intro l hl
  rw [Finset.mem_inter, List.mem_toFinset]
  by_cases hmem : cur.threadId ∈ accessDiscipline.threads H
  · obtain ⟨old, hold, hthread⟩ := exists_get?_of_mem hE hmem
    have hperm := OrderedSet.elems_perm_of_get? hold
    rw [transition_recordSet_of_old ht hstatus hold] at hl
    obtain ⟨hreplaced, hkept⟩ := hcov old hold
    by_cases hrep : Replaces status cur
    · -- the lock is held at `old` as well, hence at all accesses kept before
      rw [if_pos hrep, commonLock_perm (elems_insert_of_replace hE hno hold hthread),
        commonLock_cons] at hl
      have hcur : l ∈ cur.memoryAccess.locks := List.mem_toFinset.mp hl.1
      have hl' : l ∈ old.memoryAccess.locks := by
        refine hreplaced hrep l hcur ?_
        intro r hr
        obtain ⟨hr, hne⟩ := List.mem_filter.mp hr
        rcases List.mem_cons.mp (hperm.mem_iff.mp hr) with rfl | hr
        · exact absurd hthread (of_decide_eq_true hne)
        · exact hl.2 r hr
      exact ⟨h l ((commonLock_perm hperm).mpr
        (commonLock_cons.mpr ⟨List.mem_toFinset.mpr hl', hl.2⟩)), hcur⟩
    · rw [if_neg hrep] at hl
      have hl' := (commonLock_cons.mp ((commonLock_perm hperm).mp hl)).1
      exact ⟨h l hl, hkept hrep l (List.mem_toFinset.mp hl') hl⟩
  · rw [transition_recordSet_of_new ht hstatus (get?_eq_none_of_notMem hE hmem),
      commonLock_perm (elems_insert_of_new hE hno hmem), commonLock_cons] at hl
    exact ⟨h l hl.2, List.mem_toFinset.mp hl.1⟩

end Shows

/-! ## Whole logs -/

/-- The candidates of an address that has not been reported. -/
def Justified (a : Address) (t : Traced) : Prop :=
  ∀ e, t.state.EntryIs a (some e) → (t.ghost a).reported = false → Shows e.recordSet e.lockset

section Log

variable {reuse : Bool} {log pre : List Record} {t t' : Traced} {record : Record}
  {report : Report} {a : Address} {e : Entry}

theorem Accounted.covered (h : Accounted a t.state record) (hacc : record.AccessAt a)
    (he : t.state.EntryIs a (some e)) (hstatus : e.status ≠ 4) :
    ∀ old ∈ e.recordSet.get? (setIncludesThreadId e.recordSet record.threadId),
      Covered e.recordSet e.status record old := by
  obtain ⟨hset, hrw, -⟩ := he
  refine h hacc e.recordSet ?_ e.status hrw hstatus
  rw [hset]
  rfl

private theorem accounted_of_entryIs {s : DetectState} (he : s.EntryIs a (some e))
    (h : ∀ old ∈ e.recordSet.get? (setIncludesThreadId e.recordSet record.threadId),
      Covered e.recordSet e.status record old) : Accounted a s record := by
  intro _ recordSet hset status hstatus _
  rw [he.1] at hset
  rw [he.2.1] at hstatus
  obtain rfl := Option.some.inj hset
  obtain rfl := Option.some.inj hstatus
  exact h

private theorem EntryInvariant.status_ne {g : Ghost} (h : EntryInvariant g e)
    (hrep : g.reported = false) : e.status ≠ 4 := by
  rw [h.status hrep]
  cases accessDiscipline.phase g.accesses <;> decide

private theorem shows_of_access (h : RunInvariant log t) (hwf : WellFormedLog (log ++ [record]))
    (hjust : Justified a t) (hcov : Accounted a t.state record) (hacc : record.AccessAt a)
    (he : t.state.EntryIs a (some e)) (hrep : (t.ghost a).reported = false) {res : CoreResult}
    (hres : coreDetection record e.recordSet e.status e.lockset = .ok res) :
    Shows res.recordSet res.lockset := by
  obtain ⟨o, ho, ht⟩ := h.tracks a
  cases he.unique ho
  exact (hjust e he hrep).coreDetection (ht.evidence hrep) (h.numbers hwf hacc)
    (ht.status_ne hrep) (hcov.covered hacc he (ht.status_ne hrep)) hres

/-- One record that is accounted for keeps the candidates. -/
theorem tracedStep_justified (h : RunInvariant log t) (hwf : WellFormedLog (log ++ [record]))
    (hjust : Justified a t) (hcov : Accounted a t.state record)
    (hstep : tracedStep reuse t record = .ok t') : Justified a t' := by
  obtain ⟨report, hoff, -, hghost⟩ := tracedStep_eq_ok hstep
  intro e' he' hrep'
  obtain ⟨o, ho, ht⟩ := h.tracks a
  obtain ⟨o', ho', heff⟩ := exists_effect h.inStep hoff ho
  have hsome : some e' = o' := he'.unique ho'
  rw [hghost] at hrep'
  cases heff with
  | unchanged hacc hrel hrep =>
    subst hsome
    have hnot : (some e').isSome = true → ¬record.AccessAt a := by
      intro _ hat
      obtain rfl := hacc hat
      exact absurd (ho.unique h.zero) (by simp)
    rw [ghostStep_of_unchanged ho ho' ht hnot hrep] at hrep'
    exact hjust e' ho hrep'
  | created hacc ha hcount hrep =>
    -- the only record is the access itself
    obtain rfl := Option.some.inj hsome
    intro l hl
    exact (commonLock_cons.mp hl).1
  | @accessed e res hacc ha hres hrep =>
    obtain rfl := Option.some.inj hsome
    rw [ghostStep_access ho ho' hacc, Bool.or_eq_false_iff] at hrep'
    exact shows_of_access h hwf hjust hcov hacc ho hrep'.1 hres
  | released htype hrel hrep => exact absurd hsome (by simp)

private theorem tracedRun_justified {before : List Record} {t₀ : Traced}
    (hwf : WellFormedLog (before ++ log)) (hbefore : tracedRun reuse before = .ok t₀)
    (hnone : t₀.state.EntryIs a none)
    (hcov : Run.Along (tracedStep reuse) (fun t r ↦ Accounted a t.state r) t₀ log)
    (h : log.foldlM (tracedStep reuse) t₀ = .ok t) : Justified a t := by
  refine (Run.induction (P := fun l t ↦ tracedRun reuse (before ++ l) = .ok t ∧ Justified a t) h
    ⟨by rwa [List.append_nil], fun e he ↦ absurd (he.unique hnone) (by simp)⟩ ?_).2
  rintro l record t t' hl ⟨hrun, hjust⟩ hstep
  have hlog : before ++ l ++ [record] <+: before ++ log := by
    rw [List.append_assoc]
    exact (List.prefix_append_right_inj before).mpr hl
  have hinv := tracedRun_invariant
    (hwf.of_isPrefix ((List.prefix_append _ [record]).trans hlog)) hrun
  have hlast : Accounted a t.state record := by
    refine (hcov.of_isPrefix hl).last ?_
    rw [tracedRun, List.foldlM_append, ← tracedRun, hbefore] at hrun
    exact hrun
  refine ⟨?_, tracedStep_justified hinv (hwf.of_isPrefix hlog) hjust hlast hstep⟩
  rw [← List.append_assoc, tracedRun, Run.foldlM_append_singleton, ← tracedRun, hrun]
  exact hstep

/-- **What a warning says.** When `report_error` is called at `record`, the accesses to the address
since its entry was created have no lock in common, and what is printed are such accesses, one for
each thread and its latest write if it wrote. The accesses printed have no lock in common themselves
if the steps at this address are accounted for, from some point on at which it has no entry. -/
theorem report_justified (hwf : WellFormedLog log) (hpre : pre ++ [record] <+: log)
    (ht : tracedRun reuse pre = .ok t) (ht' : tracedRun reuse (pre ++ [record]) = .ok t')
    (hoff : offlineDetection reuse t.state record = .ok (t'.state, some report)) :
    (∀ l, ¬accessDiscipline.CommonLock (t'.ghost report.memoryAddress).accesses l)
      ∧ accessDiscipline.Evidence (t'.ghost report.memoryAddress).accesses report.recordSet.elems
      ∧ ∀ before since t₀, before ++ since = pre → tracedRun reuse before = .ok t₀ →
          t₀.state.EntryIs report.memoryAddress none →
          Run.Along (tracedStep reuse) (fun t r ↦ Accounted report.memoryAddress t.state r) t₀
            (since ++ [record]) →
          ∀ l, ¬accessDiscipline.CommonLock report.recordSet.elems l := by
  have hwf' := hwf.of_isPrefix hpre
  have hwfpre := hwf'.of_isPrefix (List.prefix_append pre [record])
  have hinv := tracedRun_invariant hwfpre ht
  obtain ⟨hunrep, hrep, -, hracy, hE⟩ :=
    report_step hinv hwf' (tracedStep_of_tracedRun ht ht') hoff
  refine ⟨hracy.2.2, hE, ?_⟩
  rintro before since t₀ rfl hbefore hnone hcov l hl
  obtain ⟨e, res, hacc, he, hres, -, hset, he'⟩ := exists_coreDetection_of_report hinv hoff
  have hsince : since.foldlM (tracedStep reuse) t₀ = .ok t := by
    rw [tracedRun, List.foldlM_append, ← tracedRun, hbefore] at ht
    exact ht
  have hjust : Justified report.memoryAddress t := tracedRun_justified hwfpre hbefore hnone
    (hcov.of_isPrefix (List.prefix_append since [record])) hsince
  have hshows := shows_of_access hinv hwf' hjust (hcov.last hsince) hacc he hunrep hres
  -- a common lock of the records printed would be a candidate
  obtain ⟨o, ho, htracks⟩ := (tracedRun_invariant hwf' ht').tracks report.memoryAddress
  cases he'.unique ho
  rw [hset] at hl
  exact hracy.2.2 l ((htracks.lockset l).mp (hshows l hl))

/-- A write without a lock takes the place of one under a lock; then another thread comes. -/
def narrowedWrite : List Record :=
  [sampleAccess 1 7 64 1 [8], sampleAccess 2 7 64 1 [], sampleAccess 3 8 64 0 [8]]

private theorem accounted_narrowedWrite :
    Run.Along (tracedStep true) (fun t r ↦ Accounted 64 t.state r) Traced.init
      narrowedWrite := by
  refine Run.along_cons.mpr ⟨by decide, ?_⟩
  intro t₁ h₁
  obtain rfl := Except.ok.inj h₁
  refine Run.along_cons.mpr ⟨accounted_of_entryIs ⟨rfl, rfl, rfl⟩ ?_, ?_⟩
  · -- the new write holds no lock
    intro old _
    refine ⟨fun _ l hl ↦ absurd hl ?_, fun h ↦ absurd (Or.inl rfl) h⟩
    simp [sampleAccess, MemoryAccess.locks]
  intro t₂ h₂
  obtain rfl := Except.ok.inj h₂
  refine Run.along_cons.mpr ⟨accounted_of_entryIs ⟨rfl, rfl, rfl⟩ ?_, fun _ _ ↦ trivial⟩
  intro old hold
  cases hold

theorem report_justified_narrowedWrite : ∃ t t' report,
    tracedRun true (narrowedWrite.take 2) = .ok t ∧ tracedRun true narrowedWrite = .ok t'
      ∧ offlineDetection true t.state (sampleAccess 3 8 64 0 [8]) = .ok (t'.state, some report)
      ∧ ∀ l, ¬accessDiscipline.CommonLock report.recordSet.elems l :=
  have hwf : WellFormedLog narrowedWrite := ⟨by decide, by decide⟩
  ⟨_, _, _, rfl, rfl, rfl, (@report_justified true narrowedWrite (narrowedWrite.take 2) _ _
    (sampleAccess 3 8 64 0 [8]) _ hwf (List.prefix_refl _) rfl rfl rfl).2.2 [] _ _ rfl rfl
      (entryIs_init 64) accounted_narrowedWrite⟩

/-- A location is initialised without a lock and then used under one. -/
def initialised : List Record :=
  [sampleAccess 1 7 64 1 [], sampleAccess 2 7 64 1 [8], sampleAccess 3 8 64 1 [8]]

/-- The warning prints two accesses under the same lock. -/
theorem commonLock_printed_initialised : WellFormedLog initialised
    ∧ ∃ t t' report, tracedRun false (initialised.take 2) = .ok t
      ∧ tracedRun false initialised = .ok t'
      ∧ offlineDetection false t.state (sampleAccess 3 8 64 1 [8]) = .ok (t'.state, some report)
      ∧ report.recordSet.elems = initialised.drop 1
      ∧ accessDiscipline.CommonLock report.recordSet.elems 8 :=
  ⟨⟨by decide, by decide⟩, _, _, _, rfl, rfl, rfl, by decide, by decide⟩

end Log

end Racez
