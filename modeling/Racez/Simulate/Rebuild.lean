import Racez.Hooks.Logged
import Racez.Simulate.Effects

/-!
# Building again

The file of new records is opened for appending and nothing ever clears it, so a program that is
built a second time has all its new records in it twice, and the raw log has been overwritten
before. Neither matters (`build_build`): what is overwritten is overwritten with the same values,
and the detector puts the new records into a set.

Nothing of the raw log is lost but the two fields that the pass computes, in records that are
sampled (`extended_build`). What is appended has the number, the thread and the locks of a raw
record. If no sample is one of another record than an access (`SamplesAccesses`), then whatever the
detector takes for an access goes back to one of the log.

## The second build

A build is an effect that is computed from the seeds, and it leaves the seeds alone. So the second
build has the same effect. Overwriting twice is overwriting once, and what is appended is appended
again.

## What is kept

`Extended` is the relation between the files before and after a build that later results use. It
says nothing about the values that were computed, only which records they can be in.
-/

open Container

namespace Racez

variable (stray : InstructionEntry → ℕ → Option RegEntry) (env : BuildEnv)

/-! ## The same build twice -/

/-- Records that are appended once more do not reach the detector. -/
theorem passedRecords_append_of_subset (raw : List Record) {new again : List Record}
    (h : again ⊆ new) : passedRecords raw (some (new ++ again)) = passedRecords raw (some new) := by
  rcases eq_or_ne raw [] with rfl | hraw
  · rfl
  rcases eq_or_ne new [] with rfl | hnew
  · rw [List.subset_nil.mp h]
    rfl
  · rw [passedRecords_of_ne_nil hraw hnew,
      passedRecords_of_ne_nil hraw (List.append_ne_nil_of_left_ne_nil hnew again), indexIpSet,
      indexIpSet, OrderedSet.ofList_append_of_subset h]

/-- **The same build twice** leaves the raw log as it is after the first time, appends the same
records once more, and the detector comes to the same result. -/
theorem build_build (files : PassFiles) (units : List Compilation) :
    (build stray env (build stray env files units) units).raw = (build stray env files units).raw
      ∧ (∃ appended, (build stray env files units).new = files.new ++ appended
        ∧ (build stray env (build stray env files units) units).new
          = files.new ++ appended ++ appended)
      ∧ ∀ enableMemoryReuse,
        detect enableMemoryReuse (build stray env (build stray env files units) units).raw
            (some (build stray env (build stray env files units) units).new)
          = detect enableMemoryReuse (build stray env files units).raw
            (some (build stray env files units).new) := by
  set e := buildEffect stray env files.seeds units with he
  have hfirst : build stray env files units = e • files := build_eq stray env files units
  have hsecond : build stray env (build stray env files units) units = e • e • files := by
    rw [build_eq, hfirst, seeds_smul, ← he]
  have hraw : (e • e • files).raw = (e • files).raw := by
    rw [← mul_smul, PassEffect.raw_smul, PassEffect.raw_smul, PassEffect.patches_mul]
    simp only [Pi.mul_apply, Patch.mul_self]
  rw [hsecond, hfirst]
  refine ⟨hraw, ⟨e.appended, rfl, rfl⟩, fun reuse ↦ ?_⟩
  have hpassed := passedRecords_append_of_subset (e • files).raw
    (List.subset_append_right files.new e.appended)
  rw [detect, detect, hraw]
  exact congrArg (fun passed ↦ processLog reuse (passed.map Passed.record)) hpassed

/-! ## What a build keeps -/

/-- Some sample that the build uses has the index. -/
def Sampled (units : List Compilation) (k : ℕ) : Prop :=
  ∃ job ∈ jobs units, ∃ c ∈ jobCalls env job, c.slot = k

/-- What a build leaves of the files it found, if only the records in `sampled` are sampled. -/
structure Extended (sampled : ℕ → Prop) (files after : PassFiles) : Prop where
  /-- There are as many raw records as before. -/
  length_eq : after.raw.length = files.raw.length
  /-- A raw record keeps all fields but two, and these two if it is not sampled. -/
  raw : ∀ (k : ℕ) (r r' : Record), files.raw[k]? = some r → after.raw[k]? = some r' →
    r'.seed = r.seed ∧ (r' = r ∨ sampled k)
      ∧ (r'.memoryAccess.isWrite = r.memoryAccess.isWrite ∨ r'.memoryAccess.isWrite = 0
        ∨ r'.memoryAccess.isWrite = 1)
  /-- Records are appended, each with the number, the thread and the locks of a sampled one. -/
  new : ∃ appended, after.new = files.new ++ appended
    ∧ ∀ n ∈ appended, ∃ k r, files.raw[k]? = some r ∧ sampled k
      ∧ ∃ w ip address, (w = 0 ∨ w = 1) ∧ address ≠ -1 ∧ n = newRecord r w ip address

variable {stray env}

theorem MadeFor.sampled {units : List Compilation} {seeds : List Record} {c : PassCall} {k : ℕ}
    {seed : Record} (h : MadeFor env units seeds c k seed) : Sampled env units k := by
  obtain ⟨job, hjob, hc⟩ := h.call
  exact ⟨job, hjob, c, hc, h.slot⟩

theorem PassEffect.FromCalls.extended {files : PassFiles} {units : List Compilation}
    {e : PassEffect} (h : e.FromCalls stray env units files.seeds) :
    Extended (Sampled env units) files (e • files) where
  length_eq := by simp
  raw k r r' hr hr' := by
    rw [PassEffect.raw_smul, List.getElem?_mapIdx, hr, Option.map_some] at hr'
    obtain rfl := Option.some.inj hr'
    refine ⟨(e.patches k).seed_smul r, ?_, ?_⟩
    · -- what is patched is patched by a call
      rcases ha : (e.patches k).address with _ | address
      · rcases hw : (e.patches k).isWrite with _ | w
        · have hone : e.patches k = 1 := Patch.ext ha hw
          exact Or.inl (by rw [hone, one_smul])
        · obtain ⟨c, seed, hmade, -⟩ := h.isWrite k w hw
          exact Or.inr hmade.sampled
      · obtain ⟨c, seed, hmade, -⟩ := h.address k address ha
        exact Or.inr hmade.sampled
    · rw [Patch.memoryAccess_smul]
      rcases hw : (e.patches k).isWrite with _ | w
      · exact Or.inl rfl
      · obtain ⟨c, seed, -, hpatch⟩ := h.isWrite k w hw
        exact Or.inr (isWrite_updatePatch hpatch)
  new := by
    refine ⟨e.appended, rfl, fun n hn ↦ ?_⟩
    obtain ⟨c, k, seed, hmade, hn⟩ := h.appended n hn
    obtain ⟨y, -, i, hi, haddress, hn⟩ := exists_newRecord_of_mem hn
    have hseed := hmade.getElem?
    rw [PassFiles.seeds, List.getElem?_map, Option.map_eq_some_iff] at hseed
    obtain ⟨r, hr, rfl⟩ := hseed
    rw [newRecord_seed] at hn
    exact ⟨k, r, hr, hmade.sampled, i, _, _, memIndex_eq_zero_or_one hi, haddress, hn⟩

variable (stray env)

theorem Extended.of_build (files : PassFiles) (units : List Compilation) :
    Extended (Sampled env units) files (build stray env files units) := by
  rw [build_eq]
  exact (fromCalls_buildEffect stray env units).extended

/-- **What a build keeps.** Whatever is built, and wherever it comes to a halt, nothing is lost but
the two fields that are computed, in the records that are sampled, and every new record belongs to
one of these. -/
theorem extended_build (files : PassFiles) (units : List Compilation) :
    Extended (Sampled env units) files (build stray env files units) :=
  Extended.of_build stray env files units

/-! ## From the log to the detector -/

/-- Every sample that the build uses is one of an access in the log. -/
def SamplesAccesses (units : List Compilation) (raw : List Record) : Prop :=
  ∀ job ∈ jobs units, ∀ c ∈ jobCalls env job,
    0 ≤ c.2.2.index ∧ ∃ r, raw[c.slot]? = some r ∧ r.type = .memoryOp

section Detect

variable {env} {raw : List Record} {after : PassFiles} {units : List Compilation}

theorem SamplesAccesses.type_eq (h : SamplesAccesses env units raw) {k : ℕ} {r : Record}
    (hk : Sampled env units k) (hr : raw[k]? = some r) : r.type = .memoryOp := by
  obtain ⟨job, hjob, c, hc, rfl⟩ := hk
  obtain ⟨-, r', hr', htype⟩ := h job hjob c hc
  obtain rfl := Option.some.inj (hr.symm.trans hr')
  exact htype

theorem Extended.exists_raw (h : Extended (Sampled env units) ⟨raw, []⟩ after)
    (hsamples : SamplesAccesses env units raw) {p : Passed}
    (hp : p ∈ passedRecords after.raw (some after.new)) (htype : p.record.type = .memoryOp) :
    ∃ r ∈ raw, r.type = .memoryOp ∧ p.record.recordNo = r.recordNo
      ∧ p.record.threadId = r.threadId
      ∧ p.record.memoryAccess.lockCount = r.memoryAccess.lockCount
      ∧ (p.record.memoryAccess.isWrite = r.memoryAccess.isWrite
        ∨ p.record.memoryAccess.isWrite = 0 ∨ p.record.memoryAccess.isWrite = 1) := by
  rcases mem_of_mem_passedRecords hp with hmem | hmem
  · obtain ⟨k, hk⟩ := List.mem_iff_getElem?.mp hmem
    have hlt : k < raw.length := h.length_eq ▸ (List.getElem?_eq_some_iff.mp hk).1
    obtain ⟨hseed, -, hwrite⟩ := h.raw k raw[k] p.record (List.getElem?_eq_getElem hlt) hk
    refine ⟨raw[k], List.getElem_mem hlt, ?_, ?_, ?_, ?_, hwrite⟩
    · rw [← Record.type_seed, ← hseed, Record.type_seed, htype]
    · rw [← Record.recordNo_seed, hseed, Record.recordNo_seed]
    · rw [← Record.threadId_seed, hseed, Record.threadId_seed]
    · have haccess := congrArg Record.memoryAccess hseed
      rw [Record.memoryAccess_seed, Record.memoryAccess_seed] at haccess
      exact (congrArg MemoryAccess.lockCount haccess :)
  · obtain ⟨appended, happended, hnew⟩ := h.new
    rw [happended, List.nil_append] at hmem
    obtain ⟨k, r, hr, hsampled, w, ip, address, hw, -, heq⟩ := hnew _ hmem
    rw [heq]
    exact ⟨r, List.mem_of_getElem? hr, hsamples.type_eq hsampled hr, rfl, rfl, rfl, Or.inr hw⟩

/-- What is assumed of the raw log holds of everything that is passed on. -/
theorem Extended.wellFormedLog (h : Extended (Sampled env units) ⟨raw, []⟩ after)
    (hsamples : SamplesAccesses env units raw) (hwf : WellFormedLog raw) :
    WellFormedLog ((passedRecords after.raw (some after.new)).map Passed.record) where
  isWrite := by
    rintro _ hmem htype
    obtain ⟨p, hp, rfl⟩ := List.mem_map.mp hmem
    obtain ⟨r, hr, hrtype, -, -, -, hwrite⟩ := h.exists_raw hsamples hp htype
    rcases hwrite with hwrite | hwrite
    · rw [hwrite]
      exact hwf.isWrite r hr hrtype
    · exact hwrite
  threadId := by
    rintro _ hmem _ hmem' htype htype' hno
    obtain ⟨p, hp, rfl⟩ := List.mem_map.mp hmem
    obtain ⟨p', hp', rfl⟩ := List.mem_map.mp hmem'
    obtain ⟨r, hr, hrtype, hrno, hrtid, -⟩ := h.exists_raw hsamples hp htype
    obtain ⟨r', hr', hrtype', hrno', hrtid', -⟩ := h.exists_raw hsamples hp' htype'
    rw [hrtid, hrtid']
    exact hwf.threadId r hr r' hr' hrtype hrtype' (hrno.symm.trans (hno.trans hrno'))

theorem Extended.exists_tracedRun (h : Extended (Sampled env units) ⟨raw, []⟩ after)
    (hsamples : SamplesAccesses env units raw) (hwf : WellFormedLog raw)
    (hcount : ∀ r ∈ raw, r.type = .memoryOp → r.memoryAccess.lockCount ≤ 10) :
    ∃ t, tracedRun false ((passedRecords after.raw (some after.new)).map Passed.record)
      = .ok t := by
  refine Racez.exists_tracedRun (h.wellFormedLog hsamples hwf) ?_ fun h ↦ absurd h (by simp)
  rintro _ hmem htype
  obtain ⟨p, hp, rfl⟩ := List.mem_map.mp hmem
  obtain ⟨r, hr, hrtype, -, -, hlocks, -⟩ := h.exists_raw hsamples hp htype
  rw [hlocks]
  exact hcount r hr hrtype

end Detect

end Racez
