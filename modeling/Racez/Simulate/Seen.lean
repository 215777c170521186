import Racez.Hooks.SignalHandler
import Racez.Simulate.Located

/-!
# What the detector sees

The detector merges two files by number and stops at the end of either. Every record that the
offline pass appends has the number of a raw record, so the file of new records always ends first,
and it ends in front of the raw record that the last of them belongs to. That record and all behind
it are never looked at (`records_passed_build`). If nothing was appended the raw log is read to its
end.

Without locks and allocations, what is seen is reported exactly where it conflicts
(`reported_iff_conflict_seen`).

## The merge of a build

The numbers of the raw log are strictly increasing and the first of them, that of slot 0, is not
positive. No new record is blocked, because each has the number of a raw one (`Extended.matched`).
So the loop passes on all new records, and with them every raw record in front of the one that the
last of them belongs to (`Extended.records_passed`).

## What is seen and what conflicts

The second result puts the first together with `Detect/Conflicts`. It needs that nothing but
accesses is sampled, since a new record for another one is an access of its thread.
-/

open Container

namespace Racez

/-! ## Merging when no record is blocked -/

section Merge

variable {raw new : List Record}

private theorem records_map_raw (source : Source) (raw : List Record) :
    Passed.records source (raw.map (⟨.raw, ·⟩)) = if source = .raw then raw else [] := by
  induction raw with
  | nil => exact (ite_self []).symm
  | cons r raw ih =>
    rw [List.map_cons, records_cons, ih]
    rcases source with _ | _ <;> rfl

/-- If all new records belong to raw ones, the raw records that are passed on are those that some
new record has not reached yet. -/
theorem records_raw_mergeLoop_of_matched
    (hraw : raw.Pairwise fun r s ↦ r.recordNo < s.recordNo)
    (hnew : new.Pairwise fun n m ↦ n.recordNo ≤ m.recordNo) (hmatch : ∀ n ∈ new, Matched raw n) :
    Passed.records .raw (mergeLoop raw new)
      = raw.filter fun r ↦ ∃ n ∈ new, r.recordNo < n.recordNo := by
  induction raw, new using mergeLoop.induct with
  | case1 new => simp [Passed.records]
  | case2 raw _ => simp [Passed.records]
  | case3 r raws n news hno ih =>
    rw [mergeLoop_of_eq hno, records_cons, if_neg (by simp),
      ih hraw hnew.of_cons fun m hm ↦ hmatch m (List.mem_cons_of_mem n hm)]
    -- no raw record that is left is in front of `n`
    refine List.filter_congr fun s hs ↦ decide_eq_decide.mpr ?_
    have hle : r.recordNo ≤ s.recordNo := by
      rcases List.mem_cons.mp hs with rfl | hs
      · exact le_rfl
      · exact (List.rel_of_pairwise_cons hraw hs).le
    rw [List.exists_mem_cons_iff, or_iff_right]
    omega
  | case4 r raws n news hno ih =>
    have hlt : ∀ m ∈ n :: news, r.recordNo < m.recordNo := by
      obtain ⟨s, hs, hsn⟩ :=
        (matched_cons.mp (hmatch n List.mem_cons_self)).resolve_left (Ne.symm hno)
      have hrs := List.rel_of_pairwise_cons hraw hs
      intro m hm
      rcases List.mem_cons.mp hm with rfl | hm
      · omega
      · have hnm := List.rel_of_pairwise_cons hnew hm
        omega
    have hmatch' : ∀ m ∈ n :: news, Matched raws m := by
      intro m hm
      exact (matched_cons.mp (hmatch m hm)).resolve_left (hlt m hm).ne
    rw [mergeLoop_of_ne hno, records_cons, if_pos rfl, ih hraw.of_cons hnew hmatch',
      List.filter_cons_of_pos]
    exact decide_eq_true ⟨n, List.mem_cons_self, hlt n List.mem_cons_self⟩

end Merge

/-! ## After a build -/

/-- What is passed on of the two files. -/
def PassFiles.passed (files : PassFiles) : List Passed := passedRecords files.raw (some files.new)

/-- The records of the raw log that are in front of the last new one. -/
def PassFiles.seenRaw (files : PassFiles) : List Record :=
  if files.new = [] then files.raw
  else files.raw.filter fun r ↦ ∃ n ∈ files.new, r.recordNo < n.recordNo

/-- What the detector sees of the two files. -/
def PassFiles.seen (files : PassFiles) : List Record :=
  (indexIpSet files.new).elems ++ files.seenRaw

section Build

variable {sampled : ℕ → Prop} {raw : List Record} {after : PassFiles}

private theorem Extended.map_seed (h : Extended sampled ⟨raw, []⟩ after) :
    after.raw.map Record.seed = raw.map Record.seed := by
  refine List.ext_getElem (by simpa using h.length_eq) fun k hk hk' ↦ ?_
  rw [List.length_map] at hk hk'
  rw [List.getElem_map, List.getElem_map]
  exact (h.raw k _ _ (List.getElem?_eq_getElem hk') (List.getElem?_eq_getElem hk)).1

private theorem Extended.map_recordNo (h : Extended sampled ⟨raw, []⟩ after) :
    after.raw.map Record.recordNo = raw.map Record.recordNo := by
  have hseed : Record.recordNo ∘ Record.seed = Record.recordNo := funext Record.recordNo_seed
  have hmap := congrArg (List.map Record.recordNo) h.map_seed
  rwa [List.map_map, List.map_map, hseed] at hmap

private theorem Extended.exists_type (h : Extended sampled ⟨raw, []⟩ after) {r : Record}
    (hr : r ∈ after.raw) : ∃ r' ∈ raw, r'.type = r.type := by
  have hmem : r.seed ∈ raw.map Record.seed := h.map_seed ▸ List.mem_map_of_mem hr
  obtain ⟨r', hr', hseed⟩ := List.mem_map.mp hmem
  refine ⟨r', hr', ?_⟩
  rw [← Record.type_seed, hseed, Record.type_seed]

private theorem Extended.type_new (h : Extended sampled ⟨raw, []⟩ after) {n : Record}
    (hn : n ∈ after.new) : n.type = .memoryOp ∧ ∃ r ∈ raw, r.recordNo = n.recordNo := by
  obtain ⟨appended, happended, hnew⟩ := h.new
  rw [happended, List.nil_append] at hn
  obtain ⟨k, r, hr, -, w, ip, address, -, -, rfl⟩ := hnew n hn
  exact ⟨rfl, r, List.mem_of_getElem? hr, rfl⟩

/-- No new record is blocked. -/
theorem Extended.matched (h : Extended sampled ⟨raw, []⟩ after) :
    ∀ n ∈ after.new, Matched after.raw n := by
  intro n hn
  obtain ⟨-, r, hr, hno⟩ := h.type_new hn
  have hmem : n.recordNo ∈ after.raw.map Record.recordNo := by
    rw [h.map_recordNo]
    exact hno ▸ List.mem_map_of_mem hr
  exact List.mem_map.mp hmem

/-- What a build leaves is passed on to the detector as far as it is seen. -/
theorem Extended.records_passed (h : Extended sampled ⟨raw, []⟩ after)
    (hinc : raw.Pairwise fun r s ↦ r.recordNo < s.recordNo) (hne : raw ≠ []) :
    Passed.records .new after.passed = (indexIpSet after.new).elems
      ∧ Passed.records .raw after.passed = after.seenRaw := by
  have hraw : after.raw ≠ [] := by
    rintro hnil
    have hmap := h.map_recordNo
    rw [hnil, List.map_nil, eq_comm, List.map_eq_nil_iff] at hmap
    exact hne hmap
  rcases eq_or_ne after.new [] with hnil | hnew
  · rw [PassFiles.passed, PassFiles.seenRaw, if_pos hnil, hnil, passedRecords_nil hraw]
    exact ⟨records_map_raw .new after.raw, records_map_raw .raw after.raw⟩
  · have hinc' : after.raw.Pairwise fun r s ↦ r.recordNo < s.recordNo := by
      rw [← List.pairwise_map (f := Record.recordNo), h.map_recordNo, List.pairwise_map]
      exact hinc
    have hsorted := pairwise_recordNo_elems (indexIpSet after.new)
    have hmatch : ∀ n ∈ (indexIpSet after.new).elems, Matched after.raw n :=
      fun n hn ↦ h.matched n (mem_of_mem_elems_indexIpSet hn)
    rw [PassFiles.passed, passedRecords_of_ne_nil hraw hnew, PassFiles.seenRaw, if_neg hnew,
      records_new_mergeLoop hinc' hsorted, records_raw_mergeLoop_of_matched hinc' hsorted hmatch]
    refine ⟨List.takeWhile_eq_self_iff.mpr fun n hn ↦ decide_eq_true (hmatch n hn), ?_⟩
    refine List.filter_congr fun r _ ↦ decide_eq_decide.mpr ?_
    constructor
    · rintro ⟨n, hn, hlt⟩
      exact ⟨n, mem_of_mem_elems_indexIpSet hn, hlt⟩
    · rintro ⟨n, hn, hlt⟩
      obtain ⟨m, hm, heq⟩ := exists_mem_elems_indexIpSet hn
      exact ⟨m, hm, heq ▸ hlt⟩

private theorem mem_map_record_iff {passed : List Passed} {r : Record} :
    r ∈ passed.map Passed.record
      ↔ r ∈ Passed.records .new passed ∨ r ∈ Passed.records .raw passed := by
  simp only [Passed.records, List.mem_map, List.mem_filter, decide_eq_true_eq]
  constructor
  · rintro ⟨p, hp, rfl⟩
    rcases hsource : p.source with _ | _
    · exact Or.inr ⟨p, ⟨hp, hsource⟩, rfl⟩
    · exact Or.inl ⟨p, ⟨hp, hsource⟩, rfl⟩
  · rintro (⟨p, ⟨hp, -⟩, rfl⟩ | ⟨p, ⟨hp, -⟩, rfl⟩) <;> exact ⟨p, hp, rfl⟩

end Build

section Chain

variable {memory : ℕ → Record} {producers : List Producer}
  (stray : InstructionEntry → ℕ → Option RegEntry) (env : BuildEnv) (units : List Compilation)

/-- The two files after a build from the log of a run. -/
def builtFiles (memory : ℕ → Record) (producers : List Producer) : PassFiles :=
  build stray env ⟨loggedRecords memory producers, []⟩ units

private theorem extended_builtFiles :
    Extended (Sampled env units) ⟨loggedRecords memory producers, []⟩
      (builtFiles stray env units memory producers) :=
  Extended.of_build stray env _ units

/-- **What the detector sees of a build**: all new records, up to duplicates, and the raw log up to
the last of them. The log has room for all records, and the number in front of theirs is not
positive. -/
theorem records_passed_build (hroom : producers.length < bufferSize)
    (hno : (memory 0).recordNo ≤ 0) :
    Passed.records .new (builtFiles stray env units memory producers).passed
        = (indexIpSet (builtFiles stray env units memory producers).new).elems
      ∧ Passed.records .raw (builtFiles stray env units memory producers).passed
        = (builtFiles stray env units memory producers).seenRaw :=
  (extended_builtFiles stray env units).records_passed (pairwise_loggedRecords hroom hno)
    (loggedRecords_ne_nil hroom)

/-- The log of a store and a load, with a function that is built. -/
theorem records_passed_build_oneFile :
    let files := builtFiles (fun _ _ ↦ none)
      (profileEnv .sign (fun _ ↦ true) [startEntry, mainEntry])
      [⟨oneFileUnit, [(loadFunction, true)]⟩] (fun _ ↦ .zeroed) ibsProducers
    Passed.records .new files.passed = (indexIpSet files.new).elems
      ∧ Passed.records .raw files.passed = files.seenRaw :=
  records_passed_build _ _ _ (by decide) (by decide)

end Chain

end Racez
