import Racez.Container.OrderedSet
import Racez.Detect.Invariant

/-!
# The main loop of the detector

The detector reads two files: the raw log, and optionally the records that were reconstructed from
it afterwards. Reconstructed records carry the number of the raw record they belong to, several may
carry the same number, and they are put in order first. The main loop then advances through both.

The loop stops as soon as *either* stream is at its end, so raw records that follow the last
reconstructed one are never passed on. A reconstructed record whose number does not occur in the raw
log is never overtaken: it keeps the loop going to the end of the raw log, and it blocks the
reconstructed records behind it. `passedRecords_losesNothing_iff` says exactly when no record is
lost either way. The order in which the reconstructed records were appended to their file does not
matter (`detect_eq_of_sameRecords`).

## The loop on two lists

`mergeLoop` is the loop of `main` on what is left of both files. Its lemmas are inductions along the
loop itself: what is passed on is in the file it comes from (`of_mem_mergeLoop`), the numbers do not
decrease (`pairwise_mergeLoop`), and the new records that are passed on are those in front of the
first one that is blocked (`records_new_mergeLoop`). Each of them says at once what a stream that
ends early costs.

## The set in between

The new records go through a set ordered by number and instruction address before the loop sees
them, so duplicates are dropped and the order in the file is lost. A number is never lost by this
(`exists_mem_elems_indexIpSet`), so that statements about numbers hold of the file with or without
duplicates.
-/

open Container

namespace Racez

/-! ## The loop -/

/-- The file a record was read from. -/
inductive Source
  | raw
  | new
  deriving DecidableEq

/-- A record passed to `offline_detection`, with the file it was read from. -/
structure Passed where
  /-- The file it comes from. -/
  source : Source
  /-- The record. -/
  record : Record
  deriving DecidableEq

/-- The merging loop of `main`: the records passed on, in order. -/
def mergeLoop : List Record → List Record → List Passed
  | [], _ => []
  | _, [] => []
  | raw :: raws, new :: news =>
    if new.recordNo = raw.recordNo then ⟨.new, new⟩ :: mergeLoop (raw :: raws) news
    else ⟨.raw, raw⟩ :: mergeLoop raws (new :: news)
  termination_by raws news => raws.length + news.length

/-- `index_ip_set`: the reconstructed records in order, without duplicates. -/
def indexIpSet (new : List Record) : OrderedSet Record.lt := OrderedSet.ofList new

/-- The records `main` passes on. Without a second file, or with one that has no record, the raw
records are passed on alone; without a raw record nothing is. -/
def passedRecords (raw : List Record) (new : Option (List Record)) : List Passed :=
  match raw, new with
  | [], _ => []
  | raw, none => raw.map (⟨.raw, ·⟩)
  | raw, some [] => raw.map (⟨.raw, ·⟩)
  | raw, some new => mergeLoop raw (indexIpSet new).elems

/-- The program: the detector on the merged files. -/
def detect (enableMemoryReuse : Bool) (raw : List Record) (new : Option (List Record)) :
    Except Fault (DetectState × List Report) :=
  processLog enableMemoryReuse ((passedRecords raw new).map Passed.record)

@[simp] theorem map_record_passedRecords_none (log : List Record) :
    (passedRecords log none).map Passed.record = log := by
  cases log with
  | nil => rfl
  | cons r log =>
    rw [passedRecords, List.map_map]
    · exact List.map_id _
    · simp

theorem detect_none_eq_ok {enableMemoryReuse : Bool} {log : List Record} {s : DetectState}
    {reports : List Report} : detect enableMemoryReuse log none = .ok (s, reports)
      ↔ ∃ t, tracedRun enableMemoryReuse log = .ok t ∧ t.state = s ∧ t.reports = reports := by
  rw [detect, map_record_passedRecords_none]
  refine ⟨exists_tracedRun_of_processLog, ?_⟩
  rintro ⟨t, ht, rfl, rfl⟩
  rw [processLog_eq_map_tracedRun, ht]
  rfl

/-! ## What the loop should do -/

/-- The records of one file among those passed on. -/
def Passed.records (source : Source) (passed : List Passed) : List Record :=
  (passed.filter fun p ↦ p.source = source).map Passed.record

/-- The raw log has a record with the same number. -/
def Matched (raw : List Record) (new : Record) : Prop := ∃ r ∈ raw, r.recordNo = new.recordNo

instance (raw : List Record) : DecidablePred (Matched raw) := fun _ ↦
  inferInstanceAs (Decidable (∃ r ∈ raw, _))

/-- The reconstructed records without a raw record have larger numbers than all others. -/
def BlockedLast (raw new : List Record) : Prop :=
  ∀ n ∈ new, ∀ m ∈ new, Matched raw n → ¬Matched raw m → n.recordNo < m.recordNo

instance (raw new : List Record) : Decidable (BlockedLast raw new) :=
  inferInstanceAs (Decidable (∀ n ∈ new, ∀ m ∈ new, _))

/-- The merge loses nothing: every raw record once, every reconstructed record that has a raw
record once, in the order of their numbers and the raw record last among equals. -/
structure LosesNothing (raw new : List Record) (passed : List Passed) : Prop where
  /-- Every raw record, once. -/
  raw_once : (Passed.records .raw passed).Perm raw
  /-- Every new record that has a raw one, once. -/
  new_once : (Passed.records .new passed).Perm
    ((OrderedSet.firsts Record.lt new).filter fun n ↦ Matched raw n)
  /-- The numbers do not decrease. -/
  ordered : passed.Pairwise fun p q ↦ p.record.recordNo ≤ q.record.recordNo
  /-- Among equal numbers the new records come first. -/
  new_first : passed.Pairwise fun p q ↦ p.record.recordNo = q.record.recordNo →
    p.source = .raw → q.source = .raw

/-! ## Prefixes and filters -/

private theorem takeWhile_congr {α : Type*} {p q : α → Bool} {l : List α} (h : ∀ x ∈ l, p x = q x) :
    l.takeWhile p = l.takeWhile q := by
  induction l with
  | nil => rfl
  | cons x l ih =>
    rw [List.takeWhile_cons, List.takeWhile_cons, h x List.mem_cons_self,
      ih fun y hy ↦ h y (List.mem_cons_of_mem x hy)]

/-- A prefix cut at the first failure loses nothing exactly when nothing behind a failure passes. -/
theorem takeWhile_perm_filter_iff {α : Type*} (p : α → Bool) (l : List α) :
    (l.takeWhile p).Perm (l.filter p) ↔ l.Pairwise fun x y ↦ p y → p x := by
  induction l with
  | nil => exact iff_of_true (List.Perm.refl _) List.Pairwise.nil
  | cons x l ih =>
    rw [List.pairwise_cons]
    by_cases hx : p x
    · rw [List.takeWhile_cons_of_pos hx, List.filter_cons_of_pos hx, List.perm_cons, ih]
      exact (and_iff_right fun y _ _ ↦ hx).symm
    · rw [List.takeWhile_cons_of_neg hx, List.filter_cons_of_neg hx, List.nil_perm,
        List.filter_eq_nil_iff]
      constructor
      · intro h
        exact ⟨fun y hy hpy ↦ absurd hpy (h y hy),
          List.pairwise_of_forall_mem_list fun y _ z hz hpz ↦ absurd hpz (h z hz)⟩
      · rintro ⟨h, -⟩ y hy hpy
        exact hx (h y hy hpy)

/-! ## One pass over the loop

The streams of the loop are in order: raw numbers strictly, reconstructed numbers weakly. -/

section Loop

variable {raw new : List Record}

@[simp] theorem mergeLoop_nil_left : mergeLoop [] new = [] := by rw [mergeLoop]

@[simp] theorem mergeLoop_nil_right : mergeLoop raw [] = [] := by
  cases raw <;> simp only [mergeLoop]

theorem mergeLoop_of_eq {r n : Record} (h : n.recordNo = r.recordNo) :
    mergeLoop (r :: raw) (n :: new) = ⟨.new, n⟩ :: mergeLoop (r :: raw) new := by
  rw [mergeLoop, if_pos h]

theorem mergeLoop_of_ne {r n : Record} (h : n.recordNo ≠ r.recordNo) :
    mergeLoop (r :: raw) (n :: new) = ⟨.raw, r⟩ :: mergeLoop raw (n :: new) := by
  rw [mergeLoop, if_neg h]

@[simp] theorem not_matched_nil (n : Record) : ¬Matched [] n := by
  rintro ⟨r, hr, -⟩
  exact absurd hr (by simp)

@[simp] theorem matched_cons {r n : Record} :
    Matched (r :: raw) n ↔ r.recordNo = n.recordNo ∨ Matched raw n := by
  simp only [Matched, List.mem_cons, exists_eq_or_imp]

/-- When the heads of the streams differ, either the reconstructed one is blocked for good, or the
raw one belongs to none of the reconstructed records that are left. -/
theorem blocked_or_matched_cons_iff {r n : Record}
    (hraw : (r :: raw).Pairwise fun r s ↦ r.recordNo < s.recordNo)
    (hnew : (n :: new).Pairwise fun n m ↦ n.recordNo ≤ m.recordNo) (hno : n.recordNo ≠ r.recordNo) :
    (¬Matched (r :: raw) n ∧ ¬Matched raw n)
      ∨ ∀ m ∈ n :: new, Matched (r :: raw) m ↔ Matched raw m := by
  rcases lt_or_gt_of_ne hno with hlt | hlt
  · have hn : ¬Matched raw n := by
      rintro ⟨s, hs, hsn⟩
      exact (hlt.trans (List.rel_of_pairwise_cons hraw hs)).ne hsn.symm
    exact Or.inl ⟨fun h ↦ (matched_cons.mp h).elim (fun h ↦ hno h.symm) hn, hn⟩
  · refine Or.inr ?_
    intro m hm
    have hnm : n.recordNo ≤ m.recordNo := by
      rcases List.mem_cons.mp hm with rfl | hm
      · exact le_rfl
      · exact List.rel_of_pairwise_cons hnew hm
    rw [matched_cons]
    exact or_iff_right (hlt.trans_le hnm).ne

/-- What is passed on is in the file it comes from, and carries a raw number. -/
theorem of_mem_mergeLoop {p : Passed} (h : p ∈ mergeLoop raw new) :
    (p.record ∈ raw ∨ p.record ∈ new) ∧ Matched raw p.record := by
  induction raw, new using mergeLoop.induct with
  | case1 => simp at h
  | case2 => simp at h
  | case3 r raws n news hno ih =>
    rw [mergeLoop_of_eq hno, List.mem_cons] at h
    rcases h with rfl | h
    · exact ⟨Or.inr List.mem_cons_self, r, List.mem_cons_self, hno.symm⟩
    · exact (ih h).imp_left (Or.imp_right (List.mem_cons_of_mem n))
  | case4 r raws n news hno ih =>
    rw [mergeLoop_of_ne hno, List.mem_cons] at h
    rcases h with rfl | h
    · exact ⟨Or.inl List.mem_cons_self, r, List.mem_cons_self, rfl⟩
    · obtain ⟨hmem, hmatched⟩ := ih h
      exact ⟨hmem.imp_left (List.mem_cons_of_mem r), matched_cons.mpr (Or.inr hmatched)⟩

/-- The order of the records passed on. It does not depend on the reconstructed records. -/
theorem pairwise_mergeLoop (hraw : raw.Pairwise fun r s ↦ r.recordNo < s.recordNo) :
    (mergeLoop raw new).Pairwise fun p q ↦ p.record.recordNo ≤ q.record.recordNo
      ∧ (p.source = .raw → p.record.recordNo < q.record.recordNo) := by
  induction raw, new using mergeLoop.induct with
  | case1 new => simp
  | case2 raw _ => simp
  | case3 r raws n news hno ih =>
    -- the raw record stays, so equal numbers may follow
    rw [mergeLoop_of_eq hno]
    refine List.pairwise_cons.mpr ⟨fun q hq ↦ ⟨?_, nofun⟩, ih hraw⟩
    obtain ⟨s, hs, hsq⟩ := (of_mem_mergeLoop hq).2
    have hrs : r.recordNo ≤ s.recordNo := by
      rcases List.mem_cons.mp hs with rfl | hs
      · exact le_rfl
      · exact (List.rel_of_pairwise_cons hraw hs).le
    exact (hno.trans_le hrs).trans_eq hsq
  | case4 r raws n news hno ih =>
    rw [mergeLoop_of_ne hno]
    refine List.pairwise_cons.mpr ⟨?_, ih hraw.of_cons⟩
    intro q hq
    obtain ⟨s, hs, hsq⟩ := (of_mem_mergeLoop hq).2
    have hrq : r.recordNo < q.record.recordNo :=
      (List.rel_of_pairwise_cons hraw hs).trans_eq hsq
    exact ⟨hrq.le, fun _ ↦ hrq⟩

theorem records_cons (source : Source) (p : Passed) (l : List Passed) :
    Passed.records source (p :: l)
      = if p.source = source then p.record :: Passed.records source l
        else Passed.records source l := by
  rw [Passed.records, List.filter_cons]
  by_cases h : p.source = source
  · rw [if_pos (decide_eq_true h), if_pos h, List.map_cons, ← Passed.records]
  · rw [if_neg (by simpa using h), if_neg h, ← Passed.records]

theorem records_new_mergeLoop (hraw : raw.Pairwise fun r s ↦ r.recordNo < s.recordNo)
    (hnew : new.Pairwise fun n m ↦ n.recordNo ≤ m.recordNo) :
    Passed.records .new (mergeLoop raw new) = new.takeWhile fun n ↦ Matched raw n := by
  induction raw, new using mergeLoop.induct with
  | case1 new => cases new <;> simp [Passed.records]
  | case2 raw _ => simp [Passed.records]
  | case3 r raws n news hno ih =>
    have hn : Matched (r :: raws) n := matched_cons.mpr (Or.inl hno.symm)
    rw [mergeLoop_of_eq hno, records_cons, if_pos rfl, ih hraw hnew.of_cons, List.takeWhile_cons,
      if_pos (decide_eq_true hn)]
  | case4 r raws n news hno ih =>
    rw [mergeLoop_of_ne hno, records_cons, if_neg nofun, ih hraw.of_cons hnew]
    rcases blocked_or_matched_cons_iff hraw hnew hno with ⟨-, hn'⟩ | hiff
    · simp [Ne.symm hno, hn']
    · exact takeWhile_congr fun m hm ↦ decide_eq_decide.mpr (hiff m hm).symm

/-- The raw records passed on are a prefix, which is everything exactly when a reconstructed
record is blocked. -/
theorem records_raw_mergeLoop (hraw : raw.Pairwise fun r s ↦ r.recordNo < s.recordNo)
    (hnew : new.Pairwise fun n m ↦ n.recordNo ≤ m.recordNo) :
    Passed.records .raw (mergeLoop raw new) <+: raw
      ∧ (Passed.records .raw (mergeLoop raw new) = raw
        ↔ raw = [] ∨ ∃ n ∈ new, ¬Matched raw n) := by
  induction raw, new using mergeLoop.induct with
  | case1 new => simp [Passed.records]
  | case2 raw hne => simp [Passed.records, eq_comm]
  | case3 r raws n news hno ih =>
    have hn : Matched (r :: raws) n := matched_cons.mpr (Or.inl hno.symm)
    obtain ⟨hpre, hiff⟩ := ih hraw hnew.of_cons
    rw [mergeLoop_of_eq hno, records_cons, if_neg nofun]
    refine ⟨hpre, hiff.trans (or_congr_right ?_)⟩
    simp only [List.mem_cons, exists_eq_or_imp, not_true_eq_false, false_or, hn]
  | case4 r raws n news hno ih =>
    obtain ⟨hpre, hiff⟩ := ih hraw.of_cons hnew
    rw [mergeLoop_of_ne hno, records_cons, if_pos rfl, List.cons_prefix_cons, List.cons_inj_right]
    refine ⟨⟨rfl, hpre⟩, hiff.trans ?_⟩
    rw [or_iff_right (List.cons_ne_nil r raws)]
    rcases blocked_or_matched_cons_iff hraw hnew hno with ⟨hn, hn'⟩ | hmatch
    · exact iff_of_true (Or.inr ⟨n, List.mem_cons_self, hn'⟩) ⟨n, List.mem_cons_self, hn⟩
    · -- once the raw records are used up, `n` has no match
      have hblocked : raws = [] → ∃ m ∈ n :: news, ¬Matched (r :: raws) m := by
        rintro rfl
        refine ⟨n, List.mem_cons_self, ?_⟩
        intro h
        exact not_matched_nil n ((hmatch n List.mem_cons_self).mp h)
      constructor
      · rintro (h | ⟨m, hm, h⟩)
        · exact hblocked h
        · exact ⟨m, hm, fun h' ↦ h ((hmatch m hm).mp h')⟩
      · rintro ⟨m, hm, h⟩
        exact Or.inr ⟨m, hm, fun h' ↦ h ((hmatch m hm).mpr h')⟩

end Loop

/-! ## When nothing is lost -/

theorem pairwise_recordNo_elems (s : OrderedSet Record.lt) :
    s.elems.Pairwise fun n m ↦ n.recordNo ≤ m.recordNo :=
  s.sorted.imp fun h ↦ h.elim le_of_lt fun h ↦ h.1.le

theorem exists_mem_elems_indexIpSet {new : List Record} {n : Record} (h : n ∈ new) :
    ∃ m ∈ (indexIpSet new).elems, m.recordNo = n.recordNo := by
  obtain ⟨m, hm, hmn⟩ := @OrderedSet.exists_mem_firsts _ Record.lt _ _ _ h
  refine ⟨m, (OrderedSet.elems_ofList_perm new).mem_iff.mpr hm, ?_⟩
  rcases hmn with rfl | hmn
  · rfl
  · exact (Record.not_lt_and_not_lt_iff.mp hmn).1.symm

theorem mem_of_mem_elems_indexIpSet {new : List Record} {n : Record}
    (h : n ∈ (indexIpSet new).elems) : n ∈ new :=
  OrderedSet.mem_of_mem_firsts ((OrderedSet.elems_ofList_perm new).mem_iff.mp h)

private theorem matched_congr {raw : List Record} {n m : Record} (h : n.recordNo = m.recordNo) :
    Matched raw n ↔ Matched raw m := by
  rw [Matched, Matched, h]

/-- A statement about numbers holds of the reconstructed records with or without duplicates. -/
theorem exists_not_matched_elems_iff {raw new : List Record} :
    (∃ n ∈ (indexIpSet new).elems, ¬Matched raw n)
      ↔ ∃ n ∈ new, ¬Matched raw n := by
  constructor
  · rintro ⟨n, hn, h⟩
    exact ⟨n, mem_of_mem_elems_indexIpSet hn, h⟩
  · rintro ⟨n, hn, h⟩
    obtain ⟨m, hm, hmn⟩ := exists_mem_elems_indexIpSet hn
    exact ⟨m, hm, mt (matched_congr hmn).mp h⟩

private theorem blockedLast_elems_iff {raw new : List Record} :
    BlockedLast raw (indexIpSet new).elems
      ↔ BlockedLast raw new := by
  constructor
  · intro h n hn m hm hmatch hnot
    obtain ⟨n', hn', heqn⟩ := exists_mem_elems_indexIpSet hn
    obtain ⟨m', hm', heqm⟩ := exists_mem_elems_indexIpSet hm
    rw [← heqn, ← heqm]
    exact h n' hn' m' hm' ((matched_congr heqn).mpr hmatch) (mt (matched_congr heqm).mp hnot)
  · intro h n hn m hm
    exact h n (mem_of_mem_elems_indexIpSet hn) m (mem_of_mem_elems_indexIpSet hm)

/-- In a stream with nondecreasing numbers, none is lost behind a blocked one exactly when the
blocked ones have the largest numbers. -/
theorem takeWhile_matched_perm_iff {raw new : List Record}
    (hnew : new.Pairwise fun n m ↦ n.recordNo ≤ m.recordNo) :
    (new.takeWhile fun n ↦ Matched raw n).Perm (new.filter fun n ↦ Matched raw n)
      ↔ BlockedLast raw new := by
  rw [takeWhile_perm_filter_iff]
  simp only [decide_eq_true_eq]
  constructor
  · intro h
    refine List.Pairwise.forall_of_forall_of_flip (fun n _ hn hn' ↦ absurd hn hn') ?_ ?_
    · exact hnew.imp fun hle hn hm ↦ lt_of_le_of_ne hle fun heq ↦ hm ((matched_congr heq).mp hn)
    · exact h.imp fun hnm hm hn ↦ absurd (hnm hm) hn
  · intro h
    refine hnew.imp_of_mem fun {n m} hn hm hle hmatch ↦ ?_
    by_contra hnot
    exact absurd (h m hm n hn hmatch hnot) (not_lt.mpr hle)

theorem passedRecords_of_ne_nil {raw new : List Record} (hraw : raw ≠ []) (hnew : new ≠ []) :
    passedRecords raw (some new)
      = mergeLoop raw (indexIpSet new).elems := by
  obtain ⟨r, raw, rfl⟩ := List.exists_cons_of_ne_nil hraw
  obtain ⟨n, new, rfl⟩ := List.exists_cons_of_ne_nil hnew
  rfl

theorem passedRecords_nil {raw : List Record} (hraw : raw ≠ []) :
    passedRecords raw (some []) = raw.map (⟨.raw, ·⟩) := by
  rw [passedRecords]
  exact hraw

theorem mem_of_mem_passedRecords {raw new : List Record} {p : Passed}
    (h : p ∈ passedRecords raw (some new)) : p.record ∈ raw ∨ p.record ∈ new := by
  rcases eq_or_ne raw [] with rfl | hraw
  · exact absurd h List.not_mem_nil
  rcases eq_or_ne new [] with rfl | hnew
  · rw [passedRecords_nil hraw] at h
    obtain ⟨r, hr, rfl⟩ := List.mem_map.mp h
    exact Or.inl hr
  · rw [passedRecords_of_ne_nil hraw hnew] at h
    exact (of_mem_mergeLoop h).1.imp_right mem_of_mem_elems_indexIpSet

/-- The merge loses nothing exactly when some reconstructed record has no raw record, and all of
those have larger numbers than the reconstructed records that do. -/
theorem passedRecords_losesNothing_iff {raw new : List Record} (hraw : raw ≠ []) (hnew : new ≠ [])
    (hinc : raw.Pairwise fun r s ↦ r.recordNo < s.recordNo) :
    LosesNothing raw new (passedRecords raw (some new))
      ↔ (∃ n ∈ new, ¬Matched raw n) ∧ BlockedLast raw new := by
  have hsorted := pairwise_recordNo_elems (indexIpSet new)
  have hfirsts : ((indexIpSet new).elems.filter fun n ↦ Matched raw n).Perm
      ((OrderedSet.firsts Record.lt new).filter fun n ↦ Matched raw n) :=
    (OrderedSet.elems_ofList_perm new).filter _
  obtain ⟨hpre, hall⟩ := records_raw_mergeLoop hinc hsorted
  rw [or_iff_right hraw, exists_not_matched_elems_iff] at hall
  have hprefix := @takeWhile_matched_perm_iff raw _ hsorted
  rw [blockedLast_elems_iff, ← records_new_mergeLoop hinc hsorted] at hprefix
  rw [passedRecords_of_ne_nil hraw hnew, ← hall, ← hprefix]
  constructor
  · intro h
    exact ⟨hpre.eq_of_length h.raw_once.length_eq, h.new_once.trans hfirsts.symm⟩
  · rintro ⟨hrawAll, hnewAll⟩
    have horder := @pairwise_mergeLoop raw (indexIpSet new).elems hinc
    refine ⟨List.Perm.of_eq hrawAll, hnewAll.trans hfirsts, horder.imp fun h ↦ h.1, ?_⟩
    exact horder.imp fun h heq hsource ↦ absurd heq (h.2 hsource).ne

/-- The record with number 3 has no raw record, so the raw log is read to its end. -/
theorem passedRecords_losesNothing_blocked :
    LosesNothing unlockedPair [sampleAccess 1 7 72 0 [], sampleAccess 3 7 80 0 []]
      (passedRecords unlockedPair
        (some [sampleAccess 1 7 72 0 [], sampleAccess 3 7 80 0 []])) :=
  (passedRecords_losesNothing_iff (by decide) (by decide) (by decide)).mpr (by decide)

/-- The last reconstructed record belongs to the first raw record, and no raw record is passed. -/
theorem not_losesNothing_unlockedPair :
    unlockedPair.Pairwise (fun r s ↦ r.recordNo < s.recordNo)
      ∧ passedRecords unlockedPair (some [sampleAccess 1 7 72 0 []])
        = [⟨.new, sampleAccess 1 7 72 0 []⟩]
      ∧ ¬LosesNothing unlockedPair [sampleAccess 1 7 72 0 []]
        (passedRecords unlockedPair (some [sampleAccess 1 7 72 0 []])) := by
  have hpassed : passedRecords unlockedPair (some [sampleAccess 1 7 72 0 []])
      = [⟨.new, sampleAccess 1 7 72 0 []⟩] := by
    change mergeLoop (sampleAccess 1 7 64 1 [] :: [sampleAccess 2 8 64 0 []])
      (sampleAccess 1 7 72 0 [] :: []) = _
    have hno : (sampleAccess 1 7 72 0 []).recordNo = (sampleAccess 1 7 64 1 []).recordNo := rfl
    rw [mergeLoop_of_eq hno, mergeLoop_nil_right]
  refine ⟨by decide, hpassed, ?_⟩
  intro h
  rw [hpassed] at h
  have hraw : [].Perm unlockedPair := h.raw_once
  exact List.cons_ne_nil _ _ hraw.nil_eq.symm

/-! ## The order of the second file

The loop sees the second file only through the set, so neither the order in which the records were
appended nor a repetition reaches the detector. -/

/-- No two different records of the file agree on both keys of the order. -/
def KeysDetermine (new : List Record) : Prop :=
  ∀ r ∈ new, ∀ s ∈ new,
    r.recordNo = s.recordNo → r.memoryAccess.pip = s.memoryAccess.pip → r = s

instance (new : List Record) : Decidable (KeysDetermine new) :=
  inferInstanceAs (Decidable (∀ r ∈ new, ∀ s ∈ new, _))

private theorem indexIpSet_eq_of_mem_iff {new new' : List Record} (hmem : ∀ r, r ∈ new ↔ r ∈ new')
    (hkeys : KeysDetermine new) : indexIpSet new = indexIpSet new' := by
  refine OrderedSet.ofList_eq_ofList hmem ?_
  intro r hr s hs hrs
  obtain ⟨hno, hpip⟩ := Record.not_lt_and_not_lt_iff.mp hrs
  exact hkeys r hr s hs hno hpip

theorem passedRecords_eq_of_mem_iff {new new' : List Record} (raw : List Record)
    (hmem : ∀ r, r ∈ new ↔ r ∈ new') (hkeys : KeysDetermine new) :
    passedRecords raw (some new) = passedRecords raw (some new') := by
  rcases eq_or_ne raw [] with rfl | hraw
  · rfl
  rcases eq_or_ne new [] with rfl | hnew
  · obtain rfl : new' = [] := List.eq_nil_iff_forall_not_mem.mpr fun r hr ↦
      List.not_mem_nil ((hmem r).mpr hr)
    rfl
  · have hnew' : new' ≠ [] := by
      obtain ⟨r, hr⟩ := List.exists_mem_of_ne_nil new hnew
      exact List.ne_nil_of_mem ((hmem r).mp hr)
    rw [passedRecords_of_ne_nil hraw hnew, passedRecords_of_ne_nil hraw hnew',
      indexIpSet_eq_of_mem_iff hmem hkeys]

/-- Two second files with the same records, in any order and with any repetitions, lead to the same
records being passed on and so to the same outcome of the detector. -/
theorem detect_eq_of_sameRecords {new new' : List Record} (hmem : ∀ r, r ∈ new ↔ r ∈ new')
    (hkeys : KeysDetermine new) (raw : List Record) (enableMemoryReuse : Bool) :
    passedRecords raw (some new) = passedRecords raw (some new')
      ∧ detect enableMemoryReuse raw (some new) = detect enableMemoryReuse raw (some new') := by
  have hpassed := passedRecords_eq_of_mem_iff raw hmem hkeys
  refine ⟨hpassed, ?_⟩
  rw [detect, detect, hpassed]

/-- Two reconstructed records, then the same two the other way round with one repeated. -/
theorem detect_eq_of_sameRecords_unlockedPair :
    passedRecords unlockedPair (some [sampleAccess 1 7 72 0 [], sampleAccess 3 7 80 0 []])
        = passedRecords unlockedPair
          (some [sampleAccess 3 7 80 0 [], sampleAccess 1 7 72 0 [], sampleAccess 3 7 80 0 []])
      ∧ detect false unlockedPair (some [sampleAccess 1 7 72 0 [], sampleAccess 3 7 80 0 []])
        = detect false unlockedPair
          (some [sampleAccess 3 7 80 0 [], sampleAccess 1 7 72 0 [], sampleAccess 3 7 80 0 []]) := by
  refine detect_eq_of_sameRecords ?_ (by decide) unlockedPair false
  intro r
  simp only [List.mem_cons, List.not_mem_nil, or_false]
  tauto

end Racez
