import Racez.Detect.Forget

/-!
# The size a release uses

A release does not say how large the block was, and the detector looks the size up in its map of
allocations. The map is written by the records of allocations only. No release takes an entry out
of it again, so a block that was freed, and whose address was then handed out by a function without
a record, is released with the size of the block that was there before.

`heapSize_processLog` says what the map holds after any log: the size of the latest allocation at
the address, however long ago it was released. `freeExact_iff` compares the release with what it
should do, which depends on the latest record at the address only.

## The map over a log

`heapAfter` is what one record does to the map: an allocation writes its size, and the look-up of a
release leaves a zero where there was nothing. Nothing is ever taken out, so after any log the map
has at each address the size of the latest allocation (`heapSize_processLog`).

## When a release is exact

`FreeExact` compares the entries before and after the release with the block that is live. If the
latest record at the address is the allocation of the block, the size found is right. If it is a
release, nothing is live and something may still be removed, namely the entries of the block that
was there before; the release is exact if there are none. `Mishandled` is the set of addresses in
question, in closed form, so that the result can be evaluated on a log and a start.
-/

open Container

namespace Racez

open DetectState

/-! ## The records at an address -/

/-- The allocations and releases that start at an address. -/
def allocsAt (p : Address) (log : List Record) : List MemAllocOp :=
  (log.filter fun r ↦ r.type = .memoryAlloc ∧ r.memAllocOp.startAddress = p).map Record.memAllocOp

/-- The size of the latest allocation there, whatever has happened since. -/
def latestSize (p : Address) (log : List Record) : Option ℤ :=
  (((allocsAt p log).filter fun op ↦ op.isAlloc ≠ 0).getLast?).map MemAllocOp.size

/-- The size of the block there, if the latest record is an allocation. -/
def liveSize (p : Address) (log : List Record) : Option ℤ :=
  ((allocsAt p log).getLast?.filter fun op ↦ op.isAlloc ≠ 0).map MemAllocOp.size

section AllocsAt

variable {p : Address} {log : List Record} {record : Record}

private theorem allocsAt_append_of_not (h : record.type = .memoryAlloc →
    record.memAllocOp.startAddress ≠ p) : allocsAt p (log ++ [record]) = allocsAt p log := by
  have hnot : ¬(record.type = .memoryAlloc ∧ record.memAllocOp.startAddress = p) :=
    fun h' ↦ h h'.1 h'.2
  simp [allocsAt, hnot]

private theorem allocsAt_append_of_eq (htype : record.type = .memoryAlloc)
    (hstart : record.memAllocOp.startAddress = p) :
    allocsAt p (log ++ [record]) = allocsAt p log ++ [record.memAllocOp] := by
  simp [allocsAt, htype, hstart]

private theorem latestSize_append_of_not (h : record.type = .memoryAlloc →
    record.memAllocOp.startAddress ≠ p) : latestSize p (log ++ [record]) = latestSize p log := by
  rw [latestSize, allocsAt_append_of_not h, latestSize]

private theorem latestSize_append_of_free (hfree : record.memAllocOp.isAlloc = 0) :
    latestSize p (log ++ [record]) = latestSize p log := by
  by_cases h : record.type = .memoryAlloc ∧ record.memAllocOp.startAddress = p
  · rw [latestSize, allocsAt_append_of_eq h.1 h.2, List.filter_append, latestSize]
    simp [hfree]
  · exact latestSize_append_of_not fun htype hstart ↦ h ⟨htype, hstart⟩

private theorem latestSize_append_of_alloc (htype : record.type = .memoryAlloc)
    (hstart : record.memAllocOp.startAddress = p) (halloc : record.memAllocOp.isAlloc ≠ 0) :
    latestSize p (log ++ [record]) = some record.memAllocOp.size := by
  rw [latestSize, allocsAt_append_of_eq htype hstart, List.filter_append]
  simp [halloc]

private theorem latestSize_of_liveSize {n : ℤ} (h : liveSize p log = some n) :
    latestSize p log = some n := by
  obtain ⟨op, hop, rfl⟩ := Option.map_eq_some_iff.mp h
  obtain ⟨hlast, halloc⟩ := Option.filter_eq_some_iff.mp hop
  obtain ⟨near, heq⟩ := List.getLast?_eq_some_iff.mp hlast
  rw [latestSize, heq, List.filter_append]
  simp [of_decide_eq_true halloc]

private theorem exists_mem_of_latestSize {n : ℤ} (h : latestSize p log = some n) :
    ∃ r ∈ log, r.type = .memoryAlloc ∧ r.memAllocOp.isAlloc ≠ 0 ∧ r.memAllocOp.size = n := by
  obtain ⟨op, hop, rfl⟩ := Option.map_eq_some_iff.mp h
  obtain ⟨hmem, halloc⟩ := List.mem_filter.mp (List.mem_of_getLast? hop)
  obtain ⟨r, hr, rfl⟩ := List.mem_map.mp hmem
  obtain ⟨hr, hat⟩ := List.mem_filter.mp hr
  exact ⟨r, hr, (of_decide_eq_true hat).1, of_decide_eq_true halloc, rfl⟩

end AllocsAt

/-! ## What the map of allocations holds -/

section HeapMap

variable {s s' : DetectState} {record : Record} {report : Option Report} {op : MemAllocOp}

/-- A release reads the map, and may leave a zero where there was nothing. -/
theorem getD_find?_heapAfter_of_free (hfree : op.isAlloc = 0) (heapMap : OrderedMap Address ℤ)
    (p : Address) : ((heapAfter true heapMap op).find? p).getD 0 = (heapMap.find? p).getD 0 := by
  rw [heapAfter, if_pos rfl, if_neg (not_not_intro hfree)]
  split_ifs
  · rfl
  · rw [OrderedMap.find?_insert]
    split_ifs with hp
    · rw [hp, Option.getD_some]
    · rfl
  · rfl

private theorem getD_find?_heapMap_of_free (htype : record.type = .memoryAlloc)
    (hfree : record.memAllocOp.isAlloc = 0)
    (h : offlineDetection true s record = .ok (s', report)) (p : Address) :
    (s'.heapMap.find? p).getD 0 = (s.heapMap.find? p).getD 0 := by
  rw [offlineDetection, htype] at h
  dsimp only at h
  rw [Run.bind_eq_ok] at h
  obtain ⟨s₁, hs₁, h⟩ := h
  obtain ⟨rfl, -⟩ := Prod.mk.inj (Except.ok.inj h)
  rw [heapMap_detectAlloc hs₁, getD_find?_heapAfter_of_free hfree]

/-- After any log the size found is that of the latest allocation. -/
theorem heapSize_processLog {log : List Record} {st : DetectState × List Report}
    (h : processLog true log = .ok st) (p : Address) :
    (heapSize st.1 p).2 = (latestSize p log).getD 0 := by
  rw [heapSize_snd]
  refine Run.induction (P := fun log (st : DetectState × List Report) ↦
    (st.1.heapMap.find? p).getD 0 = (latestSize p log).getD 0) h rfl ?_
  intro l record st st' _ hold hstep
  obtain ⟨report, hoff, -⟩ := detectStep_eq_ok hstep
  by_cases hat : record.type = .memoryAlloc ∧ record.memAllocOp.startAddress = p
  · obtain ⟨htype, rfl⟩ := hat
    by_cases halloc : record.memAllocOp.isAlloc ≠ 0
    · rw [find?_heapMap_of_alloc htype halloc hoff, latestSize_append_of_alloc htype rfl halloc]
    · have hfree := not_not.mp halloc
      rw [getD_find?_heapMap_of_free htype hfree hoff, latestSize_append_of_free hfree, hold]
  · have hnot : record.type = .memoryAlloc → record.memAllocOp.startAddress ≠ p :=
      fun htype hstart ↦ hat ⟨htype, hstart⟩
    rw [find?_heapMap_offlineDetection hoff hnot, latestSize_append_of_not hnot, hold]

end HeapMap

/-! ## The release -/

/-- The address is in the block that is live at `p`. -/
def InLiveBlock (p : Address) (log : List Record) (a : Address) : Prop :=
  ∃ n ∈ liveSize p log, p ≤ a ∧ a.toNat < p.toNat + n

instance (p : Address) (log : List Record) (a : Address) : Decidable (InLiveBlock p log a) :=
  inferInstanceAs (Decidable (∃ n ∈ liveSize p log, _))

/-- What the release of a block at `p` should do: remove the entries of the live block there, and
nothing if there is none. -/
def FreeExact (s : DetectState) (log : List Record) (p : Address) (free : Record) : Prop :=
  ∃ s', offlineDetection true s free = .ok (s', none) ∧ ∀ a o, s.EntryIs a o →
    s'.EntryIs a (if InLiveBlock p log a then none else o)

/-- The addresses a release gets wrong. If the latest record is a release too, it is the block that
was there before, or when its range wraps around what lies between its two ends. Of a live block it
is everything at the address zero, and everything from its end on when its range wraps around. -/
def Mishandled (p : Address) (log : List Record) (a : Address) : Prop :=
  match liveSize p log, latestSize p log with
  | none, none => False
  | none, some n => p ≠ 0 ∧
    if p.toNat + n < 2 ^ 64 then p ≤ a ∧ a.toNat < p.toNat + n
    else p.toNat + n - 2 ^ 64 ≤ a.toNat ∧ a < p
  | some n, _ =>
    if p = 0 then a.toNat < n else 2 ^ 64 ≤ p.toNat + n ∧ p.toNat + n - 2 ^ 64 ≤ a.toNat

/-- The sizes of allocations are positive, and of type `int`. -/
def PositiveSizes (log : List Record) : Prop :=
  ∀ r ∈ log, r.type = .memoryAlloc → r.memAllocOp.isAlloc ≠ 0 →
    0 < r.memAllocOp.size ∧ r.memAllocOp.size < 2 ^ 31

instance (log : List Record) : Decidable (PositiveSizes log) :=
  inferInstanceAs (Decidable (∀ r ∈ log, _))

section Release

variable {s s' : DetectState} {free : Record} {p : Address} {log : List Record}

private theorem inLiveBlock_iff {n : ℤ} (h : liveSize p log = some n) {a : Address} :
    InLiveBlock p log a ↔ p.toNat ≤ a.toNat ∧ a.toNat < p.toNat + n := by
  rw [InLiveBlock, h, ← BitVec.le_def]
  simp

private theorem not_inLiveBlock (h : liveSize p log = none) (a : Address) :
    ¬InLiveBlock p log a := by
  rw [InLiveBlock, h]
  simp

private theorem mishandled_of_live {n : ℤ} (h : liveSize p log = some n) {a : Address} :
    Mishandled p log a ↔ if p = 0 then a.toNat < n
      else 2 ^ 64 ≤ p.toNat + n ∧ p.toNat + n - 2 ^ 64 ≤ a.toNat := by
  rw [Mishandled, h]

private theorem mishandled_of_stale {n : ℤ} (h : liveSize p log = none)
    (hlatest : latestSize p log = some n) {a : Address} :
    Mishandled p log a ↔ p ≠ 0
      ∧ if p.toNat + n < 2 ^ 64 then p.toNat ≤ a.toNat ∧ a.toNat < p.toNat + n
        else p.toNat + n - 2 ^ 64 ≤ a.toNat ∧ a.toNat < p.toNat := by
  rw [Mishandled, h, hlatest]
  rfl

private theorem not_freeExact_of_error (htype : free.type = .memoryAlloc)
    (h : ¬∃ s', detectAlloc true s free.memAllocOp = .ok s') : ¬FreeExact s log p free := by
  rintro ⟨s', hs', -⟩
  exact h ⟨s', (offlineDetection_alloc_eq_ok_iff htype).mp hs'⟩

private theorem detectAlloc_free_of_zero (h : p = 0 ∨ (heapSize s p).2 = 0) :
    (∃ s', detectAlloc true s ⟨p, 0, 0⟩ = .ok s') ∧ ∀ a, ¬Releases true s ⟨p, 0, 0⟩ a := by
  constructor
  · rw [detectAlloc, if_pos rfl, if_neg (by simp)]
    by_cases hp : p = 0
    · exact ⟨s, if_pos hp⟩
    · rw [if_neg hp, if_pos rfl]
      exact ⟨_, if_pos (h.resolve_left hp)⟩
  · rintro a ⟨-, -, hp, hsize, -⟩
    exact h.elim hp hsize

private theorem freeExact_iff_of_null {n : ℤ} (hs : s.InStep) (htype : free.type = .memoryAlloc)
    (hop : free.memAllocOp = ⟨0, 0, 0⟩) (hlatest : latestSize 0 log = some n) :
    FreeExact s log 0 free ↔ ∀ a, s.HasEntry a → ¬Mishandled 0 log a := by
  obtain ⟨⟨s', hs'⟩, hnone⟩ := detectAlloc_free_of_zero (s := s) (Or.inl rfl)
  rw [FreeExact, exists_release_iff hs htype (hop ▸ hs'), hop]
  refine forall₂_congr fun a _ ↦ ?_
  rw [iff_false_left (hnone a)]
  cases hlive : liveSize 0 log with
  | none =>
    refine iff_of_true (not_inLiveBlock hlive a) ?_
    rw [mishandled_of_stale hlive hlatest]
    exact fun h ↦ h.1 rfl
  | some m =>
    rw [inLiveBlock_iff hlive, mishandled_of_live hlive, if_pos rfl]
    simp

section Block

variable {n : ℤ} (hp : p ≠ 0) (hlatest : latestSize p log = some n) (hpos : 0 < n)
  (hlt : n < 2 ^ 31)

include hp hlatest hpos hlt

/-- An entry that the loops run away over is below a block that wraps around. -/
theorem mishandled_of_between {a : Address} (hlo : p + BitVec.ofInt 64 n ≤ a) (hhi : a < p) :
    Mishandled p log a := by
  have hend := toNat_add_ofInt p n
  have hplt := p.isLt
  rw [BitVec.le_def] at hlo
  rw [BitVec.lt_def] at hhi
  cases hlive : liveSize p log with
  | none =>
    rw [mishandled_of_stale hlive hlatest, if_neg (by omega)]
    exact ⟨hp, by omega⟩
  | some m =>
    obtain rfl : n = m := Option.some.inj (hlatest.symm.trans (latestSize_of_liveSize hlive))
    rw [mishandled_of_live hlive, if_neg hp]
    omega

private theorem range_iff_inLiveBlock_iff {a : Address}
    (hnot : ¬(p + BitVec.ofInt 64 n ≤ a ∧ a < p)) :
    ((n ≠ 0 ∧ p ≤ a ∧ a < p + BitVec.ofInt 64 n) ↔ InLiveBlock p log a)
      ↔ ¬Mishandled p log a := by
  have hend := toNat_add_ofInt p n
  have hplt := p.isLt
  have halt := a.isLt
  rw [BitVec.le_def, BitVec.lt_def] at hnot
  rw [BitVec.le_def, BitVec.lt_def]
  cases hlive : liveSize p log with
  | none =>
    rw [iff_false_right (not_inLiveBlock hlive a), mishandled_of_stale hlive hlatest,
      and_iff_right hp]
    split_ifs <;> omega
  | some m =>
    obtain rfl : n = m := Option.some.inj (hlatest.symm.trans (latestSize_of_liveSize hlive))
    rw [inLiveBlock_iff hlive, mishandled_of_live hlive, if_neg hp]
    omega

end Block

private theorem freeExact_iff_of_heapSize {n : ℤ} (hs : s.InStep) (htype : free.type = .memoryAlloc)
    (hop : free.memAllocOp = ⟨p, 0, 0⟩) (hlatest : latestSize p log = some n)
    (hsize : (heapSize s p).2 = n) (hpos : 0 < n) (hlt : n < 2 ^ 31) :
    FreeExact s log p free ↔ ∀ a, s.HasEntry a → ¬Mishandled p log a := by
  by_cases hp : p = 0
  · subst hp
    exact freeExact_iff_of_null hs htype hop hlatest
  · have hexists := exists_detectAlloc_free_iff hs hp hsize
    have hreleases := fun a : Address ↦ releases_free_iff (a := a) hp hsize
    rw [← hop] at hexists hreleases
    by_cases hok : ∃ s', detectAlloc true s free.memAllocOp = .ok s'
    · have hbelow := hexists.mp hok hpos.ne'
      obtain ⟨s', hs'⟩ := hok
      rw [FreeExact, exists_release_iff hs htype hs']
      refine forall₂_congr fun a ha ↦ ?_
      rw [hreleases]
      exact range_iff_inLiveBlock_iff hp hlatest hpos hlt fun h ↦ hbelow a h.1 h.2 ha
    · -- the loops run away over an entry below the block
      refine iff_of_false (not_freeExact_of_error htype hok) ?_
      rw [hexists] at hok
      push Not at hok
      obtain ⟨-, a, hlo, hhi, ha⟩ := hok
      exact fun hnone ↦ hnone a ha (mishandled_of_between hp hlatest hpos hlt hlo hhi)

end Release

/-- **The size a release uses, exactly.** After any log in which the sizes of allocations are
positive, a release without a size at `p` removes the entries of the block that is live there, and
nothing if there is none, if and only if no address that it gets wrong has an entry. -/
theorem freeExact_iff {log : List Record} {s : DetectState} {reports : List Report} {p : Address}
    {free : Record} (hsizes : PositiveSizes log) (htype : free.type = .memoryAlloc)
    (hop : free.memAllocOp = ⟨p, 0, 0⟩) (hrun : processLog true log = .ok (s, reports)) :
    FreeExact s log p free ↔ ∀ a, s.HasEntry a → ¬Mishandled p log a := by
  have hs : s.InStep := processLog_inStep hrun
  have hsize : (heapSize s p).2 = (latestSize p log).getD 0 := heapSize_processLog hrun p
  cases hlatest : latestSize p log with
  | none =>
    have hlive : liveSize p log = none := by
      by_contra hsome
      obtain ⟨n, hn⟩ := Option.ne_none_iff_exists'.mp hsome
      exact absurd ((latestSize_of_liveSize hn).symm.trans hlatest) (by simp)
    rw [hlatest, Option.getD_none] at hsize
    obtain ⟨⟨s', hs'⟩, hnone⟩ := detectAlloc_free_of_zero (s := s) (Or.inr hsize)
    rw [FreeExact, exists_release_iff hs htype (hop ▸ hs'), hop]
    refine forall₂_congr fun a _ ↦ ?_
    refine iff_of_true (iff_of_false (hnone a) (not_inLiveBlock hlive a)) ?_
    rw [Mishandled, hlive, hlatest]
    exact not_false
  | some n =>
    rw [hlatest, Option.getD_some] at hsize
    obtain ⟨r, hr, hrtype, halloc, rfl⟩ := exists_mem_of_latestSize hlatest
    obtain ⟨hpos, hlt⟩ := hsizes r hr hrtype halloc
    exact freeExact_iff_of_heapSize hs htype hop hlatest hsize hpos hlt

/-- A block that is used and released. -/
theorem freeExact_usedBlock : ∃ s reports, processLog true (usedBlock 16) = .ok (s, reports)
    ∧ s.HasEntry 64 ∧ FreeExact s (usedBlock 16) 64 (freeRecord 7 64) := by
  refine ⟨_, _, rfl, by decide, ?_⟩
  refine (@freeExact_iff (usedBlock 16) _ [] 64 (freeRecord 7 64) (by decide) rfl rfl rfl).mpr ?_
  intro a _
  rw [mishandled_of_live (n := 16) (by decide), if_neg (by decide)]
  exact fun h ↦ absurd h.1 (by decide)

/-- A block of 16 bytes is released; then its address is used again, in a block of which there is no
record. -/
def reusedAddress : List Record :=
  [mallocRecord 7 64 16, freeRecord 7 64, sampleAccess 3 7 64 1 []]

/-- The release of the second block removes the entry as if the first one were still there. -/
theorem not_freeExact_reusedAddress :
    ∃ s reports, processLog true reusedAddress = .ok (s, reports)
      ∧ liveSize 64 reusedAddress = none ∧ s.HasEntry 64
      ∧ (∃ s', offlineDetection true s (freeRecord 7 64) = .ok (s', none) ∧ ¬s'.HasEntry 64)
      ∧ ¬FreeExact s reusedAddress 64 (freeRecord 7 64) := by
  obtain ⟨s, reports, hrun, hentry, hfree⟩ :
      ∃ s reports, processLog true reusedAddress = .ok (s, reports) ∧ s.HasEntry 64
        ∧ ∃ s', offlineDetection true s (freeRecord 7 64) = .ok (s', none) ∧ ¬s'.HasEntry 64 :=
    ⟨_, _, rfl, by decide, _, rfl, by decide⟩
  refine ⟨s, reports, hrun, by decide, hentry, hfree, ?_⟩
  rintro ⟨s₁, hs₁, hentries⟩
  obtain ⟨s', hs', hgone⟩ := hfree
  obtain ⟨rfl, -⟩ := Prod.mk.inj (Except.ok.inj (hs₁.symm.trans hs'))
  obtain ⟨o, ho⟩ := processLog_inStep hrun 64
  have hkept := hentries 64 o ho
  rw [if_neg (not_inLiveBlock (by decide) 64)] at hkept
  rw [ho.hasEntry_iff] at hentry
  rw [hkept.hasEntry_iff] at hgone
  exact hgone hentry

end Racez
