import Racez.Detect.Independence
import Racez.Hooks.Logging

/-!
# Forgetting a freed block

A block that is freed may be handed out again, and with the memory-reuse filter on the detector
forgets everything about its addresses at that point. The release does not carry the size of the
block; it is looked up in the map of allocations, where the record of the allocation has left it.

On its way there the size has become a 32-bit `int`. For blocks of 2 GiB and more it is wrong: zero,
too small, or negative. Zero means that nothing is forgotten, and a negative size turns the range to
be forgotten around, or wraps it. `forgets_iff` says exactly when the block is forgotten all the
same: when no address for which the wrong size makes a difference has an entry.

## The range with the wrong size

The range that is removed goes from the address of the block to that address plus the `int`, as a
64-bit sum. For a size below 2^31 it is the block. In all other cases it differs from the block at
some addresses, and the release is harmless if none of them has an entry (`SizeLossHarmless`). The
proof compares the two descriptions of a range address by address (`entries_removed_iff`), first in
the state in which the release happens, and then after a log that allocates the block and has no
other record that starts there.
-/

open Container

namespace Racez

open DetectState

/-! ## The map of allocations remembers the block -/

section HeapMap

variable {s s' : DetectState} {record : Record} {report : Option Report} {op : MemAllocOp}
  {p : Address}

private theorem find?_heapAfter_of_ne (hp : op.startAddress ≠ p) (heapMap : OrderedMap Address ℤ) :
    (heapAfter true heapMap op).find? p = heapMap.find? p := by
  rw [heapAfter, if_pos rfl]
  split_ifs <;> simp [hp.symm]

private theorem find?_heapAfter_of_alloc (halloc : op.isAlloc ≠ 0)
    (heapMap : OrderedMap Address ℤ) :
    (heapAfter true heapMap op).find? op.startAddress = some op.size := by
  simp [heapAfter, halloc]

/-- A record changes what is remembered of a block only if it is an allocation or a release that
starts there. -/
theorem find?_heapMap_offlineDetection (h : offlineDetection true s record = .ok (s', report))
    (hp : record.type = .memoryAlloc → record.memAllocOp.startAddress ≠ p) :
    s'.heapMap.find? p = s.heapMap.find? p := by
  rw [heapMap_offlineDetection h]
  split_ifs with htype
  · exact find?_heapAfter_of_ne (hp htype) s.heapMap
  · rfl

theorem find?_heapMap_of_alloc (htype : record.type = .memoryAlloc)
    (halloc : record.memAllocOp.isAlloc ≠ 0)
    (h : offlineDetection true s record = .ok (s', report)) :
    s'.heapMap.find? record.memAllocOp.startAddress = some record.memAllocOp.size := by
  rw [heapMap_offlineDetection h, if_pos htype, find?_heapAfter_of_alloc halloc]

end HeapMap

theorem processLog_inStep {reuse : Bool} {log : List Record} {st : DetectState × List Report}
    (h : processLog reuse log = .ok st) : st.1.InStep := by
  refine Run.induction (P := fun _ st ↦ st.1.InStep) h (fun b ↦ ⟨none, entryIs_init b⟩) ?_
  intro l record st st' _ hs hstep
  obtain ⟨report, hoff, -⟩ := detectStep_eq_ok hstep
  exact inStep_offlineDetection hs hoff

/-- After the allocation, and as long as no other record starts at the block, the map of allocations
holds the size from the record. -/
theorem processLog_heapMap {pre mid : List Record} {alloc : Record}
    {st : DetectState × List Report} (htype : alloc.type = .memoryAlloc)
    (halloc : alloc.memAllocOp.isAlloc ≠ 0)
    (hmid : ∀ r ∈ mid, r.type = .memoryAlloc →
      r.memAllocOp.startAddress ≠ alloc.memAllocOp.startAddress)
    (h : processLog true (pre ++ [alloc] ++ mid) = .ok st) :
    st.1.heapMap.find? alloc.memAllocOp.startAddress = some alloc.memAllocOp.size := by
  induction mid using List.reverseRecOn generalizing st with
  | nil =>
    rw [List.append_nil, processLog_append_singleton, Run.bind_eq_ok] at h
    obtain ⟨st₀, -, hstep⟩ := h
    obtain ⟨report, hoff, -⟩ := detectStep_eq_ok hstep
    exact find?_heapMap_of_alloc htype halloc hoff
  | append_singleton mid record ih =>
    rw [← List.append_assoc, processLog_append_singleton, Run.bind_eq_ok] at h
    obtain ⟨st₀, hst₀, hstep⟩ := h
    obtain ⟨report, hoff, -⟩ := detectStep_eq_ok hstep
    have hold := ih (fun r hr ↦ hmid r (List.mem_append_left _ hr)) hst₀
    rw [find?_heapMap_offlineDetection hoff (hmid record (by simp)), hold]

/-! ## The release of a block -/

/-- The release of the block `[p, p + n)` removes the entries of its addresses and no other. -/
def Forgets (s : DetectState) (free : Record) (p : Address) (n : BitVec 64) : Prop :=
  ∃ s', offlineDetection true s free = .ok (s', none) ∧ ∀ a o, s.EntryIs a o →
    s'.EntryIs a (if p ≤ a ∧ a.toNat < p.toNat + n.toNat then none else o)

/-- No address at which the size as an `int` makes a difference has an entry. A negative size that
reaches below the address zero wraps around. -/
def SizeLossHarmless (s : DetectState) (p : Address) (n : BitVec 64) : Prop :=
  if 0 ≤ (p.toNat : ℤ) + toInt32 n.toNat then
    ∀ a : Address, s.HasEntry a →
      ¬((p.toNat : ℤ) + toInt32 n.toNat ≤ a.toNat ∧ a.toNat < p.toNat + n.toNat)
  else
    ∀ a : Address, s.HasEntry a →
      ¬(p.toNat + n.toNat ≤ a.toNat ∧ (a.toNat : ℤ) < 2 ^ 64 + p.toNat + toInt32 n.toNat)

section Forgets

variable {s s' : DetectState} {free : Record} {p : Address} {n : BitVec 64}

private theorem sizeLossHarmless_of_lt (s : DetectState) (p : Address) (h : n.toNat < 2 ^ 31) :
    SizeLossHarmless s p n := by
  rw [SizeLossHarmless, toInt32_of_lt h, if_pos (by omega)]
  intro a _
  omega

/-- Two ways to describe what was removed agree if they do on the addresses with an entry. -/
theorem entries_removed_iff (hs : s.InStep) {R S : Address → Prop} [DecidablePred R]
    [DecidablePred S] (h : ∀ a o, s.EntryIs a o → s'.EntryIs a (if R a then none else o)) :
    (∀ a o, s.EntryIs a o → s'.EntryIs a (if S a then none else o))
      ↔ ∀ a, s.HasEntry a → (R a ↔ S a) := by
  constructor
  · intro hS a ha
    obtain ⟨o, ho⟩ := hs a
    have heq := (h a o ho).unique (hS a o ho)
    have hsome : o ≠ none := by
      rintro rfl
      rw [ho.hasEntry_iff] at ha
      exact absurd ha (by simp)
    by_cases hR : R a
    · rw [if_pos hR] at heq
      refine iff_of_true hR ?_
      by_contra hnot
      rw [if_neg hnot] at heq
      exact hsome heq.symm
    · rw [if_neg hR] at heq
      refine iff_of_false hR ?_
      intro hS'
      rw [if_pos hS'] at heq
      exact hsome heq
  · intro hiff a o ho
    have hRa := h a o ho
    cases o with
    | none => simpa using hRa
    | some e =>
      have ha : s.HasEntry a := by rw [ho.hasEntry_iff]; rfl
      rwa [if_congr (hiff a ha) rfl rfl] at hRa

private theorem toInt32_size (n : BitVec 64) : ∃ q : ℤ, (n.toNat : ℤ) = toInt32 n.toNat + 2 ^ 32 * q
    ∧ 0 ≤ q ∧ q ≤ 2 ^ 32 ∧ -2 ^ 31 ≤ toInt32 n.toNat ∧ toInt32 n.toNat < 2 ^ 31 := by
  have hlt := n.isLt
  generalize hsize : toInt32 n.toNat = size
  rw [toInt32, Int.bmod_def] at hsize
  push_cast at hsize
  refine ⟨((n.toNat : ℤ) - size) / 2 ^ 32, ?_⟩
  split_ifs at hsize <;> omega

theorem toNat_add_ofInt (p : Address) (size : ℤ) :
    ((p + BitVec.ofInt 64 size).toNat : ℤ) = (p.toNat + size) % 2 ^ 64 := by
  rw [BitVec.toNat_add, BitVec.toNat_ofInt]
  omega

theorem offlineDetection_alloc_eq_ok_iff (htype : free.type = .memoryAlloc) :
    offlineDetection true s free = .ok (s', none)
      ↔ detectAlloc true s free.memAllocOp = .ok s' := by
  rw [offlineDetection, htype]
  dsimp only
  rw [Run.bind_eq_ok]
  constructor
  · rintro ⟨s₁, hs₁, h⟩
    obtain ⟨rfl, -⟩ := Prod.mk.inj (Except.ok.inj h)
    exact hs₁
  · intro h
    exact ⟨s', h, rfl⟩

/-- A release that gets through removes the entries of a set of addresses if it concerns these
addresses, among those with an entry. -/
theorem exists_release_iff (hs : s.InStep) (htype : free.type = .memoryAlloc)
    (h : detectAlloc true s free.memAllocOp = .ok s') {S : Address → Prop} [DecidablePred S] :
    (∃ s', offlineDetection true s free = .ok (s', none) ∧ ∀ a o, s.EntryIs a o →
        s'.EntryIs a (if S a then none else o))
      ↔ ∀ a, s.HasEntry a → (Releases true s free.memAllocOp a ↔ S a) := by
  rw [← entries_removed_iff hs fun a o ho ↦ entryIs_detectAlloc h ho]
  constructor
  · rintro ⟨s₁, hs₁, hentries⟩
    obtain rfl := Except.ok.inj (h.symm.trans ((offlineDetection_alloc_eq_ok_iff htype).mp hs₁))
    exact hentries
  · intro hentries
    exact ⟨s', (offlineDetection_alloc_eq_ok_iff htype).mpr h, hentries⟩

@[simp] theorem heapSize_snd (s : DetectState) (p : Address) :
    (heapSize s p).2 = (s.heapMap.find? p).getD 0 := by
  simp [heapSize]

theorem exists_detectAlloc_free_iff {size : ℤ} (hs : s.InStep) (hp : p ≠ 0)
    (hsize : (heapSize s p).2 = size) :
    (∃ s', detectAlloc true s ⟨p, 0, 0⟩ = .ok s')
      ↔ size ≠ 0 → ∀ a, p + BitVec.ofInt 64 size ≤ a → a < p → ¬s.HasEntry a := by
  rw [detectAlloc, if_pos rfl, if_neg (by simp), if_neg hp, if_pos rfl]
  dsimp only
  rw [hsize]
  by_cases hzero : size = 0
  · rw [if_pos hzero]
    exact iff_of_true ⟨_, rfl⟩ fun hne ↦ absurd hzero hne
  · rw [if_neg hzero, exists_deleteMapEntries_iff (inStep_heapSize hs p)]
    exact ⟨fun h _ ↦ h, fun h ↦ h hzero⟩

theorem releases_free_iff {size : ℤ} {a : Address} (hp : p ≠ 0)
    (hsize : (heapSize s p).2 = size) :
    Releases true s ⟨p, 0, 0⟩ a ↔ size ≠ 0 ∧ p ≤ a ∧ a < p + BitVec.ofInt 64 size := by
  rw [Releases]
  dsimp only
  rw [if_pos rfl, hsize]
  exact ⟨fun h ↦ ⟨h.2.2.2.1, h.2.2.2.2⟩, fun h ↦ ⟨rfl, rfl, hp, h⟩⟩

private theorem forgets_iff_of_heapMap (hs : s.InStep) (htype : free.type = .memoryAlloc)
    (hop : free.memAllocOp = ⟨p, 0, 0⟩) (hp : p ≠ 0) (hfit : p.toNat + n.toNat < 2 ^ 64)
    (hheap : s.heapMap.find? p = some (toInt32 n.toNat)) :
    Forgets s free p n ↔ SizeLossHarmless s p n := by
  obtain ⟨q, hq, hq₀, hq₁, hlo, hhi⟩ := toInt32_size n
  have hend := toNat_add_ofInt p (toInt32 n.toNat)
  have hsize : (heapSize s p).2 = toInt32 n.toNat := by
    rw [heapSize_snd, hheap, Option.getD_some]
  have hexists := exists_detectAlloc_free_iff hs hp hsize
  have hreleases := fun a : Address ↦ releases_free_iff (a := a) hp hsize
  clear hsize
  rw [SizeLossHarmless]
  rw [← hop] at hexists hreleases
  generalize toInt32 n.toNat = size at *
  by_cases hdef : ∃ s', detectAlloc true s free.memAllocOp = .ok s'
  · -- the loops are defined: compare the two ranges address by address
    have hbelow := hexists.mp hdef
    obtain ⟨s', hs'⟩ := hdef
    rw [Forgets, exists_release_iff hs htype hs']
    have hpoint : ∀ a, s.HasEntry a → ((Releases true s free.memAllocOp a
        ↔ p ≤ a ∧ a.toNat < p.toNat + n.toNat)
          ↔ if 0 ≤ (p.toNat : ℤ) + size
            then ¬((p.toNat : ℤ) + size ≤ a.toNat ∧ a.toNat < p.toNat + n.toNat)
            else ¬(p.toNat + n.toNat ≤ a.toNat ∧ (a.toNat : ℤ) < 2 ^ 64 + p.toNat + size)) := by
      intro a ha
      have hnot : size ≠ 0 → ¬(p + BitVec.ofInt 64 size ≤ a ∧ a < p) := fun hne hbetween ↦
        hbelow hne a hbetween.1 hbetween.2 ha
      rw [hreleases, BitVec.le_def, BitVec.lt_def]
      rw [BitVec.le_def, BitVec.lt_def] at hnot
      have halt := a.isLt
      split_ifs <;> omega
    split_ifs with hsign
    · exact forall₂_congr fun a ha ↦ (hpoint a ha).trans (by rw [if_pos hsign])
    · exact forall₂_congr fun a ha ↦ (hpoint a ha).trans (by rw [if_neg hsign])
  · -- one of them runs away over an entry below the block
    refine iff_of_false ?_ ?_
    · rintro ⟨s', hs', -⟩
      exact hdef ⟨s', (offlineDetection_alloc_eq_ok_iff htype).mp hs'⟩
    · rw [hexists] at hdef
      push Not at hdef
      obtain ⟨hne, a, hhi, hlt, ha⟩ := hdef
      rw [BitVec.le_def] at hhi
      rw [BitVec.lt_def] at hlt
      intro hharmless
      split_ifs at hharmless with hsign
      · exact hharmless a ha (by omega)
      · omega

end Forgets

/-- The release after a log that allocates the block, and in which no other record starts there. -/
theorem forgets_iff_of_log {pre mid : List Record} {alloc free : Record} {tid tid' : ℤ}
    {p : Address} {n : BitVec 64} {st : DetectState × List Report} (hp : p ≠ 0)
    (hfit : p.toNat + n.toNat < 2 ^ 64) (halloc : alloc.Carries (mallocRecord tid p n))
    (hfree : free.Carries (freeRecord tid' p))
    (hmid : ∀ r ∈ mid, r.type = .memoryAlloc → r.memAllocOp.startAddress ≠ p)
    (hrun : processLog true (pre ++ [alloc] ++ mid) = .ok st) :
    Forgets st.1 free p n ↔ SizeLossHarmless st.1 p n := by
  obtain ⟨htype, hop⟩ := halloc.alloc
  have hheap := processLog_heapMap htype (by rw [hop]; simp) (by rw [hop]; exact hmid) hrun
  rw [hop] at hheap
  dsimp only at hheap
  exact forgets_iff_of_heapMap (n := n) (processLog_inStep hrun) hfree.alloc.1 hfree.alloc.2 hp hfit
    hheap

/-- **Forgetting a freed block, exactly.** Between the record of `malloc` and the record of `free`
no other record starts at the block. Then the release forgets the block, all of it and nothing else,
if and only if no address at which the truncated size makes a difference has an entry; that is so
for every block below 2 GiB. -/
theorem forgets_iff {pre mid : List Record} {alloc free : Record} {tid tid' : ℤ} {p : Address}
    {n : BitVec 64} {s : DetectState} {reports : List Report} (hp : p ≠ 0)
    (hfit : p.toNat + n.toNat < 2 ^ 64) (halloc : alloc.Carries (mallocRecord tid p n))
    (hfree : free.Carries (freeRecord tid' p))
    (hmid : ∀ r ∈ mid, r.type = .memoryAlloc → r.memAllocOp.startAddress ≠ p)
    (hrun : processLog true (pre ++ [alloc] ++ mid) = .ok (s, reports)) :
    (Forgets s free p n ↔ SizeLossHarmless s p n)
      ∧ (n.toNat < 2 ^ 31 → SizeLossHarmless s p n) :=
  ⟨@forgets_iff_of_log pre mid alloc free tid tid' p n _ hp hfit halloc hfree hmid hrun,
    @sizeLossHarmless_of_lt n s p⟩

/-- A block with one access to it and one behind it. -/
def usedBlock (n : BitVec 64) : List Record :=
  [mallocRecord 7 64 n, sampleAccess 2 7 64 1 [], sampleAccess 3 7 128 1 []]

private theorem Record.carries_refl (record : Record) : record.Carries record where
  threadId := rfl
  type := rfl
  payload := by
    rw [SamePayload]
    split
    · exact ⟨rfl, rfl, rfl, rfl, rfl, rfl, rfl⟩
    all_goals trivial
  traceDepth := rfl
  trace := rfl

theorem forgets_usedBlock : ∃ s reports, processLog true (usedBlock 16) = .ok (s, reports)
    ∧ s.HasEntry 64 ∧ Forgets s (freeRecord 7 64) 64 16 := by
  refine ⟨_, _, rfl, by decide, ?_⟩
  have hthm := @forgets_iff [] (usedBlock 16).tail (mallocRecord 7 64 16) (freeRecord 7 64) 7 7 64
    16 _ _ (by decide) (by decide) (Record.carries_refl _) (Record.carries_refl _) (by decide) rfl
  exact hthm.1.mpr (hthm.2 (by decide))

/-- A block of 4 GiB has size zero in the log, and stays. -/
theorem not_forgets_fourGiB :
    ∃ s reports, processLog true (usedBlock (2 ^ 32)) = .ok (s, reports)
      ∧ s.HasEntry 64 ∧ ¬Forgets s (freeRecord 7 64) 64 (2 ^ 32) := by
  refine ⟨_, _, rfl, by decide, ?_⟩
  rw [@forgets_iff_of_log [] (usedBlock (2 ^ 32)).tail (mallocRecord 7 64 (2 ^ 32))
    (freeRecord 7 64) 7 7 64 (2 ^ 32) _ (by decide) (by decide) (Record.carries_refl _)
    (Record.carries_refl _) (by decide) rfl, SizeLossHarmless, if_pos (by decide)]
  intro hharmless
  exact hharmless 64 (by decide) (by decide)

end Racez
