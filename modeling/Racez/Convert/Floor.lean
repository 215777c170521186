import Racez.Convert.Basic

/-!
# Looking up an address

`ConvertIP` looks for the first entry at or behind the address and takes a step back unless that
entry is hit exactly. The two ways of getting at an entry meet in one notion, the *floor*: an entry
whose offset is the greatest one that does not exceed the address. A floor is found whenever there
is one (`exists_lowEntry_iff`). When several entries share its offset, which of them is found is up
to the sort, and an exact hit takes the first of them where a step back takes the last.

## All floors of an address

The order of the entries does not matter for being a floor, and all floors of an address have one
offset. `lowEntry_first` and `lowEntry_last` say which one is found in a sorted vector. A sort that
is not stable can put either of them in front: `tieSorting` is the sort that moves one entry to an
end of its group, and shows that every floor is found under some sort (`exists_lowEntry_eq`).
-/

namespace Racez

open SortedVector Stdio

variable {functions : List FunctionEntry} {offset : BitVec 64} {low f : FunctionEntry}

/-- The entry has the greatest offset that does not exceed the address. -/
structure IsFloor (functions : List FunctionEntry) (offset : BitVec 64) (low : FunctionEntry) :
    Prop where
  /-- It is one of the entries. -/
  mem : low ∈ functions
  /-- It is not above the address. -/
  le : low.offset.toNat ≤ offset.toNat
  /-- No other such entry is above it. -/
  greatest : ∀ f ∈ functions, f.offset.toNat ≤ offset.toNat →
    f.offset.toNat ≤ low.offset.toNat

/-- All floors of an address have one offset. -/
theorem IsFloor.offset_eq {low' : FunctionEntry} (h : IsFloor functions offset low)
    (h' : IsFloor functions offset low') : low.offset = low'.offset := by
  refine BitVec.eq_of_toNat_eq (le_antisymm ?_ ?_)
  · exact h'.greatest low h.mem h.le
  · exact h.greatest low' h'.mem h'.le

theorem isFloor_congr {functions' : List FunctionEntry} (h : functions.Perm functions') :
    IsFloor functions offset low ↔ IsFloor functions' offset low := by
  constructor
  · rintro ⟨hmem, hle, hgreatest⟩
    exact ⟨h.mem_iff.mp hmem, hle, fun f hf ↦ hgreatest f (h.mem_iff.mpr hf)⟩
  · rintro ⟨hmem, hle, hgreatest⟩
    exact ⟨h.mem_iff.mpr hmem, hle, fun f hf ↦ hgreatest f (h.mem_iff.mp hf)⟩

private theorem MyCompare.lt_or_lt (a b c : FunctionEntry) (h : MyCompare a c) :
    MyCompare a b ∨ MyCompare b c :=
  (lt_or_ge a.offset.toNat b.offset.toNat).imp_right fun hba ↦ hba.trans_lt h

theorem mem_of_lowEntry (h : lowEntry functions offset = some low) : low ∈ functions := by
  rw [lowEntry] at h
  split at h
  · exact List.mem_of_getElem? h
  · split at h
    · exact absurd h (by simp)
    · exact List.mem_of_getElem? h

section Sorted

variable (hsorted : functions.Pairwise fun a b ↦ ¬MyCompare b a)
include hsorted

private theorem offset_getElem?_lowerBound (hf : f ∈ functions) (hoffset : f.offset = offset) :
    functions[lowerBound MyCompare functions ⟨"random".toList, offset, 0⟩]?.map (·.offset)
      = some offset := by
  generalize hlow : lowerBound MyCompare functions ⟨"random".toList, offset, 0⟩ = low
  obtain ⟨j, hj⟩ := List.getElem?_of_mem hf
  -- the entry itself is not below the address, so the search stops at it or before it
  have hle : low ≤ j := by
    by_contra hlt
    have hbelow : MyCompare f ⟨"random".toList, offset, 0⟩ :=
      lt_of_lt_lowerBound (hlow ▸ not_le.mp hlt) hj
    exact absurd hbelow (by rw [MyCompare, hoffset]; exact lt_irrefl _)
  obtain ⟨hjlt, rfl⟩ := List.getElem?_eq_some_iff.mp hj
  have hlt : low < functions.length := hle.trans_lt hjlt
  have habove : ¬MyCompare functions[low] ⟨"random".toList, offset, 0⟩ := by
    refine not_lt_of_getElem?_lowerBound (l := functions) ?_
    rw [hlow]
    exact List.getElem?_eq_getElem hlt
  have horder : ¬MyCompare functions[j] functions[low] := by
    rcases hle.eq_or_lt with rfl | hlt'
    · exact lt_irrefl _
    · exact List.pairwise_iff_getElem.mp hsorted _ _ hlt hjlt hlt'
  rw [MyCompare, not_lt] at habove horder
  rw [hoffset] at horder
  rw [List.getElem?_eq_getElem hlt, Option.map_some, Option.some.injEq]
  exact BitVec.eq_of_toNat_eq (le_antisymm horder habove)

theorem isFloor_of_lowEntry (h : lowEntry functions offset = some low) :
    IsFloor functions offset low := by
  refine ⟨mem_of_lowEntry h, ?_, ?_⟩
  · rw [lowEntry] at h
    split_ifs at h with hhit hfirst
    · rw [h, Option.map_some, Option.some.injEq] at hhit
      rw [hhit]
    · have hbelow : MyCompare low ⟨"random".toList, offset, 0⟩ :=
        lt_of_lt_lowerBound (Nat.sub_one_lt hfirst) h
      exact hbelow.le
  · intro f hf hle
    rw [lowEntry] at h
    split_ifs at h with hhit hfirst
    · rw [h, Option.map_some, Option.some.injEq] at hhit
      rwa [hhit]
    · have hne : f.offset ≠ offset := fun heq ↦ hhit (offset_getElem?_lowerBound hsorted hf heq)
      have hbelow : MyCompare f ⟨"random".toList, offset, 0⟩ :=
        lt_of_le_of_ne hle fun heq ↦ hne (BitVec.eq_of_toNat_eq heq)
      have hnot : ¬MyCompare low f := not_lt_of_getElem?_pred_lowerBound hsorted
        MyCompare.lt_or_lt (fun a ↦ lt_irrefl a.offset.toNat) h hf hbelow
      exact not_lt.mp hnot

/-- The search ends at an entry exactly when some entry is at or below the address. -/
theorem exists_lowEntry_iff :
    (∃ low, lowEntry functions offset = some low)
      ↔ ∃ f ∈ functions, f.offset.toNat ≤ offset.toNat := by
  constructor
  · rintro ⟨low, hlow⟩
    have hfloor := isFloor_of_lowEntry hsorted hlow
    exact ⟨low, hfloor.mem, hfloor.le⟩
  · rintro ⟨f, hf, hle⟩
    rw [lowEntry]
    split_ifs with hhit hfirst
    · obtain ⟨e, he, -⟩ := Option.map_eq_some_iff.mp hhit
      exact ⟨e, he⟩
    · -- nothing is below the address, so `f` is at it and would have been a hit
      have hne : f.offset ≠ offset := fun heq ↦ hhit (offset_getElem?_lowerBound hsorted hf heq)
      obtain ⟨j, hj⟩ := List.getElem?_of_mem hf
      have hpos : j < lowerBound MyCompare functions ⟨"random".toList, offset, 0⟩ :=
        lt_lowerBound_of_lt hsorted MyCompare.lt_or_lt hj
          (lt_of_le_of_ne hle fun heq ↦ hne (BitVec.eq_of_toNat_eq heq))
      omega
    · have hle := @lowerBound_le_length _ MyCompare functions ⟨"random".toList, offset, 0⟩ _
      exact ⟨_, List.getElem?_eq_getElem (by omega)⟩

end Sorted

/-! ## Entries with one offset -/

theorem lowEntry_first (h : lowEntry functions offset = some low) (hhit : low.offset = offset) :
    ∃ k, functions[k]? = some low
      ∧ ∀ (j : ℕ) (g), functions[j]? = some g → g.offset = offset → k ≤ j := by
  rw [lowEntry] at h
  split_ifs at h with hfound hfirst
  · refine ⟨_, h, fun j g hj hg ↦ ?_⟩
    by_contra hlt
    have hbelow : MyCompare g ⟨"random".toList, offset, 0⟩ :=
      lt_of_lt_lowerBound (Nat.lt_of_not_le hlt) hj
    rw [MyCompare, hg] at hbelow
    exact lt_irrefl _ hbelow
  · have hbelow : MyCompare low ⟨"random".toList, offset, 0⟩ :=
      lt_of_lt_lowerBound (Nat.sub_one_lt hfirst) h
    rw [MyCompare, hhit] at hbelow
    exact absurd hbelow (lt_irrefl _)

theorem lowEntry_last (hsorted : functions.Pairwise fun a b ↦ ¬MyCompare b a)
    (h : lowEntry functions offset = some low) (hmiss : low.offset ≠ offset) :
    ∃ k, functions[k]? = some low
      ∧ ∀ (j : ℕ) (g), functions[j]? = some g → g.offset.toNat < offset.toNat → j ≤ k := by
  rw [lowEntry] at h
  split_ifs at h with hfound hfirst
  · rw [h, Option.map_some, Option.some.injEq] at hfound
    exact absurd hfound hmiss
  · refine ⟨_, h, fun j g hj hg ↦ Nat.le_sub_one_of_lt ?_⟩
    exact lt_lowerBound_of_lt hsorted MyCompare.lt_or_lt hj hg

/-- The place of an entry when one of them goes in front of all others with its offset, or behind
them. -/
def tieKey (g : FunctionEntry) (first : Bool) (a : FunctionEntry) : ℕ :=
  2 * a.offset.toNat + if decide (a = g) = first then 0 else 1

/-- A sort that puts one entry in front of all others with its offset, or behind them. -/
def tieSorting (g : FunctionEntry) (first : Bool) : Sorting MyCompare where
  sort l := l.mergeSort fun a b ↦ tieKey g first a ≤ tieKey g first b
  perm l := List.mergeSort_perm l _
  pairwise l := by
    refine (pairwise_mergeSort_key (tieKey g first) l).imp ?_
    intro a b hkey hlt
    rw [MyCompare] at hlt
    rw [tieKey, tieKey] at hkey
    split_ifs at hkey <;> omega

private theorem tieKey_le_of_le {g a b : FunctionEntry} {first : Bool} {l : List FunctionEntry}
    {k j : ℕ} (ha : ((tieSorting g first).sort l)[k]? = some a)
    (hb : ((tieSorting g first).sort l)[j]? = some b) (hkj : k ≤ j) :
    tieKey g first a ≤ tieKey g first b := by
  obtain ⟨hk, rfl⟩ := List.getElem?_eq_some_iff.mp ha
  obtain ⟨hj, rfl⟩ := List.getElem?_eq_some_iff.mp hb
  rcases hkj.eq_or_lt with rfl | hlt
  · exact le_rfl
  · exact List.pairwise_iff_getElem.mp (pairwise_mergeSort_key (tieKey g first) l) _ _ hk hj hlt

/-- Every floor of an address is found under some sort. -/
theorem exists_lowEntry_eq {g : FunctionEntry} (hg : IsFloor functions offset g) :
    ∃ sorting : Sorting MyCompare, lowEntry (sorting.sort functions) offset = some g := by
  -- a hit takes the first entry with its offset and a miss the last
  let first : Bool := decide (g.offset = offset)
  have hperm := (tieSorting g first).perm functions
  have hsorted := (tieSorting g first).pairwise functions
  have hmem : g ∈ (tieSorting g first).sort functions := hperm.mem_iff.mpr hg.mem
  obtain ⟨low, hlow⟩ := (exists_lowEntry_iff hsorted).mpr ⟨g, hmem, hg.le⟩
  have hoffset : low.offset = g.offset :=
    ((isFloor_congr hperm).mp (isFloor_of_lowEntry hsorted hlow)).offset_eq hg
  obtain ⟨j, hj⟩ := List.getElem?_of_mem hmem
  suffices hlowg : low = g from ⟨tieSorting g first, hlowg ▸ hlow⟩
  by_contra hne
  by_cases hhit : g.offset = offset
  · obtain ⟨k, hk, hfirst⟩ := lowEntry_first hlow (hoffset.trans hhit)
    have hkey := tieKey_le_of_le hk hj (hfirst j g hj hhit)
    rw [tieKey, tieKey, hoffset] at hkey
    simp [first, hhit, hne] at hkey
  · obtain ⟨k, hk, hlast⟩ := lowEntry_last hsorted hlow (hoffset ▸ hhit)
    have hlt : g.offset.toNat < offset.toNat :=
      lt_of_le_of_ne hg.le fun heq ↦ hhit (BitVec.eq_of_toNat_eq heq)
    have hkey := tieKey_le_of_le hj hk (hlast j g hj hlt)
    rw [tieKey, tieKey, hoffset] at hkey
    simp [first, hhit, hne] at hkey

end Racez
