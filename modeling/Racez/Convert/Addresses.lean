import Racez.Convert.Spec
import Racez.Convert.SymbolRows

/-!
# From an instruction address to a line

`WriteRawRecord` prints an address, `ConvertIP` reads it back and prints the name of a symbol and
the distance from it. The address is printed without a sign and read back as a signed number, so
that the upper half of the address space is mapped to one address (`survives_iff`). Below, the
symbol is the floor of the address in the table (`emits_floor`), and there is none at all if the
table begins behind the address (`inVector_iff`).

## Where an address is lost

The text of an address has at least eight hexadecimal digits and no sign. `strtoll` reads it as a
signed number, and saturates: all addresses from 2^63 on are read as 2^63 - 1, which is what
`addressRead` says. The difference that is printed is then the distance of that address from its
floor, and it is a distance that can be printed and read back, since a step down from below 2^63
does not wrap around (`IsFloor.toInt_sub`).
-/

namespace Racez

open SortedVector Stdio

variable {strcmp : Strcmp} {functions : List FunctionEntry} {r : Record}

/-! ## The address that is read back -/

private theorem writeRawRecord_of_memoryOp (hr : r.type = .memoryOp) :
    writeRawRecord r = "0x".toList ++ hex8 r.memoryAccess.pip.toNat ++ ['\n'] := by
  rw [writeRawRecord, hr]

private theorem writeRawRecord_of_ne (hr : r.type ≠ .memoryOp) :
    writeRawRecord r = "invalid\n".toList := by
  rw [writeRawRecord]
  split
  · contradiction
  · rfl

/-- The address `ConvertIP` reads on the line of a record. -/
def addressRead (r : Record) : BitVec 64 :=
  if r.type = .memoryOp then BitVec.ofNat 64 (min r.memoryAccess.pip.toNat (2 ^ 63 - 1)) else 0

theorem toNat_addressRead (hr : r.type = .memoryOp) :
    (addressRead r).toNat = min r.memoryAccess.pip.toNat (2 ^ 63 - 1) := by
  rw [addressRead, if_pos hr, BitVec.toNat_ofNat]
  omega

theorem addressRead_of_lt (hr : r.type = .memoryOp) (hip : r.memoryAccess.pip.toNat < 2 ^ 63) :
    addressRead r = r.memoryAccess.pip := by
  refine BitVec.eq_of_toNat_eq ?_
  rw [toNat_addressRead hr]
  omega

private theorem notMem_writeRawRecord (r : Record) : '\x00' ∉ writeRawRecord r := by
  obtain ⟨l, hl, hword, -⟩ := writeRawRecord_spec r
  rw [hl, List.mem_append]
  rintro (hc | hc)
  · exact absurd (List.all_eq_true.mp hword _ hc) (by decide)
  · exact absurd hc (by decide)

theorem strtoll_writeRawRecord (r : Record) :
    BitVec.ofInt 64 (strtoll 16 (cString (writeRawRecord r))).1 = addressRead r := by
  rw [cString_eq_self (notMem_writeRawRecord r), addressRead]
  split_ifs with hr
  · have hcast : min (r.memoryAccess.pip.toNat : ℤ) (2 ^ 63 - 1)
        = (min r.memoryAccess.pip.toNat (2 ^ 63 - 1) : ℕ) := by omega
    rw [writeRawRecord_of_memoryOp hr, strtoll_hex8 _ (by decide)]
    dsimp only
    rw [hcast, BitVec.ofInt_natCast]
  · have hword : strtoll 16 "invalid\n".toList = (0, "invalid\n".toList) := by decide
    rw [writeRawRecord_of_ne hr, hword]
    rfl

/-- An address is below the word `invalid` in the order of `strcmp`. -/
theorem compare_writeRawRecord_ne_one (strcmp : Strcmp) (hr : r.type = .memoryOp) :
    strcmp.compare (writeRawRecord r) "invalid".toList ≠ 1 := by
  intro hone
  have hgt := (strcmp.pos_iff _ _).mp (hone.symm ▸ Int.one_pos)
  have hlt : cString (writeRawRecord r) < cString "invalid".toList := by
    rw [cString_eq_self (notMem_writeRawRecord r), writeRawRecord_of_memoryOp hr,
      cString_eq_self (by decide)]
    exact List.Lex.rel (by decide)
  exact lt_asymm hgt hlt

theorem convertLine_writeRawRecord (strcmp : Strcmp) (functions : List FunctionEntry)
    (r : Record) :
    convertLine strcmp functions (writeRawRecord r)
      = if strcmp.compare (writeRawRecord r) "invalid".toList = 1 then .ok "invalid\n".toList
        else symbolLine functions (addressRead r) := by
  obtain ⟨l, hl, hword, -⟩ := writeRawRecord_spec r
  have hnewline : assertNewline (writeRawRecord r) = none :=
    hl ▸ assertNewline_append fun hc ↦ absurd (List.all_eq_true.mp hword _ hc) (by decide)
  rw [convertLine, hnewline, strtoll_writeRawRecord]

/-! ## The floor -/

/-- `ConvertIP` ends at an entry and prints its name and a number. -/
structure Emits (strcmp : Strcmp) (functions : List FunctionEntry) (buffer : List Char)
    (low : FunctionEntry) (difference : ℤ) : Prop where
  /-- The entry that was found. -/
  entry : lowEntry functions (BitVec.ofInt 64 (strtoll 16 (cString buffer)).1) = some low
  /-- The line that is printed for it. -/
  line : convertLine strcmp functions buffer
    = .ok (cString low.functionName ++ '\t' :: decimal difference ++ ['\n'])

/-- A step from the floor to an address below 2^63 does not wrap around. -/
theorem IsFloor.toInt_sub {offset : BitVec 64} {low : FunctionEntry}
    (h : IsFloor functions offset low) (hoffset : offset.toNat < 2 ^ 63) :
    (offset - low.offset).toInt = (offset.toNat : ℤ) - low.offset.toNat := by
  have hle := h.le
  have hsub : (offset - low.offset).toNat = offset.toNat - low.offset.toNat :=
    BitVec.toNat_sub_of_le hle
  rw [BitVec.toInt_eq_toNat_of_lt (by omega), hsub]
  omega

private theorem emits_addressRead (strcmp : Strcmp) (sorting : Sorting MyCompare)
    (hr : r.type = .memoryOp)
    (hsome : ∃ f ∈ functions, f.offset.toNat ≤ (addressRead r).toNat) :
    ∃ low, IsFloor functions (addressRead r) low
      ∧ Emits strcmp (sorting.sort functions) (writeRawRecord r) low
        ((addressRead r).toNat - low.offset.toNat) := by
  have hperm := sorting.perm functions
  obtain ⟨f, hf, hle⟩ := hsome
  obtain ⟨low, hlow⟩ := (exists_lowEntry_iff (sorting.pairwise functions)).mpr
    ⟨f, hperm.mem_iff.mpr hf, hle⟩
  have hfloor := (isFloor_congr hperm).mp (isFloor_of_lowEntry (sorting.pairwise functions) hlow)
  have hlt : (addressRead r).toNat < 2 ^ 63 := by
    rw [toNat_addressRead hr]
    omega
  refine ⟨low, hfloor, ?_, ?_⟩
  · rwa [strtoll_writeRawRecord]
  · rw [convertLine_writeRawRecord, if_neg (compare_writeRawRecord_ne_one strcmp hr), symbolLine,
      hlow]
    dsimp only
    rw [hfloor.toInt_sub hlt]

theorem emits_of_lt (hr : r.type = .memoryOp) (hip : r.memoryAccess.pip.toNat < 2 ^ 63)
    (hsome : ∃ f ∈ functions, f.offset.toNat ≤ r.memoryAccess.pip.toNat) (strcmp : Strcmp)
    (sorting : Sorting MyCompare) :
    ∃ low, IsFloor functions r.memoryAccess.pip low
      ∧ Emits strcmp (sorting.sort functions) (writeRawRecord r) low
        (r.memoryAccess.pip.toNat - low.offset.toNat) := by
  rw [← addressRead_of_lt hr hip] at hsome ⊢
  exact emits_addressRead strcmp sorting hr hsome

/-- For an address below 2^63 the sort, the search and the step back lead to an entry of the table
with the greatest offset that does not exceed the address, and its distance is printed. -/
theorem emits_floor (hr : r.type = .memoryOp) (hip : r.memoryAccess.pip.toNat < 2 ^ 63)
    (hsome : ∃ f ∈ functions, f.offset.toNat ≤ r.memoryAccess.pip.toNat) (strcmp : Strcmp)
    (sorting : Sorting MyCompare) :
    ∃ low, IsFloor functions r.memoryAccess.pip low
      ∧ 0 ≤ (r.memoryAccess.pip.toNat : ℤ) - low.offset.toNat
      ∧ Emits strcmp (sorting.sort functions) (writeRawRecord r) low
        (r.memoryAccess.pip.toNat - low.offset.toNat) := by
  obtain ⟨low, hfloor, hemits⟩ := emits_of_lt hr hip hsome strcmp sorting
  have hle := hfloor.le
  exact ⟨low, hfloor, by omega, hemits⟩

/-- A memory access at an instruction address. -/
def accessAt (pip : BitVec 64) : Record :=
  { Record.zeroed with
    type := .memoryOp, memoryAccess := { Record.zeroed.memoryAccess with pip := pip } }

/-- Between two symbols with the same offset and one behind them. -/
theorem emits_floor_repeatedOffset :
    ∃ low, IsFloor [⟨"g".toList, 32, 8⟩, ⟨"f".toList, 16, 8⟩, ⟨"e".toList, 16, 0⟩] 20 low
      ∧ 0 ≤ ((20 : BitVec 64).toNat : ℤ) - low.offset.toNat
      ∧ Emits .sign
        (mergeSorting.sort [⟨"g".toList, 32, 8⟩, ⟨"f".toList, 16, 8⟩, ⟨"e".toList, 16, 0⟩])
        (writeRawRecord (accessAt 20)) low ((20 : BitVec 64).toNat - low.offset.toNat) :=
  emits_floor (r := accessAt 20) rfl (by decide) ⟨⟨"f".toList, 16, 8⟩, by simp, by decide⟩ .sign
    mergeSorting

/-! ## The upper half of the address space -/

theorem Emits.unique {buffer : List Char} {low low' : FunctionEntry} {d d' : ℤ}
    (h : Emits strcmp functions buffer low d) (h' : Emits strcmp functions buffer low' d') :
    low = low' ∧ d = d' := by
  obtain rfl : low = low' := Option.some.inj (h.entry.symm.trans h'.entry)
  refine ⟨rfl, decimal_injective ?_⟩
  have hline := List.append_cancel_right (Except.ok.inj (h.line.symm.trans h'.line))
  exact (List.cons.inj (List.append_cancel_left hline)).2

/-- The instruction address can be got back from what is printed: it is the offset of the entry plus
the number, modulo 2^64. -/
def Survives (strcmp : Strcmp) (sorting : Sorting MyCompare) (functions : List FunctionEntry)
    (r : Record) : Prop :=
  ∃ low difference, Emits strcmp (sorting.sort functions) (writeRawRecord r) low difference
    ∧ ((low.offset.toNat : ℤ) + difference) % 2 ^ 64 = r.memoryAccess.pip.toNat

section Survives

variable (hr : r.type = .memoryOp) (hzero : ∃ f ∈ functions, f.offset = 0) (strcmp : Strcmp)
  (sorting : Sorting MyCompare)
include hr hzero

private theorem exists_emits_of_zero :
    ∃ low, Emits strcmp (sorting.sort functions) (writeRawRecord r) low
      (min r.memoryAccess.pip.toNat (2 ^ 63 - 1) - low.offset.toNat) := by
  obtain ⟨f, hf, hoffset⟩ := hzero
  have hle : f.offset.toNat ≤ (addressRead r).toNat := by
    rw [hoffset]
    exact Nat.zero_le _
  obtain ⟨low, -, hemits⟩ := emits_addressRead strcmp sorting hr ⟨f, hf, hle⟩
  rw [toNat_addressRead hr] at hemits
  exact ⟨low, hemits⟩

private theorem Survives.pip_lt (h : Survives strcmp sorting functions r) :
    r.memoryAccess.pip.toNat < 2 ^ 63 := by
  obtain ⟨low, hemits⟩ := exists_emits_of_zero hr hzero strcmp sorting
  obtain ⟨low', d, hemits', hsum⟩ := h
  obtain ⟨rfl, rfl⟩ := hemits.unique hemits'
  omega

/-- With a symbol at offset zero, an instruction address survives exactly if it is below 2^63. -/
theorem survives_iff :
    Survives strcmp sorting functions r ↔ r.memoryAccess.pip.toNat < 2 ^ 63 := by
  constructor
  · exact Survives.pip_lt hr hzero strcmp sorting
  · intro hlt
    obtain ⟨low, hemits⟩ := exists_emits_of_zero hr hzero strcmp sorting
    refine ⟨low, _, hemits, ?_⟩
    omega

end Survives

theorem survives_iff_mainAtZero :
    Survives .sign mergeSorting [⟨"main".toList, 0, 100⟩] (accessAt 20)
      ↔ (20 : BitVec 64).toNat < 2 ^ 63 :=
  survives_iff (r := accessAt 20) rfl ⟨_, List.mem_singleton_self _, rfl⟩ .sign mergeSorting

/-- The first address of the upper half. -/
theorem not_survives_upperHalf :
    ¬Survives .sign mergeSorting [⟨"main".toList, 0, 100⟩] (accessAt 0x8000000000000000) := by
  intro h
  have hlt := h.pip_lt rfl ⟨_, List.mem_singleton_self _, rfl⟩
  exact absurd hlt (by decide)

/-! ## Leaving the table -/

/-- The entry that `ConvertIP` prints for a record is in the table. -/
def InVector (strcmp : Strcmp) (sorting : Sorting MyCompare) (functions : List FunctionEntry)
    (r : Record) : Prop :=
  convertLine strcmp (sorting.sort functions) (writeRawRecord r) ≠ .error .outOfBounds

private theorem symbolLine_ne_outOfBounds_iff (sorting : Sorting MyCompare) {offset : BitVec 64} :
    symbolLine (sorting.sort functions) offset ≠ .error .outOfBounds
      ↔ ∃ f ∈ functions, f.offset.toNat ≤ offset.toNat := by
  have hmem : (∃ f ∈ sorting.sort functions, f.offset.toNat ≤ offset.toNat)
      ↔ ∃ f ∈ functions, f.offset.toNat ≤ offset.toNat := by
    simp only [(sorting.perm functions).mem_iff]
  rw [← hmem, ← exists_lowEntry_iff (sorting.pairwise functions), symbolLine]
  cases lowEntry (sorting.sort functions) offset with
  | none => simp
  | some low => simp

/-- The entry is in the table exactly when the line is not looked up at all, or some symbol is at or
below the address read on it. -/
theorem inVector_iff (strcmp : Strcmp) (sorting : Sorting MyCompare)
    (functions : List FunctionEntry) (r : Record) :
    InVector strcmp sorting functions r
      ↔ (r.type ≠ .memoryOp ∧ strcmp.compare "invalid\n".toList "invalid".toList = 1)
        ∨ ∃ f ∈ functions, f.offset.toNat ≤ (addressRead r).toNat := by
  rw [InVector, convertLine_writeRawRecord]
  by_cases hr : r.type = .memoryOp
  · rw [if_neg (compare_writeRawRecord_ne_one strcmp hr), symbolLine_ne_outOfBounds_iff]
    exact (or_iff_right fun h ↦ h.1 hr).symm
  · rw [writeRawRecord_of_ne hr]
    split_ifs with hone
    · exact iff_of_true (by simp) (Or.inl ⟨hr, hone⟩)
    · rw [symbolLine_ne_outOfBounds_iff]
      exact (or_iff_right fun h ↦ hone h.2).symm

/-- What readelf prints for a stripped binary. -/
def strippedText : List Char := "Symbol table '.dynsym' contains 0 entries:\n".toList

/-- Without a symbol table the vector is empty. -/
theorem not_inVector_stripped :
    readSymFile (some strippedText) [] = ⟨[], .ok true⟩
      ∧ ¬InVector .sign mergeSorting (readSymFile (some strippedText) []).functions
        (accessAt 4198400) := by
  have hread : readSymFile (some strippedText) [] = ⟨[], .ok true⟩ := by decide +kernel
  refine ⟨hread, ?_⟩
  rw [hread, InVector, not_not]
  decide +kernel

end Racez
