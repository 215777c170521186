import Racez.Convert.Spec

/-!
# Records without an instruction address

A record that is not a memory access has no instruction address. `WriteRawRecord` writes the word
`invalid` for it, and both `ConvertIP` and `Combine` look for the word in order to leave the record
out of the profile. But the line has a newline and the word they compare with has none, so `Combine`
never finds it, whatever `ConvertIP` has printed. What keeps such a record out is only that
addr2line does not know a location for the word. `onlyMemoryOps_iff` says when that is enough.

The index of a record in the raw file plays no part in this; it is counted for every pair, written
or not.
-/

namespace Racez

open SortedVector Stdio

/-- Every line written has the number of a memory access. -/
def OnlyMemoryOps (strcmp : Strcmp) (sorting : Sorting MyCompare) (records : List Record)
    (functions : List FunctionEntry) (filenames : List (List Char)) : Prop :=
  ∀ e ∈ (convert strcmp sorting records functions (joinLines filenames)).written,
    ∀ r, records[e.index]? = some r → r.type = .memoryOp

variable {strcmp : Strcmp} {sorting : Sorting MyCompare} {records : List Record}
  {functions : List FunctionEntry} {filenames lines : List (List Char)}

private theorem FunctionLines.onlyMemoryOps_iff_isUnknown
    (hlines : FunctionLines strcmp sorting functions records lines) :
    OnlyMemoryOps strcmp sorting records functions filenames
      ↔ ∀ i r b, records[i]? = some r → r.type ≠ .memoryOp →
        (buffers filenames lines)[i]? = some b → GetsTo (buffers filenames lines) i →
          IsUnknown b.1 := by
  constructor
  · intro h i r b hr htype hb hreach
    by_contra hknown
    exact htype (h _ (mem_written_convert_iff.mpr ⟨lines, i, b, hlines, hb, hreach, hknown, rfl⟩)
      r hr)
  · intro h e he r hr
    obtain ⟨lines', k, b, hlines', hb, hreach, hknown, rfl⟩ := mem_written_convert_iff.mp he
    obtain rfl := hlines.unique hlines'
    by_contra htype
    exact hknown (h k r b hr htype hb hreach)

/-- If there is a symbol at offset zero, only memory accesses are in the profile exactly when the
location of every other record `Combine` gets to is unknown. -/
theorem onlyMemoryOps_iff {f : FunctionEntry} (hf : f ∈ functions) (hzero : f.offset = 0) :
    ∃ lines, FunctionLines strcmp sorting functions records lines
      ∧ (OnlyMemoryOps strcmp sorting records functions filenames
        ↔ ∀ i r b, records[i]? = some r → r.type ≠ .memoryOp →
          (buffers filenames lines)[i]? = some b → GetsTo (buffers filenames lines) i →
            IsUnknown b.1) := by
  obtain ⟨lines, hlines⟩ := exists_functionLines hf hzero records
  exact ⟨lines, hlines, hlines.onlyMemoryOps_iff_isUnknown⟩

/-- When all lines fit, `Combine` gets to every record, and it is the lines of addr2line alone that
decide. -/
theorem FunctionLines.onlyMemoryOps_iff_of_fits
    (hlines : FunctionLines strcmp sorting functions records lines)
    (hnames : ∀ f ∈ functions, '\n' ∉ f.functionName) (hfits : ∀ l ∈ lines, Fits 200 l)
    (hfilenames : ∀ l ∈ filenames, '\n' ∉ l ∧ '\x00' ∉ l ∧ Fits 2000 l)
    (hlength : filenames.length = records.length) (hcount : records.length < 2 ^ 31) :
    OnlyMemoryOps strcmp sorting records functions filenames
      ↔ ∀ (i : ℕ) (r filename), records[i]? = some r → r.type ≠ .memoryOp →
        filenames[i]? = some filename → IsUnknown filename := by
  have hnewline : ∀ l ∈ lines, '\n' ∉ l ∧ Fits 200 l :=
    fun l hl ↦ ⟨(hlines.notMem l hl).2 hnames, hfits l hl⟩
  have hnewline' : ∀ l ∈ filenames, '\n' ∉ l ∧ Fits 2000 l :=
    fun l hl ↦ ⟨(hfilenames l hl).1, (hfilenames l hl).2.2⟩
  -- every line fits into its buffer, so no assertion stops the loop
  have hreach : ∀ i < records.length, GetsTo (buffers filenames lines) i :=
    fun i hi ↦ getsTo_of_fits hnewline' hnewline (fun l hl ↦ (hfilenames l hl).2.1)
      (fun l hl ↦ (hlines.notMem l hl).1) (by omega)
  rw [hlines.onlyMemoryOps_iff_isUnknown]
  constructor
  · intro h i r filename hr htype hfilename
    obtain ⟨l, hl, -⟩ := hlines.getElem? hr
    have hb := (getElem?_buffers_iff hnewline' hnewline).mpr ⟨filename, l, hfilename, hl, rfl⟩
    exact isUnknown_concat_iff.mp
      (h i r _ hr htype hb (hreach i (List.getElem?_eq_some_iff.mp hr).1))
  · intro h i r b hr htype hb _
    obtain ⟨f, l, hf, -, rfl⟩ := (getElem?_buffers_iff hnewline' hnewline).mp hb
    exact isUnknown_concat_iff.mpr (h i r f hr htype hf)

/-- An allocation. -/
def zeroAlloc : Record := { Record.zeroed with type := .memoryAlloc }

theorem onlyMemoryOps_iff_mainAtZero :
    ∃ lines, FunctionLines .sign mergeSorting [⟨"main".toList, 0, 0⟩] [zeroAlloc] lines
      ∧ (OnlyMemoryOps .sign mergeSorting [zeroAlloc] [⟨"main".toList, 0, 0⟩] ["??:0".toList]
        ↔ ∀ i r b, [zeroAlloc][i]? = some r → r.type ≠ .memoryOp →
          (buffers ["??:0".toList] lines)[i]? = some b →
            GetsTo (buffers ["??:0".toList] lines) i → IsUnknown b.1) :=
  onlyMemoryOps_iff (List.mem_singleton_self _) rfl

/-- With a location for the word `invalid`, an allocation is in the profile. -/
theorem not_onlyMemoryOps_knownLocation :
    (convert .sign mergeSorting [zeroAlloc] [⟨"main".toList, 0, 0⟩]
        (joinLines ["a.c:1".toList])).written = [⟨0, "a.c:1".toList, "invalid".toList⟩]
      ∧ ¬OnlyMemoryOps .sign mergeSorting [zeroAlloc] [⟨"main".toList, 0, 0⟩] ["a.c:1".toList] := by
  have hwritten : (convert .sign mergeSorting [zeroAlloc] [⟨"main".toList, 0, 0⟩]
      (joinLines ["a.c:1".toList])).written = [⟨0, "a.c:1".toList, "invalid".toList⟩] := by
    decide +kernel
  refine ⟨hwritten, fun h ↦ ?_⟩
  exact absurd (h _ (hwritten ▸ List.mem_singleton_self _) zeroAlloc rfl) (by decide)

end Racez
