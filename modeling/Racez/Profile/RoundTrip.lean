import Racez.Convert.Spec
import Racez.Profile.Reader

/-!
# From `convert` to the pass and back

`Combine` writes the profile in one program and `Read` takes it apart in another. For entries whose
fields keep clear of the separators the fields come back as they were, and the index is the position
of the entry (`parseLine_print`). Locations that `Combine` leaves out are those of the file `??`.

The index counts in an `int`. `roundTrips_iff` is the exact bound on the number of entries.

## One entry, one line

An entry is printed by `Combine` as index, file, line, name and offset, and `parseLine_print` reads
it back. The buffers of `Combine` are small enough for a line to fit into the first buffer of the
reader, so that it never has to grow for a profile that `Combine` has written
(`ProfileEntry.fits_body`).

## All entries

The run of `Combine` over the lines of all entries is known (`combineLoop_entries`), and so is the
run of `Read` over what it prints (`readSamples_print`). What comes back for a function and a file
are the entries with this name and this file, each with its position. With 2^31 - 1 entries or more
the counter overflows, which ends the run of `Combine`.
-/

namespace Racez

open Stdio

/-! ## Entries -/

/-- One line of both files that `Combine` reads. -/
structure ProfileEntry where
  /-- The file addr2line finds. -/
  file : List Char
  /-- What addr2line prints behind the colon. -/
  suffix : List Char
  /-- The name of the symbol. -/
  name : List Char
  /-- The distance from the symbol. -/
  offset : BitVec 64
  /-- The file keeps clear of the separators. -/
  file_clean : ∀ c ∈ [':', '\t', '\n', '\x00'], c ∉ file
  /-- So does what is behind the colon. -/
  suffix_clean : ∀ c ∈ ['\t', '\n', '\x00'], c ∉ suffix
  /-- So does the name. -/
  name_clean : ∀ c ∈ ['\t', '\n', '\x00'], c ∉ name
  /-- The line of addr2line fits into its buffer. -/
  filename_fits : Fits 2000 (file ++ ':' :: suffix)
  /-- The line of `ConvertIP` fits into its buffer. -/
  function_fits : Fits 200 (name ++ '\t' :: decimal offset.toInt)

namespace ProfileEntry

/-- The line of the filename file. -/
def filenameLine (e : ProfileEntry) : List Char := e.file ++ ':' :: e.suffix

/-- The line of the function file. -/
def functionLine (e : ProfileEntry) : List Char := e.name ++ '\t' :: decimal e.offset.toInt

variable (e : ProfileEntry)

theorem notMem_filenameLine {c : Char} (hc : c ∈ ['\t', '\n', '\x00']) : c ∉ e.filenameLine := by
  rw [filenameLine, List.mem_append, List.mem_cons]
  rintro (h | rfl | h)
  · exact e.file_clean c (List.mem_cons_of_mem _ hc) h
  · exact absurd hc (by decide)
  · exact e.suffix_clean c hc h

theorem notMem_functionLine {c : Char} (hc : c ∈ ['\n', '\x00']) : c ∉ e.functionLine := by
  refine notMem_print (e.name_clean c (List.mem_cons_of_mem _ hc)) ?_ ?_
  · rintro rfl
    exact absurd hc (by decide)
  · rcases List.mem_pair.mp hc with rfl | rfl
    · decide
    · decide

private theorem file_eq_of_isUnknown (h : IsUnknown e.filenameLine) : e.file = "??".toList := by
  obtain ⟨t, ht⟩ := isUnknown_iff.mp h
  have hsplit : "??".toList ++ ':' :: ('0' :: t) = e.file ++ ':' :: e.suffix := ht
  have hfile := strchr_append (e.file_clean ':' (by decide)) e.suffix
  rw [← hsplit, strchr_append (by decide)] at hfile
  exact (Prod.mk.inj (Option.some.inj hfile)).1.symm

end ProfileEntry

/-- The text of the filename file. -/
def filenameFile (entries : List ProfileEntry) : List Char :=
  joinLines (entries.map ProfileEntry.filenameLine)

/-- The text of the function file. -/
def functionFile (entries : List ProfileEntry) : List Char :=
  joinLines (entries.map ProfileEntry.functionLine)

/-! ## What `Combine` writes -/

section Combine

variable {strcmp : Strcmp} {entries : List ProfileEntry} {count : ℕ}

/-- The line for the entry at a place, unless the location is unknown. -/
def profileLine (entry : ProfileEntry × ℕ) : Option ProfileLine :=
  if IsUnknown entry.1.filenameLine then none
  else some ⟨entry.2, entry.1.filenameLine, entry.1.functionLine⟩

theorem zip_fgetsAll (entries : List ProfileEntry) :
    (fgetsAll 2000 (filenameFile entries)).zip (fgetsAll 200 (functionFile entries))
      = entries.map fun e ↦ (e.filenameLine ++ ['\n'], e.functionLine ++ ['\n']) := by
  rw [filenameFile, functionFile, fgetsAll_joinLines, fgetsAll_joinLines, List.map_map,
    List.map_map, ← List.zip_map']
  · rfl
  · intro l hl
    obtain ⟨e, -, rfl⟩ := List.mem_map.mp hl
    exact ⟨e.notMem_functionLine (by decide), e.function_fits⟩
  · intro l hl
    obtain ⟨e, -, rfl⟩ := List.mem_map.mp hl
    exact ⟨e.notMem_filenameLine (by decide), e.filename_fits⟩

private theorem skips_concat_iff (e : ProfileEntry) :
    Skips strcmp (e.filenameLine ++ ['\n']) (e.functionLine ++ ['\n'])
      ↔ IsUnknown e.filenameLine := by
  rw [Skips, isUnknown_concat_iff, Strcmp.compare_eq_zero_iff,
    cString_concat (e.notMem_functionLine (by decide))]
  refine or_iff_right fun h ↦ ?_
  have hmem : '\n' ∈ cString "invalid".toList := h ▸ by simp
  exact absurd hmem (by decide)

theorem combineLoop_cons (e : ProfileEntry) (bs : List (List Char × List Char))
    (hcount : count < 2 ^ 31 - 1) :
    combineLoop strcmp count ((e.filenameLine ++ ['\n'], e.functionLine ++ ['\n']) :: bs)
      = ⟨(profileLine (e, count)).toList ++ (combineLoop strcmp (count + 1) bs).written,
        (combineLoop strcmp (count + 1) bs).fault⟩ := by
  have hfilename : '\x00' ∉ e.filenameLine := e.notMem_filenameLine (by decide)
  have hfunction : '\x00' ∉ e.functionLine := e.notMem_functionLine (by decide)
  rw [combineLoop, if_neg (Nat.not_le_of_lt hcount), profileLine]
  by_cases hunknown : IsUnknown e.filenameLine
  · rw [if_pos ((skips_concat_iff e).mpr hunknown), if_pos hunknown]
    rfl
  · rw [if_neg (mt (skips_concat_iff e).mp hunknown), if_neg hunknown,
      assertNewline_append hfilename, assertNewline_append hfunction, cString_concat hfilename,
      cString_concat hfunction, List.dropLast_concat, List.dropLast_concat]
    rfl

/-- The run of `Combine`: the lines in order if the counter does not overflow. -/
theorem combineLoop_entries (h : count + entries.length < 2 ^ 31) :
    combineLoop strcmp count
        (entries.map fun e ↦ (e.filenameLine ++ ['\n'], e.functionLine ++ ['\n']))
      = ⟨(entries.zipIdx count).filterMap profileLine, none⟩ := by
  induction entries generalizing count with
  | nil => rfl
  | cons e entries ih =>
    rw [List.length_cons] at h
    rw [List.map_cons, combineLoop_cons e _ (by omega), ih (by omega), List.zipIdx_cons,
      List.filterMap_cons]
    cases profileLine (e, count) with
    | none => rfl
    | some line => rfl

private theorem fault_combineLoop_entries (hcount : count < 2 ^ 31)
    (h : 2 ^ 31 ≤ count + entries.length) :
    (combineLoop strcmp count
      (entries.map fun e ↦ (e.filenameLine ++ ['\n'], e.functionLine ++ ['\n']))).fault
        = some .overflow := by
  induction entries generalizing count with
  | nil =>
    rw [List.length_nil] at h
    omega
  | cons e entries ih =>
    rw [List.length_cons] at h
    by_cases hlast : count < 2 ^ 31 - 1
    · rw [List.map_cons, combineLoop_cons e _ hlast]
      exact ih (by omega) (by omega)
    · rw [List.map_cons, combineLoop, if_pos (Nat.le_of_not_lt hlast)]

end Combine

/-! ## Reading it -/

section Read

variable {inPlace : ℕ → Bool}

private theorem readLine_of_fits {l : List Char} (hnewline : '\n' ∉ l) (hnul : '\x00' ∉ l)
    (hfits : Fits kBufferSizeIncrement l) (s : List Char) :
    readLine inPlace ⟨l ++ '\n' :: s, false, kBufferSizeIncrement⟩
      = .ok (some (l ++ ['\n'], ⟨s, false, kBufferSizeIncrement⟩)) := by
  have hroom : l.length < kBufferSizeIncrement - 1 := by
    rw [Fits] at hfits
    omega
  rw [readLine, if_neg (by simp), readLineLoop,
    dif_pos ⟨by simp, show 2 ≤ kBufferSizeIncrement by decide⟩]
  simp only [fgets_of_lt hnewline hroom, cString_concat hnul, List.nil_append,
    List.getLast?_concat, ne_eq, not_true_eq_false, false_and, if_false, decide_false]

private theorem readLines_joinLines {lines : List (List Char)}
    (h : ∀ l ∈ lines, '\n' ∉ l ∧ '\x00' ∉ l ∧ Fits kBufferSizeIncrement l) :
    readLines inPlace ⟨joinLines lines, false, kBufferSizeIncrement⟩
      = (lines.map (· ++ ['\n']), none) := by
  induction lines with
  | nil =>
    refine readLines_of_none ?_
    rw [readLine, if_neg (by simp), readLineLoop, dif_neg (by simp)]
  | cons l lines ih =>
    obtain ⟨⟨hnewline, hnul, hfits⟩, hlines⟩ := List.forall_mem_cons.mp h
    rw [joinLines_cons, readLines_of_line (readLine_of_fits hnewline hnul hfits _), ih hlines,
      List.map_cons]

theorem parseLine_print (f s : List Char) (e : ProfileEntry) {k : ℕ} (hk : k < 2 ^ 31) :
    parseLine f s (ProfileLine.print ⟨k, e.filenameLine, e.functionLine⟩)
      = if e.name = f ∧ e.file = s then .sample ⟨e.file, k, e.offset.toInt, 0⟩ else .skip := by
  have hindex : strtoll 0 (decimal k) = ((k : ℤ), []) := strtoll_decimal (by omega) (by omega)
  have hoffset : strtoll 0 (decimal e.offset.toInt) = (e.offset.toInt, []) :=
    strtoll_decimal e.offset.le_toInt e.offset.toInt_lt
  have hprint : ProfileLine.print ⟨k, e.filenameLine, e.functionLine⟩
      = decimal k ++ '\t' :: (e.file ++ ':' :: (e.suffix ++ '\t' :: (e.name
        ++ '\t' :: (decimal e.offset.toInt ++ '\n' :: [])))) := by
    simp [ProfileLine.print, ProfileEntry.filenameLine, ProfileEntry.functionLine]
  rw [hprint, parseLine, strchr_append (notMem_decimal (by decide))]
  simp only [hindex, strchr_append (e.file_clean ':' (by decide)),
    strchr_append (e.suffix_clean '\t' (by decide)), strchr_append (e.name_clean '\t' (by decide)),
    strchr_append (notMem_decimal (c := '\n') (by decide)), hoffset]
  by_cases hfile : e.file = s
  · by_cases hname : e.name = f
    · simp [hfile, hname]
    · simp [hfile, hname]
  · simp [hfile]

/-- The sample for the entry at a place, if it has the given name and file. -/
def sampleOf (f s : List Char) (entry : ProfileEntry × ℕ) : Option RacezInstructionSample :=
  if entry.1.name = f ∧ entry.1.file = s then
    some ⟨entry.1.file, entry.2, entry.1.offset.toInt, 0⟩
  else none

/-- The run of `Read` over the lines `Combine` has written. -/
theorem readSamples_print (f : List Char) {s : List Char} (hs : s ≠ "??".toList)
    {placed : List (ProfileEntry × ℕ)} (h : ∀ p ∈ placed, p.2 < 2 ^ 31)
    (samples : List RacezInstructionSample) :
    readSamples f s none ((placed.filterMap profileLine).map ProfileLine.print) samples
      = .ok (true, samples ++ placed.filterMap (sampleOf f s)) := by
  induction placed generalizing samples with
  | nil => simp [readSamples]
  | cons p placed ih =>
    obtain ⟨⟨e, k⟩, hp, hplaced⟩ := p, List.forall_mem_cons.mp h
    by_cases hunknown : IsUnknown e.filenameLine
    · -- left out, and not of the file either
      have hfile : ¬(e.name = f ∧ e.file = s) := fun hmatch ↦
        hs (hmatch.2 ▸ e.file_eq_of_isUnknown hunknown)
      have hline : profileLine (e, k) = none := if_pos hunknown
      have hsample : sampleOf f s (e, k) = none := if_neg hfile
      rw [List.filterMap_cons_none hline, List.filterMap_cons_none hsample]
      exact ih hplaced samples
    · have hline : profileLine (e, k) = some ⟨k, e.filenameLine, e.functionLine⟩ :=
        if_neg hunknown
      rw [List.filterMap_cons_some hline, List.map_cons, readSamples, parseLine_print f s e hp]
      by_cases hmatch : e.name = f ∧ e.file = s
      · have hsample : sampleOf f s (e, k) = some ⟨e.file, k, e.offset.toInt, 0⟩ := if_pos hmatch
        rw [if_pos hmatch, List.filterMap_cons_some hsample, List.append_cons]
        exact ih hplaced _
      · have hsample : sampleOf f s (e, k) = none := if_neg hmatch
        rw [if_neg hmatch, List.filterMap_cons_none hsample]
        exact ih hplaced samples

/-- What `Combine` prints before the newline. -/
def ProfileLine.body (line : ProfileLine) : List Char :=
  decimal line.index ++ '\t' :: line.location ++ '\t' :: line.function

private theorem ProfileEntry.notMem_body (e : ProfileEntry) (k : ℕ) {c : Char}
    (hc : c ∈ ['\n', '\x00']) : c ∉ ProfileLine.body ⟨k, e.filenameLine, e.functionLine⟩ := by
  have htab : c ≠ '\t' := by
    rintro rfl
    exact absurd hc (by decide)
  have hdecimal : c ∉ decimal k := by
    rcases List.mem_pair.mp hc with rfl | rfl
    · exact notMem_decimal (by decide)
    · exact notMem_decimal (by decide)
  simp [ProfileLine.body, htab, hdecimal, e.notMem_filenameLine (List.mem_cons_of_mem _ hc),
    e.notMem_functionLine hc]

theorem ProfileEntry.fits_body (e : ProfileEntry) {k : ℕ} (hk : k < 2 ^ 31) :
    Fits kBufferSizeIncrement (ProfileLine.body ⟨k, e.filenameLine, e.functionLine⟩) := by
  have hindex : (decimal k).length ≤ 10 := length_decimal_le hk
  have hfilename : e.filenameLine.length + 2 ≤ 2000 := e.filename_fits
  have hfunction : e.functionLine.length + 2 ≤ 200 := e.function_fits
  simp only [Fits, ProfileLine.body, kBufferSizeIncrement, List.length_append, List.length_cons]
  omega

/-- The lines of the profile are read back as lines. -/
theorem readLines_text {placed : List (ProfileEntry × ℕ)} (h : ∀ p ∈ placed, p.2 < 2 ^ 31) :
    readLines inPlace ⟨(placed.filterMap profileLine).flatMap ProfileLine.print, false,
        kBufferSizeIncrement⟩
      = ((placed.filterMap profileLine).map ProfileLine.print, none) := by
  have htext : (placed.filterMap profileLine).flatMap ProfileLine.print
      = joinLines ((placed.filterMap profileLine).map ProfileLine.body) := by
    rw [joinLines, List.flatMap_map]
    rfl
  rw [htext, readLines_joinLines, List.map_map]
  · rfl
  intro l hl
  obtain ⟨line, hline, rfl⟩ := List.mem_map.mp hl
  obtain ⟨⟨e, k⟩, hp, hek⟩ := List.mem_filterMap.mp hline
  obtain rfl : ⟨k, e.filenameLine, e.functionLine⟩ = line := by
    rw [profileLine] at hek
    split at hek
    · exact absurd hek (by simp)
    · exact Option.some.inj hek
  exact ⟨e.notMem_body k (by decide), e.notMem_body k (by decide), e.fits_body (h _ hp)⟩

end Read

/-! ## The round trip -/

section RoundTrip

variable (strcmp : Strcmp) (inPlace : ℕ → Bool) (entries : List ProfileEntry)

/-- `Combine` gets to the end, and `Read` finds in its output just the samples of a function and a
file, with their positions. -/
def RoundTrips : Prop :=
  (combine strcmp (functionFile entries) (filenameFile entries)).fault = none
    ∧ ∀ (f s : List Char) (samples : List RacezInstructionSample), s ≠ "??".toList →
      read inPlace f s (some (combine strcmp (functionFile entries) (filenameFile entries)).text)
          samples
        = .ok (true, samples ++ entries.zipIdx.filterMap (sampleOf f s))

variable {strcmp inPlace entries}

theorem RoundTrips.length_lt (h : RoundTrips strcmp inPlace entries) : entries.length < 2 ^ 31 := by
  by_contra hlength
  have hfault := h.1
  rw [combine, zip_fgetsAll, fault_combineLoop_entries (by decide) (by omega)] at hfault
  exact absurd hfault (by simp)

private theorem RoundTrips.of_length_lt (h : entries.length < 2 ^ 31) :
    RoundTrips strcmp inPlace entries := by
  have hcombine : combine strcmp (functionFile entries) (filenameFile entries)
      = ⟨entries.zipIdx.filterMap profileLine, none⟩ := by
    rw [combine, zip_fgetsAll, combineLoop_entries (by omega)]
  have hplaces : ∀ p ∈ entries.zipIdx, p.2 < 2 ^ 31 := by
    intro p hp
    have hlt := List.snd_lt_of_mem_zipIdx hp
    omega
  refine ⟨by rw [hcombine], fun f s samples hs ↦ ?_⟩
  rw [hcombine, Combined.text, read]
  dsimp only
  rw [readLines_text hplaces]
  exact readSamples_print f hs hplaces samples

variable (strcmp inPlace entries) in
/-- **The round trip of the profile.** It goes well exactly as long as the positions fit the
counter. -/
theorem roundTrips_iff : RoundTrips strcmp inPlace entries ↔ entries.length < 2 ^ 31 :=
  ⟨RoundTrips.length_lt, RoundTrips.of_length_lt⟩

/-- A sample at the start of `main`. -/
def mainEntry : ProfileEntry where
  file := "/src/a.c".toList
  suffix := "3".toList
  name := "main".toList
  offset := 0
  file_clean := by
    simp only [List.forall_mem_cons, List.not_mem_nil, IsEmpty.forall_iff, implies_true, and_true]
    decide
  suffix_clean := by
    simp only [List.forall_mem_cons, List.not_mem_nil, IsEmpty.forall_iff, implies_true, and_true]
    decide
  name_clean := by
    simp only [List.forall_mem_cons, List.not_mem_nil, IsEmpty.forall_iff, implies_true, and_true]
    decide
  filename_fits := by decide
  function_fits := by decide

/-- With one more entry than an `int` can count. -/
theorem not_roundTrips_manySamples :
    ¬RoundTrips Strcmp.sign (fun _ ↦ true) (List.replicate (2 ^ 31) mainEntry) := by
  intro h
  have hlength := h.length_lt
  rw [List.length_replicate] at hlength
  exact lt_irrefl _ hlength

end RoundTrip

end Racez
