import Racez.Convert.Spec

/-!
# Record numbers in the profile

The number at the start of a line of the profile should be the position of a record in the raw file,
and the line should hold what addr2line and `ConvertIP` print for that record. `Combine` counts the
pieces it reads and takes them for lines. A line that does not fit into its buffer is two or more
pieces. The assertion on the newline catches that, but not if addr2line does not know the location:
then the pair is skipped before the assertion, the rest of the line is taken for the next line, and
all later pairs are put together from pieces at different places.

The first line that is too long decides. If it is at a known location the run ends there, and all
that has been written is right. If it is at an unknown one `Combine` goes on with pieces that are
not the lines it counts (`pairsAreLines_iff`). That is the only way for the profile to go wrong
(`aligned_of_unknownsFit`). It need not go wrong then, since the rest of a long line may happen to
be the next line, so there is no converse in terms of what is written.

## Pieces and lines

The proof counts pieces. Up to the first line that does not fit, a pair of pieces is the pair of
lines at its position, and an assertion sees the newline that is there. At that line one of the two
pieces has no newline. Behind it a piece can stand for any part of a line, and nothing is said about
those. So the condition is on lines that `Combine` gets to with everything before them read whole
(`GetsWhole`), and on the locations among them that addr2line does not know (`UnknownsFit`).
-/

namespace Racez

open SortedVector Stdio

/-! ## Statement -/

/-- Every line written holds the position of a record, addr2line's line at that position and what
`ConvertIP` prints for the record. -/
def Aligned (strcmp : Strcmp) (sorting : Sorting MyCompare) (records : List Record)
    (functions : List FunctionEntry) (filenames : List (List Char)) : Prop :=
  ∀ e ∈ (convert strcmp sorting records functions (joinLines filenames)).written,
    filenames[e.index]? = some e.location
      ∧ ∃ r, records[e.index]? = some r
        ∧ convertLine strcmp (sorting.sort functions) (writeRawRecord r)
          = .ok (e.function ++ ['\n'])

/-- The lines before a position fit into the buffers of `Combine`. -/
def FitUpTo (filenames lines : List (List Char)) (m : ℕ) : Prop :=
  (∀ l ∈ filenames.take m, Fits 2000 l) ∧ ∀ l ∈ lines.take m, Fits 200 l

/-- `Combine` gets to a position, and has read all lines before it whole. A location with a
terminator in it does not pass the assertion on the newline unless it is skipped. -/
structure GetsWhole (filenames lines : List (List Char)) (m : ℕ) : Prop where
  /-- The counter does not overflow. -/
  lt : m < 2 ^ 31 - 1
  /-- No line before has been cut. -/
  fit : FitUpTo filenames lines m
  /-- No assertion before has failed. -/
  passes : ∀ f ∈ filenames.take m, IsUnknown f ∨ '\x00' ∉ f

/-- The lines at every unknown location that `Combine` gets to in this way fit. -/
def UnknownsFit (filenames lines : List (List Char)) : Prop :=
  ∀ m f l, GetsWhole filenames lines m → filenames[m]? = some f → lines[m]? = some l →
    IsUnknown f → Fits 2000 f ∧ Fits 200 l

/-- Every pair that `Combine` gets to, written or skipped, is made of the lines at its position. -/
def PairsAreLines (filenames lines : List (List Char)) : Prop :=
  ∀ k b, (buffers filenames lines)[k]? = some b → GetsTo (buffers filenames lines) k →
    filenames[k]?.map (· ++ ['\n']) = some b.1 ∧ lines[k]?.map (· ++ ['\n']) = some b.2

/-! ## The first line that does not fit -/

section Lines

variable {filenames lines : List (List Char)} {k m : ℕ} {b : List Char × List Char}

private theorem exists_first_not_fits (h : ¬FitUpTo filenames lines (k + 1)) :
    ∃ m ≤ k, FitUpTo filenames lines m ∧ ¬FitUpTo filenames lines (m + 1) := by
  induction k with
  | zero => exact ⟨0, le_rfl, by simp [FitUpTo], h⟩
  | succ k ih =>
    by_cases hk : FitUpTo filenames lines (k + 1)
    · exact ⟨k + 1, le_rfl, hk, h⟩
    · obtain ⟨m, hm, hfirst⟩ := ih hk
      exact ⟨m, hm.trans (Nat.le_succ k), hfirst⟩

private theorem exists_not_fits (hfit : FitUpTo filenames lines m)
    (hlong : ¬FitUpTo filenames lines (m + 1)) :
    (∃ l, filenames[m]? = some l ∧ ¬Fits 2000 l) ∨ ∃ l, lines[m]? = some l ∧ ¬Fits 200 l := by
  by_contra hcon
  rw [not_or, not_exists, not_exists] at hcon
  refine hlong ⟨fun l hl ↦ ?_, fun l hl ↦ ?_⟩
  · rw [List.take_add_one, List.mem_append, Option.mem_toList] at hl
    exact hl.elim (hfit.1 l) fun h ↦ not_not.mp fun hl ↦ hcon.1 l ⟨h, hl⟩
  · rw [List.take_add_one, List.mem_append, Option.mem_toList] at hl
    exact hl.elim (hfit.2 l) fun h ↦ not_not.mp fun hl ↦ hcon.2 l ⟨h, hl⟩

variable (hfilenames : ∀ l ∈ filenames, '\n' ∉ l) (hlines : ∀ l ∈ lines, '\n' ∉ l)
include hfilenames hlines

private theorem getElem?_of_fitUpTo (hfit : FitUpTo filenames lines (k + 1))
    (hb : (buffers filenames lines)[k]? = some b) :
    filenames[k]?.map (· ++ ['\n']) = some b.1 ∧ lines[k]?.map (· ++ ['\n']) = some b.2 := by
  obtain ⟨hfilename, hfunction⟩ := List.getElem?_zip_eq_some.mp hb
  rw [getElem?_fgetsAll_of_fits hfilenames hfit.1] at hfilename
  rw [getElem?_fgetsAll_of_fits hlines hfit.2] at hfunction
  exact ⟨hfilename, hfunction⟩

/-- The first pair with a line that does not fit does not pass the assertions. -/
theorem not_assertNewline_of_first (hfit : FitUpTo filenames lines m)
    (hlong : ¬FitUpTo filenames lines (m + 1)) (hb : (buffers filenames lines)[m]? = some b) :
    ¬(assertNewline b.1 = none ∧ assertNewline b.2 = none) := by
  obtain ⟨hfilename, hfunction⟩ := List.getElem?_zip_eq_some.mp hb
  rintro ⟨h₁, h₂⟩
  rcases exists_not_fits hfit hlong with ⟨l, hl, hnot⟩ | ⟨l, hl, hnot⟩
  · rw [getElem?_fgetsAll_of_not_fits (by decide) hfilenames hfit.1 hl hnot] at hfilename
    have hmem := mem_of_assertNewline (Option.some.inj hfilename ▸ h₁)
    exact hfilenames l (List.mem_of_getElem? hl) (List.mem_of_mem_take hmem)
  · rw [getElem?_fgetsAll_of_not_fits (by decide) hlines hfit.2 hl hnot] at hfunction
    have hmem := mem_of_assertNewline (Option.some.inj hfunction ▸ h₂)
    exact hlines l (List.mem_of_getElem? hl) (List.mem_of_mem_take hmem)

omit hlines in
private theorem isUnknown_of_first {filename : List Char} (hfit : FitUpTo filenames lines m)
    (hfilename : filenames[m]? = some filename) (hb : (buffers filenames lines)[m]? = some b) :
    IsUnknown b.1 ↔ IsUnknown filename := by
  obtain ⟨hpiece, -⟩ := List.getElem?_zip_eq_some.mp hb
  by_cases hfits : Fits 2000 filename
  · have hfit' : ∀ l ∈ filenames.take (m + 1), Fits 2000 l := by
      intro l hl
      rw [List.take_add_one, hfilename, List.mem_append, Option.mem_toList] at hl
      exact hl.elim (hfit.1 l) fun h ↦ Option.some.inj h ▸ hfits
    rw [getElem?_fgetsAll_of_fits hfilenames hfit', hfilename] at hpiece
    rw [← Option.some.inj hpiece, isUnknown_concat_iff]
  · rw [getElem?_fgetsAll_of_not_fits (by decide) hfilenames hfit.1 hfilename hfits] at hpiece
    rw [← Option.some.inj hpiece, isUnknown_take_iff (by decide)]

private theorem exists_buffers (hfit : FitUpTo filenames lines m) {f l : List Char}
    (hf : filenames[m]? = some f) (hl : lines[m]? = some l) :
    ∃ b, (buffers filenames lines)[m]? = some b := by
  have hpiece : ∀ {size : ℕ} {ls : List (List Char)} {x : List Char}, 2 ≤ size →
      (∀ l ∈ ls, '\n' ∉ l) → (∀ l ∈ ls.take m, Fits size l) → ls[m]? = some x →
        ∃ p, (fgetsAll size (joinLines ls))[m]? = some p := by
    intro size ls x hsize hnot hfits hx
    by_cases hlong : Fits size x
    · refine ⟨x ++ ['\n'], ?_⟩
      rw [getElem?_fgetsAll_of_fits hnot, hx, Option.map_some]
      intro l hl
      rw [List.take_add_one, hx, List.mem_append, Option.mem_toList] at hl
      exact hl.elim (hfits l) fun h ↦ Option.some.inj h ▸ hlong
    · exact ⟨_, getElem?_fgetsAll_of_not_fits hsize hnot hfits hx hlong⟩
  obtain ⟨p, hp⟩ := hpiece (by decide) hfilenames hfit.1 hf
  obtain ⟨q, hq⟩ := hpiece (by decide) hlines hfit.2 hl
  exact ⟨(p, q), List.getElem?_zip_eq_some.mpr ⟨hp, hq⟩⟩

private theorem GetsWhole.getsTo (h : GetsWhole filenames lines m)
    (hclean : ∀ l ∈ lines, '\x00' ∉ l)
    (hb : (buffers filenames lines)[m]? = some b) (hunknown : IsUnknown b.1) :
    GetsTo (buffers filenames lines) m := by
  refine ⟨h.lt, fun a ha ↦ ?_⟩
  obtain ⟨i, hi⟩ := List.getElem?_of_mem ha
  rw [List.getElem?_take] at hi
  split_ifs at hi with him
  rcases Nat.lt_succ_iff_lt_or_eq.mp him with hlt | rfl
  · have hfit : FitUpTo filenames lines (i + 1) :=
      ⟨fun l hl ↦ h.fit.1 l ((List.take_prefix_take_left hlt).subset hl),
        fun l hl ↦ h.fit.2 l ((List.take_prefix_take_left hlt).subset hl)⟩
    obtain ⟨hfilename, hfunction⟩ := getElem?_of_fitUpTo hfilenames hlines hfit hi
    obtain ⟨f, hf, hf'⟩ := Option.map_eq_some_iff.mp hfilename
    obtain ⟨l, hl, hl'⟩ := Option.map_eq_some_iff.mp hfunction
    have hmem : f ∈ filenames.take m := by
      refine List.mem_of_getElem? (i := i) ?_
      rw [List.getElem?_take, if_pos hlt, hf]
    rw [← hf', ← hl', isUnknown_concat_iff]
    refine (h.passes f hmem).imp_right fun hnul ↦ ⟨assertNewline_append hnul, ?_⟩
    exact assertNewline_append (hclean l (List.mem_of_getElem? hl))
  · obtain rfl := Option.some.inj (hb.symm.trans hi)
    exact Or.inl hunknown

/-- The first line that does not fit is at an unknown location, if `Combine` gets past it. -/
theorem exists_unknown_of_first (hlength : filenames.length = lines.length)
    (hreach : GetsTo (buffers filenames lines) k) (hk : k < (buffers filenames lines).length)
    (hmk : m ≤ k) (hfirst : FitUpTo filenames lines m)
    (hlong : ¬FitUpTo filenames lines (m + 1)) :
    ∃ f l, GetsWhole filenames lines m ∧ filenames[m]? = some f ∧ lines[m]? = some l
      ∧ IsUnknown f := by
  have hm : m < filenames.length := by
    rcases exists_not_fits hfirst hlong with ⟨l, hl, -⟩ | ⟨l, hl, -⟩
    · exact (List.getElem?_eq_some_iff.mp hl).1
    · exact hlength ▸ (List.getElem?_eq_some_iff.mp hl).1
  have hfilename : filenames[m]? = some filenames[m] := List.getElem?_eq_getElem hm
  have ha : (buffers filenames lines)[m]? = some (buffers filenames lines)[m] :=
    List.getElem?_eq_getElem (hmk.trans_lt hk)
  -- the assertions hold at this pair or are not reached, and they do not hold
  have hunknown := (hreach.passes_of_le hmk ha).resolve_right
    (not_assertNewline_of_first hfilenames hlines hfirst hlong ha)
  refine ⟨filenames[m], lines[m], ⟨hmk.trans_lt hreach.lt, hfirst, fun f hf ↦ ?_⟩, hfilename,
    List.getElem?_eq_getElem (hlength ▸ hm),
    (isUnknown_of_first hfilenames hfirst hfilename ha).mp hunknown⟩
  obtain ⟨i, hi⟩ := List.getElem?_of_mem hf
  rw [List.getElem?_take] at hi
  split_ifs at hi with him
  have hfit : FitUpTo filenames lines (i + 1) :=
    ⟨fun l hl ↦ hfirst.1 l ((List.take_prefix_take_left him).subset hl),
      fun l hl ↦ hfirst.2 l ((List.take_prefix_take_left him).subset hl)⟩
  have hc : (buffers filenames lines)[i]? = some (buffers filenames lines)[i] :=
    List.getElem?_eq_getElem ((him.trans_le hmk).trans hk)
  obtain ⟨hpiece, -⟩ := getElem?_of_fitUpTo hfilenames hlines hfit hc
  rw [hi, Option.map_some] at hpiece
  have hpasses := hreach.passes_of_le (him.le.trans hmk) hc
  rw [← Option.some.inj hpiece, isUnknown_concat_iff] at hpasses
  refine hpasses.imp_right fun hnewline ↦ ?_
  have heq := eq_append_of_assertNewline (by simpa using hfilenames f (List.mem_of_getElem? hi))
    hnewline.1
  rw [List.append_cancel_right heq]
  exact fun hnul ↦ notMem_cString _ (List.mem_of_mem_dropLast hnul)

/-- **Pieces and lines.** The pairs that `Combine` gets to are the lines exactly if no unknown
location that it gets to has a line that is cut. -/
theorem pairsAreLines_iff (hlength : filenames.length = lines.length)
    (hclean : ∀ l ∈ lines, '\x00' ∉ l) :
    PairsAreLines filenames lines ↔ UnknownsFit filenames lines := by
  constructor
  · intro h m f l hwhole hf hl hunknown
    obtain ⟨b, hb⟩ := exists_buffers hfilenames hlines hwhole.fit hf hl
    have hreach := hwhole.getsTo hfilenames hlines hclean hb
      ((isUnknown_of_first hfilenames hwhole.fit hf hb).mpr hunknown)
    obtain ⟨hpiece, hpiece'⟩ := h m b hb hreach
    rw [hf, Option.map_some] at hpiece
    rw [hl, Option.map_some] at hpiece'
    obtain ⟨hfilename, hfunction⟩ := List.getElem?_zip_eq_some.mp hb
    -- a line that is cut has no newline at its end
    refine ⟨by_contra fun hlong ↦ ?_, by_contra fun hlong ↦ ?_⟩
    · rw [getElem?_fgetsAll_of_not_fits (by decide) hfilenames hwhole.fit.1 hf hlong] at hfilename
      have hmem : '\n' ∈ f.take (2000 - 1) := by
        rw [Option.some.inj hfilename, ← Option.some.inj hpiece]
        exact List.mem_concat_self
      exact hfilenames f (List.mem_of_getElem? hf) (List.mem_of_mem_take hmem)
    · rw [getElem?_fgetsAll_of_not_fits (by decide) hlines hwhole.fit.2 hl hlong] at hfunction
      have hmem : '\n' ∈ l.take (200 - 1) := by
        rw [Option.some.inj hfunction, ← Option.some.inj hpiece']
        exact List.mem_concat_self
      exact hlines l (List.mem_of_getElem? hl) (List.mem_of_mem_take hmem)
  · intro h k b hb hreach
    by_cases hfit : FitUpTo filenames lines (k + 1)
    · exact getElem?_of_fitUpTo hfilenames hlines hfit hb
    · obtain ⟨m, hmk, hfirst, hlong⟩ := exists_first_not_fits hfit
      obtain ⟨f, l, hwhole, hf, hl, hunknown⟩ := exists_unknown_of_first hfilenames hlines hlength
        hreach (List.getElem?_eq_some_iff.mp hb).1 hmk hfirst hlong
      have hfits := h m f l hwhole hf hl hunknown
      rcases exists_not_fits hfirst hlong with ⟨x, hx, hnot⟩ | ⟨x, hx, hnot⟩
      · obtain rfl := Option.some.inj (hf.symm.trans hx)
        exact absurd hfits.1 hnot
      · obtain rfl := Option.some.inj (hl.symm.trans hx)
        exact absurd hfits.2 hnot

end Lines

variable {strcmp : Strcmp} {sorting : Sorting MyCompare} {records : List Record}
  {functions : List FunctionEntry} {filenames : List (List Char)}

/-- The record numbers of the profile are right if the lines at the unknown locations that `Combine`
gets to fit. If one does not, `Combine` passes by a pair that is not made of the lines at its
position. -/
theorem aligned_of_unknownsFit (hnames : ∀ f ∈ functions, '\n' ∉ f.functionName)
    (hfilenames : ∀ l ∈ filenames, '\n' ∉ l) (hlength : filenames.length = records.length) :
    ((∀ lines, FunctionLines strcmp sorting functions records lines →
        UnknownsFit filenames lines) → Aligned strcmp sorting records functions filenames)
      ∧ ∀ lines, FunctionLines strcmp sorting functions records lines →
        (PairsAreLines filenames lines ↔ UnknownsFit filenames lines) := by
  have hpairs : ∀ lines, FunctionLines strcmp sorting functions records lines →
      (PairsAreLines filenames lines ↔ UnknownsFit filenames lines) := fun lines hlines ↦
    pairsAreLines_iff hfilenames (fun l hl ↦ (hlines.notMem l hl).2 hnames)
      (hlength.trans hlines.length_eq) fun l hl ↦ (hlines.notMem l hl).1
  refine ⟨fun h e he ↦ ?_, hpairs⟩
  obtain ⟨lines, k, b, hlines, hb, hreach, hknown, rfl⟩ := mem_written_convert_iff.mp he
  obtain ⟨hfilename, hfunction⟩ := (hpairs lines hlines).mpr (h lines hlines) k b hb hreach
  obtain ⟨h₁, h₂⟩ := hreach.eq_append hb hknown
  obtain ⟨f, hf, hf'⟩ := Option.map_eq_some_iff.mp hfilename
  obtain ⟨l, hl, hl'⟩ := Option.map_eq_some_iff.mp hfunction
  obtain rfl := List.append_cancel_right (hf'.trans h₁)
  obtain rfl := List.append_cancel_right (hl'.trans h₂)
  have hk : k < records.length := hlength ▸ (List.getElem?_eq_some_iff.mp hf).1
  have hr : records[k]? = some records[k] := List.getElem?_eq_getElem hk
  obtain ⟨l', hl', hline⟩ := hlines.getElem? hr
  obtain rfl := Option.some.inj (hl.symm.trans hl')
  exact ⟨hf, _, hr, hline⟩

/-- A sample at address zero. -/
def zeroSample : Record := { Record.zeroed with type := .memoryOp }

theorem aligned_shortName :
    Aligned .sign mergeSorting [zeroSample, zeroSample] [⟨"main".toList, 0, 0⟩]
      ["??:0".toList, "a.c:1".toList] := by
  refine (aligned_of_unknownsFit (by decide) (by decide) rfl).1 fun lines hlines ↦ ?_
  have hexpected : FunctionLines .sign mergeSorting [⟨"main".toList, 0, 0⟩]
      [zeroSample, zeroSample] ["main\t0".toList, "main\t0".toList] :=
    .cons (by decide +kernel) (.cons (by decide +kernel) .nil)
  obtain rfl := hlines.unique hexpected
  intro k f l _ hf hl _
  have hfits : ∀ f ∈ ["??:0".toList, "a.c:1".toList], Fits 2000 f := by decide
  have hfits' : ∀ l ∈ ["main\t0".toList, "main\t0".toList], Fits 200 l := by decide
  exact ⟨hfits f (List.mem_of_getElem? hf), hfits' l (List.mem_of_getElem? hl)⟩

/-- A name of 200 letters at an unknown location: the line of the second record is given the end of
the first record's line. -/
theorem not_aligned_longName :
    let functions : List FunctionEntry := [⟨List.replicate 200 'x', 0, 0⟩]
    let filenames := ["??:0".toList, "a.c:1".toList]
    (∀ f ∈ functions, '\n' ∉ f.functionName) ∧ (∀ l ∈ filenames, '\n' ∉ l ∧ l.length < 2000)
      ∧ (convert .sign mergeSorting [zeroSample, zeroSample] functions
        (joinLines filenames)).written = [⟨1, "a.c:1".toList, "x\t0".toList⟩]
      ∧ convertLine .sign (mergeSorting.sort functions) (writeRawRecord zeroSample)
        = .ok (List.replicate 200 'x' ++ "\t0\n".toList)
      ∧ ¬Aligned .sign mergeSorting [zeroSample, zeroSample] functions filenames := by
  intro functions filenames
  have hwritten : (convert .sign mergeSorting [zeroSample, zeroSample] functions
      (joinLines filenames)).written = [⟨1, "a.c:1".toList, "x\t0".toList⟩] := by
    decide +kernel
  have hline : convertLine .sign (mergeSorting.sort functions) (writeRawRecord zeroSample)
      = .ok (List.replicate 200 'x' ++ "\t0\n".toList) := by
    decide +kernel
  refine ⟨by decide +kernel, by decide +kernel, hwritten, hline, fun h ↦ ?_⟩
  obtain ⟨-, r, hr, hline'⟩ := h _ (hwritten ▸ List.mem_singleton_self _)
  obtain rfl : zeroSample = r := Option.some.inj hr
  exact absurd (Except.ok.inj (hline.symm.trans hline')) (by decide +kernel)

end Racez
