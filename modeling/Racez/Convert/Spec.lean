import Racez.Convert.Floor
import Mathlib.Data.List.Forall2

/-!
# What the steps of `convert` write

`ConvertIP` writes one line for each record (`convertIP_eq_ok_iff`), and does so for every record if
some symbol has offset zero (`exists_functionLines`). `Combine` writes a line for a pair of buffers
exactly when no assertion has failed up to it and it is not skipped
(`mem_written_combineLoop_iff`).

## Lines, pieces, buffers

A text file is written line by line and read back by `fgets`. Three views of it are used. The lines
are what a step of the program prints, each without its newline. The pieces are what the calls of
`fgets` take. The buffers are the pairs of pieces that `Combine` has at hand in one turn of its loop
(`buffers`). Where all lines fit, the pieces are the lines with their newlines
(`getElem?_buffers_iff`), and that is the only case in which positions of the one are positions of
the other.

## What is written

`ReadRawFile` prints short words, so `ConvertIP` reads them back whole (`fgetsAll_readRawFile`).
`ConvertIP` prints a line or comes to a halt at the first record without a floor. `Combine` is a
loop in which a pair is skipped, stops the loop, or is written (`mem_written_cons_iff`); from this
step the result for the whole loop follows by induction on the pairs, with the value of the counter
general. The comparison with the word `invalid` never holds, because the line has a newline and the
word has none (`skips_iff`), so only the location decides whether a pair is skipped.
`mem_written_convert_iff` puts the steps together.
-/

namespace Racez

open SortedVector Stdio

variable {strcmp : Strcmp} {sorting : Sorting MyCompare} {functions : List FunctionEntry}
  {records : List Record}

/-! ## The newline assertion -/

theorem assertNewline_append {l : List Char} (hl : '\x00' ∉ l) :
    assertNewline (l ++ ['\n']) = none := by
  rw [assertNewline, cString_concat hl, List.getLast?_concat]
  rfl

@[simp] theorem assertNewline_eq_none_iff {p : List Char} :
    assertNewline p = none ↔ (cString p).getLast? = some '\n' := by
  rw [assertNewline]
  cases (cString p).getLast? with
  | none => simp
  | some c => simp

theorem mem_of_assertNewline {p : List Char} (h : assertNewline p = none) : '\n' ∈ p :=
  (List.takeWhile_sublist _).subset
    (List.mem_of_getLast? (assertNewline_eq_none_iff.mp h))

theorem eq_append_of_assertNewline {p : List Char} (hp : '\n' ∉ p.dropLast)
    (h : assertNewline p = none) : p = (cString p).dropLast ++ ['\n'] := by
  obtain ⟨u, hu⟩ := List.getLast?_eq_some_iff.mp (assertNewline_eq_none_iff.mp h)
  obtain ⟨t, ht⟩ : cString p <+: p := List.takeWhile_prefix _
  cases t with
  | nil =>
    rw [List.append_nil] at ht
    rw [ht, ← ht, hu, List.dropLast_concat]
  | cons c t =>
    refine absurd ?_ hp
    rw [← ht, List.dropLast_append_of_ne_nil (List.cons_ne_nil c t)]
    exact List.mem_append_left _ (hu ▸ by simp)

/-! ## Raw records -/

theorem writeRawRecord_spec (r : Record) :
    ∃ l, writeRawRecord r = l ++ ['\n'] ∧ l.all Char.isAlphanum = true ∧ Fits 100 l := by
  have hinvalid : ∃ l, "invalid\n".toList = l ++ ['\n'] ∧ l.all Char.isAlphanum = true
      ∧ Fits 100 l :=
    ⟨"invalid".toList, by decide, by decide, by decide⟩
  rw [writeRawRecord]
  split
  · refine ⟨"0x".toList ++ hex8 r.memoryAccess.pip.toNat, rfl, ?_, ?_⟩
    · rw [List.all_append, Bool.and_eq_true]
      exact ⟨by decide, List.all_eq_true.mpr fun c ↦ isAlphanum_of_mem_hex8⟩
    · have hlength := length_hex8_le r.memoryAccess.pip.isLt
      have hzero : "0x".toList.length = 2 := by decide
      rw [Fits, List.length_append, hzero]
      omega
  · exact hinvalid

/-- `ConvertIP` reads back the lines as they were written. -/
@[simp] theorem fgetsAll_readRawFile (records : List Record) :
    fgetsAll 100 (readRawFile records) = records.map writeRawRecord := by
  induction records with
  | nil => simp [readRawFile]
  | cons r records ih =>
    obtain ⟨l, hr, hword, hfits⟩ := writeRawRecord_spec r
    have hl : '\n' ∉ l := fun hc ↦ absurd (List.all_eq_true.mp hword _ hc) (by decide)
    rw [readRawFile, List.flatMap_cons, ← readRawFile, hr, List.append_assoc, List.singleton_append,
      fgetsAll_cons_of_fits hl hfits, ih, List.map_cons, hr]

/-! ## Symbols -/

private theorem mapM_eq_ok_iff {α β ε : Type*} {f : α → Except ε β} {l : List α} {m : List β} :
    l.mapM f = .ok m ↔ List.Forall₂ (fun a b ↦ f a = .ok b) l m := by
  induction l generalizing m with
  | nil =>
    rw [List.mapM_nil, List.forall₂_nil_left_iff]
    exact ⟨fun h ↦ (Except.ok.inj h).symm, fun h ↦ h ▸ rfl⟩
  | cons a l ih =>
    rw [List.mapM_cons]
    cases ha : f a with
    | error e =>
      refine ⟨nofun, fun h ↦ ?_⟩
      obtain ⟨b, m, hb, -, rfl⟩ := List.forall₂_cons_left_iff.mp h
      exact absurd (ha.symm.trans hb) nofun
    | ok b =>
      cases hl : l.mapM f with
      | error e =>
        refine ⟨nofun, fun h ↦ ?_⟩
        obtain ⟨b', m', -, hm, rfl⟩ := List.forall₂_cons_left_iff.mp h
        exact absurd (hl.symm.trans (ih.mpr hm)) nofun
      | ok m' =>
        constructor
        · intro h
          obtain rfl : b :: m' = m := Except.ok.inj h
          exact List.Forall₂.cons ha (ih.mp hl)
        · intro h
          obtain ⟨b', m'', hb, hm, rfl⟩ := List.forall₂_cons_left_iff.mp h
          obtain rfl : b = b' := Except.ok.inj (ha.symm.trans hb)
          obtain rfl : m' = m'' := Except.ok.inj (hl.symm.trans (ih.mpr hm))
          rfl

theorem notMem_print {c : Char} {name : List Char} {z : ℤ} (hname : c ∉ name) (htab : c ≠ '\t')
    (hnumber : ¬(c = '-' ∨ c.isAlphanum = true)) : c ∉ name ++ '\t' :: decimal z := by
  rw [List.mem_append, List.mem_cons]
  rintro (hc | hc | hc)
  · exact hname hc
  · exact htab hc
  · exact hnumber (isAlphanum_of_mem_decimal hc)

/-- What `ConvertIP` prints is a line without a terminator in it. It has another newline only if a
name has one. -/
theorem convertLine_eq_ok {buffer t : List Char}
    (h : convertLine strcmp functions buffer = .ok t) :
    ∃ l, t = l ++ ['\n'] ∧ '\x00' ∉ l
      ∧ ((∀ f ∈ functions, '\n' ∉ f.functionName) → '\n' ∉ l) := by
  rw [convertLine] at h
  split at h
  · obtain rfl := Except.ok.inj h
    exact ⟨"invalid".toList, by decide, by decide, fun _ ↦ by decide⟩
  · split at h
    · exact absurd h nofun
    · rw [symbolLine] at h
      split at h
      · exact absurd h nofun
      · rename_i low hlow
        obtain rfl := Except.ok.inj h
        refine ⟨_, rfl, notMem_print (notMem_cString _) (by decide) (by decide), fun hnames ↦ ?_⟩
        have hname : '\n' ∉ cString low.functionName :=
          fun hc ↦ hnames low (mem_of_lowEntry hlow) ((List.takeWhile_sublist _).subset hc)
        exact notMem_print hname (by decide) (by decide)

variable (strcmp) in
private theorem exists_convertLine (hsorted : functions.Pairwise fun a b ↦ ¬MyCompare b a)
    {f : FunctionEntry} (hf : f ∈ functions) (hzero : f.offset = 0) (r : Record) :
    ∃ t, convertLine strcmp functions (writeRawRecord r) = .ok t := by
  obtain ⟨l, hr, hword, -⟩ := writeRawRecord_spec r
  have hnewline : assertNewline (writeRawRecord r) = none :=
    hr ▸ assertNewline_append fun hc ↦ absurd (List.all_eq_true.mp hword _ hc) (by decide)
  rw [convertLine]
  split
  · exact ⟨_, rfl⟩
  · rw [hnewline]
    have hle : f.offset.toNat
        ≤ (BitVec.ofInt 64 (strtoll 16 (cString (writeRawRecord r))).1).toNat := by
      rw [hzero]
      exact Nat.zero_le _
    obtain ⟨low, hlow⟩ := (exists_lowEntry_iff hsorted).mpr ⟨f, hf, hle⟩
    exact ⟨_, by rw [symbolLine, hlow]⟩

/-- The lines `ConvertIP` prints, without their newlines. -/
def FunctionLines (strcmp : Strcmp) (sorting : Sorting MyCompare) (functions : List FunctionEntry)
    (records : List Record) (lines : List (List Char)) : Prop :=
  List.Forall₂
    (fun r l ↦ convertLine strcmp (sorting.sort functions) (writeRawRecord r) = .ok (l ++ ['\n']))
    records lines

theorem convertIP_eq_ok_iff {functionOutput : List Char} :
    convertIP strcmp sorting functions (readRawFile records) = .ok functionOutput
      ↔ ∃ lines, FunctionLines strcmp sorting functions records lines
        ∧ functionOutput = joinLines lines := by
  rw [convertIP, fgetsAll_readRawFile, List.mapM_map]
  constructor
  · intro h
    cases hmap : records.mapM (convertLine strcmp (sorting.sort functions) ∘ writeRawRecord) with
    | error fault => exact absurd (hmap ▸ h) nofun
    | ok texts =>
      rw [hmap] at h
      obtain rfl : texts.flatten = functionOutput := Except.ok.inj h
      have hforall := mapM_eq_ok_iff.mp hmap
      clear h hmap
      -- each text ends in a newline, so the output falls into lines again
      induction hforall with
      | nil => exact ⟨[], List.Forall₂.nil, rfl⟩
      | cons hr _ ih =>
        obtain ⟨l, rfl, -, -⟩ := convertLine_eq_ok hr
        obtain ⟨lines, hlines, htext⟩ := ih
        refine ⟨l :: lines, List.Forall₂.cons hr hlines, ?_⟩
        rw [List.flatten_cons, htext, joinLines_cons, List.append_assoc, List.singleton_append]
  · rintro ⟨lines, hlines, rfl⟩
    have hmap : records.mapM (convertLine strcmp (sorting.sort functions) ∘ writeRawRecord)
        = .ok (lines.map (· ++ ['\n'])) :=
      mapM_eq_ok_iff.mpr (List.forall₂_map_right_iff.mpr hlines)
    rw [hmap, joinLines, List.flatMap_def]
    rfl

theorem exists_functionLines {f : FunctionEntry} (hf : f ∈ functions) (hzero : f.offset = 0)
    (records : List Record) : ∃ lines, FunctionLines strcmp sorting functions records lines := by
  induction records with
  | nil => exact ⟨[], List.Forall₂.nil⟩
  | cons r records ih =>
    obtain ⟨lines, hlines⟩ := ih
    obtain ⟨t, ht⟩ := exists_convertLine strcmp (sorting.pairwise functions)
      ((sorting.perm functions).mem_iff.mpr hf) hzero r
    obtain ⟨l, rfl, -, -⟩ := convertLine_eq_ok ht
    exact ⟨l :: lines, List.Forall₂.cons ht hlines⟩

/-! ## Combining -/

/-- A pair of buffers at which no assertion of `Combine` fails. -/
def Passes (strcmp : Strcmp) (b : List Char × List Char) : Prop :=
  Skips strcmp b.1 b.2 ∨ (assertNewline b.1 = none ∧ assertNewline b.2 = none)

/-- `Combine`, started with a value of `count`, gets to the pair at a place and writes it. -/
structure Writes (strcmp : Strcmp) (count : ℕ) (bs : List (List Char × List Char)) (k : ℕ)
    (b : List Char × List Char) : Prop where
  /-- The pair is there. -/
  get : bs[k]? = some b
  /-- The counter does not overflow on the way. -/
  lt : count + k < 2 ^ 31 - 1
  /-- No assertion fails on the way. -/
  passes : ∀ b' ∈ bs.take (k + 1), Passes strcmp b'
  /-- The pair is not skipped. -/
  not_skips : ¬Skips strcmp b.1 b.2

section Combining

variable {count k : ℕ} {bs : List (List Char × List Char)} {a b : List Char × List Char}
  {e : ProfileLine}

@[simp] theorem writes_cons_zero_iff :
    Writes strcmp count (a :: bs) 0 b
      ↔ b = a ∧ count < 2 ^ 31 - 1 ∧ Passes strcmp a ∧ ¬Skips strcmp a.1 a.2 := by
  constructor
  · rintro ⟨hget, hlt, hpasses, hskips⟩
    obtain rfl : a = b := Option.some.inj hget
    exact ⟨rfl, hlt, hpasses a (by simp), hskips⟩
  · rintro ⟨rfl, hlt, hpasses, hskips⟩
    exact ⟨rfl, hlt, by simpa using hpasses, hskips⟩

@[simp] theorem writes_cons_succ_iff :
    Writes strcmp count (a :: bs) (k + 1) b
      ↔ Passes strcmp a ∧ Writes strcmp (count + 1) bs k b := by
  constructor
  · rintro ⟨hget, hlt, hpasses, hskips⟩
    rw [List.take_succ_cons, List.forall_mem_cons] at hpasses
    exact ⟨hpasses.1, hget, by omega, hpasses.2, hskips⟩
  · rintro ⟨ha, hget, hlt, hpasses, hskips⟩
    exact ⟨hget, by omega, List.forall_mem_cons.mpr ⟨ha, hpasses⟩, hskips⟩

theorem mem_written_cons_iff :
    e ∈ (combineLoop strcmp count (a :: bs)).written
      ↔ count < 2 ^ 31 - 1 ∧ Passes strcmp a
        ∧ ((¬Skips strcmp a.1 a.2 ∧ e = ⟨count, (cString a.1).dropLast, (cString a.2).dropLast⟩)
          ∨ e ∈ (combineLoop strcmp (count + 1) bs).written) := by
  obtain ⟨filename, function⟩ := a
  rw [combineLoop]
  by_cases hcount : 2 ^ 31 - 1 ≤ count
  · rw [if_pos hcount]
    exact ⟨nofun, fun h ↦ absurd h.1 (by omega)⟩
  · rw [if_neg hcount]
    have hlt : count < 2 ^ 31 - 1 := Nat.lt_of_not_le hcount
    by_cases hskip : Skips strcmp filename function
    · rw [if_pos hskip]
      exact ⟨fun h ↦ ⟨hlt, Or.inl hskip, Or.inr h⟩, fun h ↦ h.2.2.resolve_left fun h' ↦ h'.1 hskip⟩
    · rw [if_neg hskip]
      -- the second assertion is reached only if the first one holds
      have hpasses : Passes strcmp (filename, function)
          ↔ (assertNewline filename <|> assertNewline function) = none := by
        rw [Passes, or_iff_right hskip]
        cases assertNewline filename <;> simp
      rw [hpasses]
      cases assertNewline filename <|> assertNewline function with
      | some fault => exact ⟨nofun, nofun⟩
      | none =>
        rw [List.mem_cons]
        exact ⟨fun h ↦ ⟨hlt, rfl, h.imp_left fun h' ↦ ⟨hskip, h'⟩⟩,
          fun h ↦ h.2.2.imp_left And.right⟩

/-- `Combine` writes a line for a pair exactly when it gets there and does not skip it. -/
theorem mem_written_combineLoop_iff :
    e ∈ (combineLoop strcmp count bs).written
      ↔ ∃ k b, Writes strcmp count bs k b
        ∧ e = ⟨count + k, (cString b.1).dropLast, (cString b.2).dropLast⟩ := by
  induction bs generalizing count with
  | nil =>
    refine ⟨nofun, ?_⟩
    rintro ⟨k, b, hw, -⟩
    exact absurd hw.get nofun
  | cons a bs ih =>
    rw [mem_written_cons_iff, ih]
    constructor
    · rintro ⟨hlt, ha, ⟨hskip, rfl⟩ | ⟨k, b, hw, rfl⟩⟩
      · exact ⟨0, a, writes_cons_zero_iff.mpr ⟨rfl, hlt, ha, hskip⟩, rfl⟩
      · refine ⟨k + 1, b, writes_cons_succ_iff.mpr ⟨ha, hw⟩, ?_⟩
        rw [Nat.add_assoc, Nat.add_comm 1 k]
    · rintro ⟨k, b, hw, rfl⟩
      cases k with
      | zero =>
        obtain ⟨rfl, hlt, hb, hskip⟩ := writes_cons_zero_iff.mp hw
        exact ⟨hlt, hb, Or.inl ⟨hskip, rfl⟩⟩
      | succ k =>
        obtain ⟨ha, hw'⟩ := writes_cons_succ_iff.mp hw
        refine ⟨by have := hw.lt; omega, ha, Or.inr ⟨k, b, hw', ?_⟩⟩
        rw [Nat.add_assoc, Nat.add_comm 1 k]

end Combining

/-! ## Unknown locations -/

theorem isUnknown_iff {s : List Char} : IsUnknown s ↔ "??:0".toList <+: s := by
  rw [← isPrefix_cString_iff (by decide), List.prefix_iff_eq_take, IsUnknown, eq_comm]
  rfl

@[simp] theorem isUnknown_concat_iff {s : List Char} : IsUnknown (s ++ ['\n']) ↔ IsUnknown s := by
  rw [isUnknown_iff, isUnknown_iff, List.prefix_concat_iff, or_iff_right]
  intro h
  have hmem : '\n' ∈ "??:0".toList := h ▸ by simp
  exact absurd hmem (by decide)

theorem isUnknown_take_iff {s : List Char} {n : ℕ} (hn : 4 ≤ n) :
    IsUnknown (s.take n) ↔ IsUnknown s := by
  rw [isUnknown_iff, isUnknown_iff, List.prefix_take_iff, and_iff_left]
  exact hn

/-! ## The whole program -/

/-- The contents of both buffers in the turns of `Combine`, from the lines of both files. -/
def buffers (filenames lines : List (List Char)) : List (List Char × List Char) :=
  (fgetsAll 2000 (joinLines filenames)).zip (fgetsAll 200 (joinLines lines))

/-- `Combine` gets to the pair at a place: no assertion fails up to there and the counter does not
overflow. -/
structure GetsTo (bs : List (List Char × List Char)) (k : ℕ) : Prop where
  /-- The counter does not overflow. -/
  lt : k < 2 ^ 31 - 1
  /-- No assertion fails. -/
  passes : ∀ b ∈ bs.take (k + 1),
    IsUnknown b.1 ∨ (assertNewline b.1 = none ∧ assertNewline b.2 = none)

section Program

variable {filenames lines : List (List Char)} {b : List Char × List Char}

theorem FunctionLines.notMem (h : FunctionLines strcmp sorting functions records lines) :
    ∀ l ∈ lines, '\x00' ∉ l
      ∧ ((∀ f ∈ functions, '\n' ∉ f.functionName) → '\n' ∉ l) := by
  induction h with
  | nil => exact fun l hl ↦ absurd hl List.not_mem_nil
  | cons hr _ ih =>
    rw [List.forall_mem_cons]
    refine ⟨?_, ih⟩
    obtain ⟨l, heq, hnul, hnewline⟩ := convertLine_eq_ok hr
    obtain rfl := List.append_cancel_right heq
    exact ⟨hnul, fun hnames ↦ hnewline fun f hf ↦ hnames f ((sorting.perm functions).mem_iff.mp hf)⟩

theorem FunctionLines.unique {lines' : List (List Char)}
    (h : FunctionLines strcmp sorting functions records lines)
    (h' : FunctionLines strcmp sorting functions records lines') : lines = lines' := by
  refine List.right_unique_forall₂' (fun r l l' hl hl' ↦ ?_) h h'
  exact List.append_cancel_right (Except.ok.inj (hl.symm.trans hl'))

theorem FunctionLines.getElem? {k : ℕ} {r : Record}
    (h : FunctionLines strcmp sorting functions records lines) (hr : records[k]? = some r) :
    ∃ l, lines[k]? = some l
      ∧ convertLine strcmp (sorting.sort functions) (writeRawRecord r) = .ok (l ++ ['\n']) := by
  obtain ⟨hlength, hget⟩ := List.forall₂_iff_get.mp h
  obtain ⟨hk, rfl⟩ := List.getElem?_eq_some_iff.mp hr
  have hk' : k < lines.length := hlength ▸ hk
  exact ⟨_, List.getElem?_eq_getElem hk', hget k hk hk'⟩

/-- No buffer holds the word `invalid` without a newline, so only the location decides. -/
theorem skips_iff (hlines : ∀ l ∈ lines, '\x00' ∉ l) (hb : b ∈ buffers filenames lines) :
    Skips strcmp b.1 b.2 ↔ IsUnknown b.1 := by
  have hmem : b.2 ∈ fgetsAll 200 (joinLines lines) := (List.of_mem_zip hb).2
  have hnul : '\x00' ∉ b.2 :=
    fun hc ↦ notMem_joinLines hlines (by decide) (mem_of_mem_fgetsAll (by decide) hmem hc)
  refine or_iff_right fun h ↦ ?_
  rw [Strcmp.compare_eq_zero_iff, cString_eq_self hnul] at h
  rcases terminated_of_mem_fgetsAll (joinLines_terminated lines) hmem with hlast | hlength
  · rw [h] at hlast
    exact absurd hlast (by decide)
  · rw [h] at hlength
    exact absurd hlength (by decide)

private theorem writes_iff (hlines : ∀ l ∈ lines, '\x00' ∉ l) {k : ℕ} :
    Writes strcmp 0 (buffers filenames lines) k b
      ↔ (buffers filenames lines)[k]? = some b ∧ GetsTo (buffers filenames lines) k
        ∧ ¬IsUnknown b.1 := by
  have hpasses : ∀ b' ∈ (buffers filenames lines).take (k + 1), Passes strcmp b'
      ↔ IsUnknown b'.1 ∨ (assertNewline b'.1 = none ∧ assertNewline b'.2 = none) :=
    fun b' hb' ↦ or_congr_left (skips_iff hlines (List.mem_of_mem_take hb'))
  constructor
  · rintro ⟨hget, hlt, hall, hskips⟩
    exact ⟨hget, ⟨by omega, fun b' hb' ↦ (hpasses b' hb').mp (hall b' hb')⟩,
      fun h ↦ hskips ((skips_iff hlines (List.mem_of_getElem? hget)).mpr h)⟩
  · rintro ⟨hget, ⟨hlt, hall⟩, hknown⟩
    exact ⟨hget, by omega, fun b' hb' ↦ (hpasses b' hb').mpr (hall b' hb'),
      fun h ↦ hknown ((skips_iff hlines (List.mem_of_getElem? hget)).mp h)⟩

theorem GetsTo.passes_of_le {bs : List (List Char × List Char)} {j k : ℕ} (h : GetsTo bs k)
    (hj : j ≤ k) (hb : bs[j]? = some b) :
    IsUnknown b.1 ∨ (assertNewline b.1 = none ∧ assertNewline b.2 = none) := by
  refine h.passes b (List.mem_of_getElem? (i := j) ?_)
  rw [List.getElem?_take, if_pos (Nat.lt_succ_of_le hj), hb]

theorem GetsTo.eq_append {k : ℕ} (h : GetsTo (buffers filenames lines) k)
    (hb : (buffers filenames lines)[k]? = some b) (hknown : ¬IsUnknown b.1) :
    b.1 = (cString b.1).dropLast ++ ['\n'] ∧ b.2 = (cString b.2).dropLast ++ ['\n'] := by
  obtain ⟨h₁, h₂⟩ := (h.passes_of_le le_rfl hb).resolve_left hknown
  obtain ⟨hmem₁, hmem₂⟩ := List.of_mem_zip (List.mem_of_getElem? hb)
  exact ⟨eq_append_of_assertNewline (notMem_dropLast_of_mem_fgetsAll hmem₁) h₁,
    eq_append_of_assertNewline (notMem_dropLast_of_mem_fgetsAll hmem₂) h₂⟩

theorem getElem?_buffers_iff (hfilenames : ∀ l ∈ filenames, '\n' ∉ l ∧ Fits 2000 l)
    (hlines : ∀ l ∈ lines, '\n' ∉ l ∧ Fits 200 l) {i : ℕ} :
    (buffers filenames lines)[i]? = some b ↔
      ∃ f l, filenames[i]? = some f ∧ lines[i]? = some l ∧ b = (f ++ ['\n'], l ++ ['\n']) := by
  rw [buffers, fgetsAll_joinLines hfilenames, fgetsAll_joinLines hlines,
    List.getElem?_zip_eq_some, List.getElem?_map, List.getElem?_map, Option.map_eq_some_iff,
    Option.map_eq_some_iff]
  constructor
  · rintro ⟨⟨f, hf, hf'⟩, l, hl, hl'⟩
    exact ⟨f, l, hf, hl, Prod.ext hf'.symm hl'.symm⟩
  · rintro ⟨f, l, hf, hl, rfl⟩
    exact ⟨⟨f, hf, rfl⟩, l, hl, rfl⟩

theorem getsTo_of_fits (hfilenames : ∀ l ∈ filenames, '\n' ∉ l ∧ Fits 2000 l)
    (hlines : ∀ l ∈ lines, '\n' ∉ l ∧ Fits 200 l) (hfilenames' : ∀ l ∈ filenames, '\x00' ∉ l)
    (hlines' : ∀ l ∈ lines, '\x00' ∉ l) {k : ℕ} (hk : k < 2 ^ 31 - 1) :
    GetsTo (buffers filenames lines) k := by
  refine ⟨hk, fun b hb ↦ Or.inr ?_⟩
  obtain ⟨j, hj⟩ := List.getElem?_of_mem (List.mem_of_mem_take hb)
  obtain ⟨f, l, hf, hl, rfl⟩ := (getElem?_buffers_iff hfilenames hlines).mp hj
  exact ⟨assertNewline_append (hfilenames' f (List.mem_of_getElem? hf)),
    assertNewline_append (hlines' l (List.mem_of_getElem? hl))⟩

/-- What `convert` writes: the pairs with a known location that `Combine` gets to. -/
theorem mem_written_convert_iff {e : ProfileLine} :
    e ∈ (convert strcmp sorting records functions (joinLines filenames)).written
      ↔ ∃ lines k b, FunctionLines strcmp sorting functions records lines
        ∧ (buffers filenames lines)[k]? = some b ∧ GetsTo (buffers filenames lines) k
        ∧ ¬IsUnknown b.1 ∧ e = ⟨k, (cString b.1).dropLast, (cString b.2).dropLast⟩ := by
  rw [convert]
  cases hip : convertIP strcmp sorting functions (readRawFile records) with
  | error fault =>
    refine ⟨nofun, ?_⟩
    rintro ⟨lines, -, -, hlines, -⟩
    exact absurd (hip.symm.trans (convertIP_eq_ok_iff.mpr ⟨lines, hlines, rfl⟩)) nofun
  | ok functionOutput =>
    obtain ⟨lines, hlines, rfl⟩ := convertIP_eq_ok_iff.mp hip
    have hnul : ∀ l ∈ lines, '\x00' ∉ l := fun l hl ↦ (hlines.notMem l hl).1
    refine mem_written_combineLoop_iff.trans ?_
    constructor
    · rintro ⟨k, b, hw, rfl⟩
      obtain ⟨hget, hreach, hknown⟩ := (writes_iff hnul).mp hw
      exact ⟨lines, k, b, hlines, hget, hreach, hknown, by rw [Nat.zero_add]⟩
    · rintro ⟨lines', k, b, hlines', hget, hreach, hknown, rfl⟩
      obtain rfl := hlines.unique hlines'
      exact ⟨k, b, (writes_iff hnul).mpr ⟨hget, hreach, hknown⟩, by rw [Nat.zero_add]⟩

end Program

end Racez
