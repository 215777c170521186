import Racez.Convert.Symbols
import Mathlib.Data.List.Forall2

/-!
# Symbol lines of any form

Not every line that is taken for a row has all its fields. `ReadSymFile` rejects a row without a
space behind its value or behind its size, and a row that the file ends in. A row that is cut
elsewhere is not rejected: `strchr` finds no space and its result is used all the same. The first
is a row without a space behind the index, such as an empty line behind the table. The others have
a size and then fewer than four words, each with a space behind it. `parsesOrRejects_iff` says that
besides these only the reading of a line, and the counter of lines, can go wrong.

## Representation

A line is cut at its spaces. Of the words that are skipped only those count that have a space
behind them, so the last piece never does.

## Pieces of a line

`splitOn` at spaces cuts a line into pieces, empty ones included. `endedWords` counts the pieces
that are words and have a space behind them, and that count is all that decides whether the scanner
gets through: `skipField` needs one such word (`skipField_cases`), and the loop over the fields
needs as many as it has turns. The value, the size and the name are tested and lead to a rejection
instead.

## The loop over the lines

A row is *complete* if it has all its fields and its newline, *truncated* if the scanner uses a null
pointer on it, and anything else is rejected. The loop goes on behind a complete row only. So the
run is sound if no row is truncated up to the first that is not complete, and each of them can be
read at all (`RowsSound`). In front of the rows a line is passed over whatever it holds, and only
reading it can go wrong. `TextFile` is the assumption under which the pieces of the file are its
lines.
-/

namespace Racez

open Stdio

/-! ## Fields of a row -/

/-- The number of words with a space behind them among the pieces of a text. -/
def endedWords (pieces : List (List Char)) : ℕ := (pieces.dropLast.filter (· ≠ [])).length

/-- The scanner uses a null pointer: no space ends the index, or a space ends the size but not all
of the four words behind it. -/
def Truncated (line : List Char) : Prop :=
  match (line.dropWhile (· = ' ')).splitOn ' ' with
  | _ :: _ :: pieces => 1 ≤ endedWords pieces ∧ endedWords pieces < 5
  | _ => True

/-- The row has all its fields and its newline. -/
def Complete (line : List Char) : Prop :=
  match (line.dropWhile (· = ' ')).splitOn ' ' with
  | _ :: _ :: pieces => 5 ≤ endedWords pieces ∧ '\n' ∈ line
  | _ => False

section Words

variable {l w t : List Char}

/-- The number of words with a space behind them. -/
def endedFields (l : List Char) : ℕ := endedWords (l.splitOn ' ')

private theorem endedFields_of_notMem (h : ' ' ∉ l) : endedFields l = 0 := by
  rw [endedFields, List.splitOn_eq_singleton h]
  rfl

theorem endedFields_append (hw : ' ' ∉ w) (t : List Char) :
    endedFields (w ++ ' ' :: t) = (if w = [] then 0 else 1) + endedFields t := by
  rw [endedFields, List.splitOn_append_cons_self_of_not_mem hw, endedWords,
    List.dropLast_cons_of_ne_nil (List.splitOn_ne_nil _ _), List.filter_cons, endedFields,
    endedWords]
  by_cases hnil : w = []
  · rw [if_neg (by simpa using hnil), if_pos hnil, Nat.zero_add]
  · rw [if_pos (by simpa using hnil), if_neg hnil, List.length_cons, Nat.add_comm]

@[simp] theorem endedFields_skipSpaces (l : List Char) :
    endedFields (skipSpaces l) = endedFields l := by
  induction l with
  | nil => rfl
  | cons c l ih =>
    by_cases hc : c = ' '
    · have happend := endedFields_append List.not_mem_nil l
      rw [List.nil_append, if_pos rfl, Nat.zero_add] at happend
      rw [hc, happend, ← ih, skipSpaces, skipSpaces, List.dropWhile_cons_of_pos (by decide)]
    · rw [skipSpaces, List.dropWhile_cons_of_neg (by simpa using hc)]

@[simp] theorem strchr_eq_none_iff {c : Char} : strchr c l = none ↔ c ∉ l := by
  rw [strchr]
  split_ifs with h
  · simp [h]
  · simp [h]

private theorem eq_append_of_strchr_skipSpaces (h : strchr ' ' (skipSpaces l) = some (w, t)) :
    l = l.takeWhile (· = ' ') ++ w ++ ' ' :: t := by
  obtain ⟨heq, -⟩ := eq_append_of_strchr h
  rw [List.append_assoc, ← heq, skipSpaces, List.takeWhile_append_dropWhile]

/-- Behind spaces `strchr` finds the end of a word exactly when some word has a space behind it. -/
theorem strchr_skipSpaces_cases (l : List Char) :
    (endedFields l = 0 ∧ strchr ' ' (skipSpaces l) = none)
      ∨ ∃ w t u, strchr ' ' (skipSpaces l) = some (w, t) ∧ l = u ++ ' ' :: t
        ∧ endedFields l = endedFields t + 1 := by
  cases hchr : strchr ' ' (skipSpaces l) with
  | none =>
    refine Or.inl ⟨?_, rfl⟩
    rw [← endedFields_skipSpaces]
    exact endedFields_of_notMem (strchr_eq_none_iff.mp hchr)
  | some p =>
    obtain ⟨w, t⟩ := p
    obtain ⟨heq, hw⟩ := eq_append_of_strchr hchr
    -- the spaces have been skipped, so the word is not empty
    have hne : w ≠ [] := by
      rintro rfl
      have hnot := List.head?_dropWhile_not (fun c ↦ decide (c = ' ')) l
      rw [← skipSpaces, heq] at hnot
      exact absurd hnot (by simp)
    refine Or.inr ⟨w, t, _, rfl, eq_append_of_strchr_skipSpaces hchr, ?_⟩
    rw [← endedFields_skipSpaces, heq, endedFields_append hw, if_neg hne, Nat.add_comm]

theorem skipField_cases (l : List Char) :
    (endedFields l = 0 ∧ skipField l = .error .nullPointer)
      ∨ ∃ u t, skipField l = .ok t ∧ l = u ++ ' ' :: t ∧ endedFields l = endedFields t + 1 := by
  rw [skipField]
  rcases strchr_skipSpaces_cases l with ⟨hzero, hchr⟩ | ⟨w, t, u, hchr, heq, hcount⟩
  · exact Or.inl ⟨hzero, by rw [hchr]⟩
  · exact Or.inr ⟨u, t, by rw [hchr], heq, hcount⟩

private theorem skipFields_of_lt {n : ℕ} (h : endedFields l < n) :
    skipFields n l = .error .nullPointer := by
  induction n generalizing l with
  | zero => exact absurd h (Nat.not_lt_zero _)
  | succ n ih =>
    rw [skipFields]
    rcases skipField_cases l with ⟨-, hskip⟩ | ⟨u, t, hskip, -, hcount⟩
    · rw [hskip]
    · rw [hskip]
      exact ih (by omega)

private theorem skipFields_of_le {n : ℕ} (h : n ≤ endedFields l) :
    ∃ t, skipFields n l = .ok t ∧ (n ≠ 0 → ∃ u, l = u ++ ' ' :: t) := by
  induction n generalizing l with
  | zero => exact ⟨l, rfl, fun hn ↦ absurd rfl hn⟩
  | succ n ih =>
    rw [skipFields]
    rcases skipField_cases l with ⟨hzero, -⟩ | ⟨u, t, hskip, heq, hcount⟩
    · omega
    · obtain ⟨t', ht', hsuffix⟩ := ih (l := t) (by omega)
      rw [hskip]
      refine ⟨t', ht', fun _ ↦ ?_⟩
      by_cases hn : n = 0
      · subst hn
        obtain rfl : t = t' := Except.ok.inj ht'
        exact ⟨u, heq⟩
      · obtain ⟨v, hv⟩ := hsuffix hn
        exact ⟨u ++ ' ' :: v, by rw [heq, hv, List.append_assoc, List.cons_append]⟩

end Words

/-! ## What becomes of a row -/

section Row

variable {line : List Char}

private theorem newline_mem_iff {u t : List Char} (hline : '\n' ∉ line.dropLast)
    (h : line = u ++ ' ' :: t) : '\n' ∈ t ↔ '\n' ∈ line := by
  subst h
  rw [List.dropLast_append_of_ne_nil (List.cons_ne_nil _ _), List.mem_append, not_or] at hline
  rw [List.mem_append, List.mem_cons, or_iff_right hline.1, or_iff_right (by decide)]

private theorem splitOn_skipSpaces (line : List Char) :
    (skipField line = .error .nullPointer ∧ Truncated line ∧ ¬Complete line)
      ∨ ∃ ptr u, skipField line = .ok ptr ∧ line = u ++ ' ' :: ptr
        ∧ ((' ' ∉ ptr ∧ ¬Truncated line ∧ ¬Complete line)
          ∨ ∃ value rest, ptr = value ++ ' ' :: rest ∧ ' ' ∉ value
            ∧ (Truncated line ↔ 1 ≤ endedFields rest ∧ endedFields rest < 5)
            ∧ (Complete line ↔ 5 ≤ endedFields rest ∧ '\n' ∈ line)) := by
  rw [skipField, Truncated, Complete, ← skipSpaces]
  cases hchr : strchr ' ' (skipSpaces line) with
  | none =>
    rw [List.splitOn_eq_singleton (strchr_eq_none_iff.mp hchr)]
    exact Or.inl ⟨rfl, trivial, not_false⟩
  | some p =>
    obtain ⟨w, ptr⟩ := p
    obtain ⟨heq, hw⟩ := eq_append_of_strchr hchr
    refine Or.inr ⟨ptr, _, rfl, eq_append_of_strchr_skipSpaces hchr, ?_⟩
    rw [heq, List.splitOn_append_cons_self_of_not_mem hw]
    cases hvalue : strchr ' ' ptr with
    | none =>
      have hptr : ' ' ∉ ptr := strchr_eq_none_iff.mp hvalue
      rw [List.splitOn_eq_singleton hptr]
      exact Or.inl ⟨hptr, by simp [endedWords], by simp [endedWords]⟩
    | some q =>
      obtain ⟨value, rest⟩ := q
      obtain ⟨hptr, hvalue⟩ := eq_append_of_strchr hvalue
      refine Or.inr ⟨value, rest, hptr, hvalue, ?_⟩
      rw [hptr, List.splitOn_append_cons_self_of_not_mem hvalue]
      exact ⟨Iff.rfl, Iff.rfl⟩

/-- A null pointer is used in the truncated rows, and the complete ones have an entry. All others
are rejected. -/
theorem parseSymLine_cases (hline : '\n' ∉ line.dropLast) :
    (parseSymLine line = .error .nullPointer ∧ Truncated line ∧ ¬Complete line)
      ∨ (parseSymLine line = .ok none ∧ ¬Truncated line ∧ ¬Complete line)
      ∨ ∃ function, parseSymLine line = .ok (some function) ∧ ¬Truncated line ∧ Complete line := by
  rw [parseSymLine]
  rcases splitOn_skipSpaces line with ⟨hskip, htrunc, hcomplete⟩ | ⟨ptr, u, hskip, hptr, hvalue⟩
  · rw [hskip]
    exact Or.inl ⟨rfl, htrunc, hcomplete⟩
  rw [hskip]
  dsimp only
  rcases hvalue with ⟨hspace, htrunc, hcomplete⟩ | ⟨value, rest, heq, hspace, htrunc, hcomplete⟩
  · rw [strchr_eq_none_iff.mpr hspace]
    exact Or.inr (Or.inl ⟨rfl, htrunc, hcomplete⟩)
  rw [heq, strchr_append hspace]
  dsimp only
  rcases strchr_skipSpaces_cases rest with ⟨hzero, hsize⟩ | ⟨size, fields, v, hsize, hrest, hcount⟩
  · rw [hsize]
    have hnot : ¬Truncated line := fun h ↦ absurd (htrunc.mp h).1 (by omega)
    have hnot' : ¬Complete line := fun h ↦ absurd (hcomplete.mp h).1 (by omega)
    exact Or.inr (Or.inl ⟨rfl, hnot, hnot'⟩)
  rw [hsize]
  dsimp only
  by_cases hfields : endedFields fields < 4
  · rw [skipFields_of_lt hfields]
    have hnot : ¬Complete line := fun h ↦ absurd (hcomplete.mp h).1 (by omega)
    exact Or.inl ⟨rfl, htrunc.mpr ⟨by omega, by omega⟩, hnot⟩
  · obtain ⟨name, hskip', hname⟩ := skipFields_of_le (Nat.le_of_not_lt hfields)
    obtain ⟨x, hname⟩ := hname (by decide)
    have hmem : '\n' ∈ name ↔ '\n' ∈ line := by
      refine newline_mem_iff (u := u ++ ' ' :: value ++ ' ' :: v ++ ' ' :: x) hline ?_
      simp [hptr, heq, hrest, hname]
    have hnot : ¬Truncated line := fun h ↦ absurd (htrunc.mp h).2 (by omega)
    rw [hskip']
    dsimp only
    cases hnewline : strchr '\n' name with
    | none =>
      refine Or.inr (Or.inl ⟨rfl, hnot, fun h ↦ ?_⟩)
      exact strchr_eq_none_iff.mp hnewline (hmem.mpr (hcomplete.mp h).2)
    | some p =>
      obtain ⟨func, end_⟩ := p
      obtain ⟨hfunc, -⟩ := eq_append_of_strchr hnewline
      refine Or.inr (Or.inr ⟨_, rfl, hnot, hcomplete.mpr ⟨by omega, hmem.mp ?_⟩⟩)
      rw [hfunc]
      simp

end Row

/-! ## Reading a line -/

/-- `ReadSymLine` does not stop the run: a line with its newline has no terminator in it, and a last
line without one does not begin with a terminator and does not fill the buffer. -/
def Readable (piece : List Char) : Prop :=
  if '\n' ∈ piece then '\x00' ∉ piece
  else piece.head? ≠ some '\x00' ∧ piece.length < symBufferSize - 1

instance : DecidablePred Readable := fun _ ↦ inferInstanceAs (Decidable (ite _ _ _))

section Piece

variable {piece : List Char}

private theorem exists_concat_of_mem (hpiece : '\n' ∉ piece.dropLast) (hmem : '\n' ∈ piece) :
    ∃ l, piece = l ++ ['\n'] ∧ '\n' ∉ l := by
  rcases List.eq_nil_or_concat' piece with rfl | ⟨l, c, rfl⟩
  · exact absurd hmem List.not_mem_nil
  · rw [List.dropLast_concat] at hpiece
    rw [List.mem_append, or_iff_right hpiece, List.mem_singleton] at hmem
    exact ⟨l, by rw [← hmem], hpiece⟩

private theorem cString_eq_nil_iff (hne : piece ≠ []) :
    cString piece = [] ↔ piece.head? = some '\x00' := by
  obtain ⟨c, l, rfl⟩ := List.exists_cons_of_ne_nil hne
  rw [cString, List.takeWhile_cons, List.head?_cons, Option.some.injEq]
  by_cases hc : c = '\x00'
  · simp [hc]
  · simp [hc]

private theorem notMem_dropLast_cString (hpiece : '\n' ∉ piece.dropLast) :
    '\n' ∉ (cString piece).dropLast := by
  obtain ⟨t, ht⟩ : cString piece <+: piece := List.takeWhile_prefix _
  by_cases hnil : t = []
  · rw [hnil, List.append_nil] at ht
    rwa [ht]
  · rw [← ht, List.dropLast_append_of_ne_nil hnil] at hpiece
    exact fun h ↦ hpiece (List.mem_append_left _ (List.mem_of_mem_dropLast h))

/-- Which pieces are read. -/
theorem readSymLine_cases (hpiece : '\n' ∉ piece.dropLast) (hne : piece ≠ []) :
    (Readable piece ∧ readSymLine piece = .ok (cString piece))
      ∨ (¬Readable piece ∧ ∃ fault, readSymLine piece = .error fault) := by
  rw [Readable]
  by_cases hmem : '\n' ∈ piece
  · obtain ⟨l, rfl, hl⟩ := exists_concat_of_mem hpiece hmem
    have hnul : '\x00' ∈ l ++ ['\n'] ↔ '\x00' ∈ l := by simp
    rw [if_pos hmem, hnul]
    by_cases hl' : '\x00' ∈ l
    · exact Or.inr ⟨not_not.mpr hl', readSymLine_concat_of_mem hl hl'⟩
    · refine Or.inl ⟨hl', ?_⟩
      rw [cString_concat hl']
      exact readSymLine_concat hl'
  · rw [if_neg hmem, readSymLine]
    cases hlast : (cString piece).getLast? with
    | none =>
      rw [List.getLast?_eq_none_iff, cString_eq_nil_iff hne] at hlast
      exact Or.inr ⟨fun h ↦ h.1 hlast, _, rfl⟩
    | some c =>
      have hhead : piece.head? ≠ some '\x00' := by
        intro hhead
        rw [(cString_eq_nil_iff hne).mpr hhead] at hlast
        exact absurd hlast (by simp)
      have hc : c ≠ '\n' := by
        rintro rfl
        exact hmem ((List.takeWhile_sublist _).subset (List.mem_of_getLast? hlast))
      have hend : piece.getLast? ≠ some '\n' := fun h ↦ hmem (List.mem_of_getLast? h)
      dsimp only
      by_cases hlength : piece.length < symBufferSize - 1
      · rw [if_neg fun h ↦ h.2 ⟨hend, hlength⟩]
        exact Or.inl ⟨⟨hhead, hlength⟩, rfl⟩
      · rw [if_pos ⟨hc, fun h ↦ hlength h.2⟩]
        exact Or.inr ⟨fun h ↦ hlength h.2, _, rfl⟩

end Piece

/-! ## The whole file -/

/-- The lines in front of the rows: those up to the one that mentions the table, and one more. -/
def symPreamble (pieces : List (List Char)) : List (List Char) :=
  pieces.takeWhile (fun p ↦ ¬symtab <:+: cString p)
    ++ (pieces.dropWhile fun p ↦ ¬symtab <:+: cString p).take 2

/-- The lines that are taken for rows. -/
def symRows (pieces : List (List Char)) : List (List Char) :=
  (pieces.dropWhile fun p ↦ ¬symtab <:+: cString p).drop 2

/-- Every row is parsed, or the file is rejected. -/
def SymOutcome.Sound (outcome : SymOutcome) (rows : List (List Char)) : Prop :=
  outcome.result = .ok false
    ∨ (outcome.result = .ok true
      ∧ List.Forall₂ (fun p function ↦ parseSymLine (cString p) = .ok (some function)) rows
        outcome.functions)

theorem SymOutcome.not_sound_of_error {functions : List FunctionEntry} {fault : SymFault}
    (rows : List (List Char)) : ¬(SymOutcome.mk functions (.error fault)).Sound rows := by
  rintro (hfalse | ⟨htrue, -⟩)
  · exact absurd hfalse (by simp)
  · exact absurd htrue (by simp)

/-- Every row that the loop gets to, since those before it are complete, can be read and is not
truncated, and the counter lasts. -/
def RowsSound (firstOcc : ℕ) (rows : List (List Char)) : Prop :=
  ∀ (i : ℕ) (p), rows[i]? = some p → (∀ q ∈ rows.take i, Complete (cString q)) →
    Readable p ∧ ¬Truncated (cString p) ∧ firstOcc + i + 1 < 2 ^ 31

@[simp] theorem rowsSound_cons {firstOcc : ℕ} {p : List Char} {rows : List (List Char)} :
    RowsSound firstOcc (p :: rows)
      ↔ (Readable p ∧ ¬Truncated (cString p) ∧ firstOcc + 1 < 2 ^ 31)
        ∧ (Complete (cString p) → RowsSound (firstOcc + 1) rows) := by
  constructor
  · intro h
    refine ⟨by simpa using h 0 p rfl (by simp), fun hp i q hq hbefore ↦ ?_⟩
    have hrow := h (i + 1) q hq (by simpa using ⟨hp, hbefore⟩)
    rwa [show firstOcc + (i + 1) + 1 = firstOcc + 1 + i + 1 by omega] at hrow
  · rintro ⟨hp, hrows⟩ i q hq hbefore
    cases i with
    | zero =>
      obtain rfl : p = q := Option.some.inj hq
      exact hp
    | succ i =>
      rw [List.take_succ_cons, List.forall_mem_cons] at hbefore
      have hrow := hrows hbefore.1 i q hq hbefore.2
      rwa [show firstOcc + 1 + i + 1 = firstOcc + (i + 1) + 1 by omega] at hrow

private theorem sound_readSymLoop_rows_iff {firstOcc : ℕ} {rows : List (List Char)}
    (hrows : ∀ p ∈ rows, '\n' ∉ p.dropLast ∧ p ≠ []) (hfirst : 2 ≤ firstOcc) :
    (readSymLoop firstOcc rows).Sound rows ↔ RowsSound firstOcc rows := by
  induction rows generalizing firstOcc with
  | nil => exact iff_of_true (Or.inr ⟨rfl, List.Forall₂.nil⟩) (by simp [RowsSound])
  | cons p rows ih =>
    obtain ⟨⟨hp, hne⟩, hrows⟩ := List.forall_mem_cons.mp hrows
    rw [rowsSound_cons]
    rcases readSymLine_cases hp hne with ⟨hread, hline⟩ | ⟨hread, fault, hline⟩
    swap
    · rw [readSymLoop_of_error hline]
      exact iff_of_false (SymOutcome.not_sound_of_error _) fun h ↦ hread h.1.1
    by_cases hcount : firstOcc < 2 ^ 31 - 1
    swap
    · rw [readSymLoop_overflow hline (Nat.le_of_not_lt hcount)]
      exact iff_of_false (SymOutcome.not_sound_of_error _) fun h ↦ absurd h.1.2.2 (by omega)
    have hdrop : '\n' ∉ (cString p).dropLast := notMem_dropLast_cString hp
    rw [readSymLoop_row hline hfirst hcount]
    rcases parseSymLine_cases hdrop with ⟨hparse, htrunc, hcomplete⟩ | ⟨hparse, htrunc, hcomplete⟩
      | ⟨function, hparse, htrunc, hcomplete⟩
    · rw [hparse]
      exact iff_of_false (SymOutcome.not_sound_of_error _) fun h ↦ h.1.2.1 htrunc
    · rw [hparse]
      exact iff_of_true (Or.inl rfl)
        ⟨⟨hread, htrunc, by omega⟩, fun h ↦ absurd h hcomplete⟩
    · rw [hparse]
      have hrest := ih hrows (Nat.le_succ_of_le hfirst)
      rw [and_iff_right ⟨hread, htrunc, by omega⟩, forall_prop_of_true hcomplete, ← hrest]
      simp only [SymOutcome.Sound, List.forall₂_cons, hparse, true_and]

section Pieces

variable {p : List Char} {pieces : List (List Char)}

private theorem symRows_cons_of_not (h : ¬symtab <:+: cString p) :
    symRows (p :: pieces) = symRows pieces
      ∧ symPreamble (p :: pieces) = p :: symPreamble pieces := by
  constructor
  · rw [symRows, List.dropWhile_cons_of_pos (by simpa using h), ← symRows]
  · rw [symPreamble, List.takeWhile_cons_of_pos (by simpa using h),
      List.dropWhile_cons_of_pos (by simpa using h), List.cons_append, ← symPreamble]

private theorem symRows_cons_of_symtab (h : symtab <:+: cString p) :
    symRows (p :: pieces) = pieces.drop 1 ∧ symPreamble (p :: pieces) = p :: pieces.take 1 := by
  constructor
  · rw [symRows, List.dropWhile_cons_of_neg (by simpa using h), List.drop_succ_cons]
  · rw [symPreamble, List.takeWhile_cons_of_neg (by simpa using h),
      List.dropWhile_cons_of_neg (by simpa using h), List.nil_append, List.take_succ_cons]

private theorem sound_readSymLoop_one_iff (h : ∀ p ∈ pieces, '\n' ∉ p.dropLast ∧ p ≠ []) :
    (readSymLoop 1 pieces).Sound (pieces.drop 1)
      ↔ (∀ p ∈ pieces.take 1, Readable p) ∧ RowsSound 2 (pieces.drop 1) := by
  cases pieces with
  | nil => exact iff_of_true (Or.inr ⟨rfl, List.Forall₂.nil⟩) ⟨by simp, by simp [RowsSound]⟩
  | cons p rows =>
    obtain ⟨⟨hp, hne⟩, hrows⟩ := List.forall_mem_cons.mp h
    rw [List.drop_one, List.tail_cons, List.take_one, List.head?_cons, Option.toList_some,
      List.forall_mem_singleton]
    rcases readSymLine_cases hp hne with ⟨hread, hline⟩ | ⟨hread, fault, hline⟩
    · rw [readSymLoop_heading hline (fun h ↦ absurd h (by decide)) (by decide),
        and_iff_right hread]
      exact sound_readSymLoop_rows_iff hrows le_rfl
    · rw [readSymLoop_of_error hline]
      exact iff_of_false (SymOutcome.not_sound_of_error _) fun h ↦ hread h.1

/-- The loop from its beginning. In front of the rows only the reading of a line can go wrong. -/
theorem sound_readSymLoop_iff (h : ∀ p ∈ pieces, '\n' ∉ p.dropLast ∧ p ≠ []) :
    (readSymLoop 0 pieces).Sound (symRows pieces)
      ↔ (∀ p ∈ symPreamble pieces, Readable p) ∧ RowsSound 2 (symRows pieces) := by
  induction pieces with
  | nil =>
    refine iff_of_true (Or.inr ⟨rfl, List.Forall₂.nil⟩) ⟨by simp [symPreamble], ?_⟩
    simp [RowsSound, symRows]
  | cons p pieces ih =>
    obtain ⟨⟨hp, hne⟩, hpieces⟩ := List.forall_mem_cons.mp h
    by_cases hsym : symtab <:+: cString p
    · rw [(symRows_cons_of_symtab hsym).1, (symRows_cons_of_symtab hsym).2, List.forall_mem_cons]
      rcases readSymLine_cases hp hne with ⟨hread, hline⟩ | ⟨hread, fault, hline⟩
      · rw [readSymLoop_heading hline (fun _ ↦ hsym) (by decide), and_iff_right hread]
        exact sound_readSymLoop_one_iff hpieces
      · rw [readSymLoop_of_error hline]
        exact iff_of_false (SymOutcome.not_sound_of_error _) fun h ↦ hread h.1.1
    · rw [(symRows_cons_of_not hsym).1, (symRows_cons_of_not hsym).2, List.forall_mem_cons]
      rcases readSymLine_cases hp hne with ⟨hread, hline⟩ | ⟨hread, fault, hline⟩
      · rw [readSymLoop_before hline hsym, and_iff_right hread]
        exact ih hpieces
      · rw [readSymLoop_of_error hline]
        exact iff_of_false (SymOutcome.not_sound_of_error _) fun h ↦ hread h.1.1

end Pieces

/-- A text file in which every line, with its newline, has fewer than 10000 characters. -/
structure TextFile where
  /-- The lines that end with a newline, without it. -/
  lines : List (List Char)
  /-- What stands behind the last newline. -/
  last : List Char
  /-- A line has no newline inside. -/
  lines_notMem : ∀ l ∈ lines, '\n' ∉ l
  /-- Nor has what stands behind the last one. -/
  last_notMem : '\n' ∉ last
  /-- A line fits into the buffer with its newline. -/
  length_lines_lt : ∀ l ∈ lines, l.length + 1 < 10000
  /-- What stands behind the last newline fits too. -/
  length_last_lt : last.length < 10000

namespace TextFile

variable (file : TextFile)

/-- The characters of the file. -/
def text : List Char := joinLines file.lines ++ file.last

/-- The lines as they stand in the file. -/
def pieces : List (List Char) :=
  file.lines.map (· ++ ['\n']) ++ if file.last = [] then [] else [file.last]

theorem fgetsAll_text : fgetsAll symBufferSize file.text = file.pieces := by
  have hlines : ∀ l ∈ file.lines, '\n' ∉ l ∧ Fits symBufferSize l := by
    intro l hl
    have hlt := file.length_lines_lt l hl
    refine ⟨file.lines_notMem l hl, ?_⟩
    rw [Fits, symBufferSize]
    omega
  rw [text, fgetsAll_joinLines_append hlines, pieces]
  split_ifs with hlast
  · simp [hlast]
  · have hlt := file.length_last_lt
    rw [fgetsAll_of_ne_nil (by decide) hlast, fgets_of_notMem file.last_notMem, fgetsAll_nil]
    rw [symBufferSize]
    omega

private theorem mem_pieces {p : List Char} (hp : p ∈ file.pieces) : '\n' ∉ p.dropLast ∧ p ≠ [] := by
  rw [pieces, List.mem_append] at hp
  rcases hp with hp | hp
  · obtain ⟨l, hl, rfl⟩ := List.mem_map.mp hp
    exact ⟨by simpa using file.lines_notMem l hl, by simp⟩
  · split_ifs at hp with hlast
    · exact absurd hp List.not_mem_nil
    · obtain rfl := List.mem_singleton.mp hp
      exact ⟨fun h ↦ file.last_notMem (List.mem_of_mem_dropLast h), hlast⟩

end TextFile

/-- `ReadSymFile` parses every row of the file and returns true, or it returns false. -/
def ParsesOrRejects (file : TextFile) : Prop :=
  ∀ functions, (readSymFile (some file.text) functions).result = .ok false
    ∨ ((readSymFile (some file.text) functions).result = .ok true
      ∧ ∃ parsed, (readSymFile (some file.text) functions).functions = functions ++ parsed
        ∧ List.Forall₂ (fun p function ↦ parseSymLine (cString p) = .ok (some function))
          (symRows file.pieces) parsed)

private theorem parsesOrRejects_iff_sound (file : TextFile) :
    ParsesOrRejects file ↔ (readSymLoop 0 file.pieces).Sound (symRows file.pieces) := by
  rw [ParsesOrRejects, SymOutcome.Sound]
  simp only [readSymFile, file.fgetsAll_text, List.append_cancel_left_eq, exists_eq_left',
    forall_const]

/-- Every file is parsed or rejected exactly when the lines in front of the rows can be read and
every row the loop gets to can be read, is not truncated, and can be counted. -/
theorem parsesOrRejects_iff (file : TextFile) :
    ParsesOrRejects file
      ↔ (∀ p ∈ symPreamble file.pieces, Readable p) ∧ RowsSound 2 (symRows file.pieces) :=
  (parsesOrRejects_iff_sound file).trans (sound_readSymLoop_iff fun _ ↦ file.mem_pieces)

/-- A table with no row and an empty line behind it. -/
def blankLineFile : TextFile where
  lines := ["Symbol table '.symtab' contains 0 entries:".toList,
    "   Num:    Value          Size Type    Bind   Vis      Ndx Name".toList, []]
  last := []
  lines_notMem := by decide
  last_notMem := by decide
  length_lines_lt := by decide
  length_last_lt := by decide

/-- At the empty line the null pointer is used. -/
theorem not_parsesOrRejects_blankLine :
    (readSymFile (some blankLineFile.text) []).result = .error .nullPointer
      ∧ ¬ParsesOrRejects blankLineFile := by
  have hresult : (readSymFile (some blankLineFile.text) []).result = .error .nullPointer := by
    rw [readSymFile, blankLineFile.fgetsAll_text]
    decide +kernel
  refine ⟨hresult, fun h ↦ ?_⟩
  rcases h [] with hfalse | ⟨htrue, -⟩
  · exact absurd (hresult.symm.trans hfalse) (by simp)
  · exact absurd (hresult.symm.trans htrue) (by simp)

end Racez
