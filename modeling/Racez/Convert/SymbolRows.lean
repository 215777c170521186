import Racez.Convert.Symbols

/-!
# Printing and reading symbols

readelf prints a row as index, value, size, four words and a name, with spaces between them. The
scanner skips spaces in front of the index, of the size and of the four words, but not in front of
the value and of the name, so exactly one space may stand there. `readsRows_iff` says that every
table printed this way is read back row by row, as long as the counter of lines does not overflow.

## Representation

A gap is the number of spaces in front of a word beyond the one that ends the word before it.

## The round trip

A row is built from its parts (`SymRow`), and `SymRow.text` prints it. `parseSymLine_text` goes
through the scanner in the order of the code: the spaces in front of the index, the index with the
one space behind it, the value by `strtoll`, the size in either of its two forms, the four words,
and the name, which the newline ends. Each part has one lemma that says what is left of the line
behind it.

For a whole file the lines in front of the rows are passed over, none of them being mistaken for the
line that mentions the table, and each row is one turn of the loop, as long as the counter of lines
lasts (`readSymLoop_rows`). A terminator in a line in front of the rows hides the rest of that line,
so that the run stops there (`ReadsRows.notMem`).
-/

namespace Racez

open Stdio

/-! ## The format -/

/-- Spaces. -/
def blanks (n : ℕ) : List Char := List.replicate n ' '

/-- The text can stand in a line. -/
def IsLine (l : List Char) : Prop := '\n' ∉ l ∧ '\x00' ∉ l

instance : DecidablePred IsLine := fun _ ↦ inferInstanceAs (Decidable (_ ∧ _))

/-- The text can stand between spaces. -/
def IsWord (w : List Char) : Prop := w ≠ [] ∧ ' ' ∉ w ∧ IsLine w

instance : DecidablePred IsWord := fun _ ↦ inferInstanceAs (Decidable (_ ∧ _))

/-- Hexadecimal digits of a number that fits. -/
structure HexText where
  /-- The digits. -/
  digits : List Char
  /-- There is at least one. -/
  ne_nil : digits ≠ []
  /-- They are hexadecimal. -/
  isHex : ∀ c ∈ digits, (digit? 16 c).isSome = true
  /-- `strtoll` does not saturate. -/
  lt : digitsValue 16 0 digits < 2 ^ 63

/-- The number. -/
def HexText.value (h : HexText) : ℕ := digitsValue 16 0 h.digits

/-- A size, in one of the two ways it is printed. -/
inductive SizeText
  | decimal (n : ℕ) (lt : n < 2 ^ 63)
  | hex (h : HexText)

/-- The size as it is printed. -/
def SizeText.text : SizeText → List Char
  | decimal n _ => Stdio.decimal n
  | hex h => "0x".toList ++ h.digits

/-- The number. -/
def SizeText.value : SizeText → ℕ
  | decimal n _ => n
  | hex h => h.value

/-- A word that is skipped, with the gap in front of it. -/
structure SymField where
  /-- The spaces in front of the word. -/
  gap : ℕ
  /-- The word. -/
  word : List Char
  /-- It is one word of a line. -/
  isWord : IsWord word

/-- The field with the space that ends it. -/
def SymField.text (f : SymField) : List Char := blanks f.gap ++ f.word ++ [' ']

/-- A row of the table. -/
structure SymRow where
  /-- The spaces in front of the index. -/
  indent : ℕ
  /-- The index, with its colon. -/
  index : List Char
  /-- The address of the symbol. -/
  value : HexText
  /-- The spaces in front of the size. -/
  sizeGap : ℕ
  /-- The size. -/
  size : SizeText
  /-- The type, the binding, the visibility and the section. -/
  fields : List SymField
  /-- The name, up to the end of the line. -/
  name : List Char
  /-- The index is one word. -/
  index_notMem : ' ' ∉ index
  /-- It is inside of a line. -/
  index_isLine : IsLine index
  /-- Four fields are skipped. -/
  length_fields : fields.length = 4
  /-- The name is inside of a line. -/
  name_isLine : IsLine name

/-- The row as it is printed. -/
def SymRow.text (row : SymRow) : List Char :=
  blanks row.indent ++ (row.index ++ [':']) ++ ' ' :: (row.value.digits ++ ' ' ::
    (blanks row.sizeGap ++ row.size.text ++ ' ' :: (row.fields.flatMap SymField.text ++ row.name)))

/-- The entry the row is for. -/
def SymRow.entry (row : SymRow) : FunctionEntry :=
  ⟨row.name, BitVec.ofNat 64 row.value.value, BitVec.ofNat 64 row.size.value⟩

/-- What readelf prints: lines in front of the table, the line that mentions it, a heading, and the
rows. -/
structure SymTable where
  /-- The lines in front. -/
  before : List (List Char)
  /-- The line that mentions the table. -/
  mention : List Char
  /-- The line below it. -/
  heading : List Char
  /-- The rows. -/
  rows : List SymRow
  /-- No earlier line mentions it. -/
  before_notSymtab : ∀ l ∈ before, ¬symtab <:+: l
  /-- This one does. -/
  mention_symtab : symtab <:+: mention
  /-- These are lines. -/
  preamble_notMem : ∀ l ∈ before ++ [mention, heading], '\n' ∉ l
  /-- All lines fit into the buffer. -/
  fits : ∀ l ∈ before ++ [mention, heading] ++ rows.map SymRow.text, Fits symBufferSize l

/-- The lines in front of the rows. -/
def SymTable.preamble (table : SymTable) : List (List Char) :=
  table.before ++ [table.mention, table.heading]

/-- The lines of the file. -/
def SymTable.lines (table : SymTable) : List (List Char) :=
  table.preamble ++ table.rows.map SymRow.text

/-- The whole file. -/
def SymTable.text (table : SymTable) : List Char := joinLines table.lines

/-! ## Scanning a row -/

section Scan

variable {w rest : List Char}

private theorem skipSpaces_blanks (n : ℕ) (hw : ' ' ∉ w) (hne : w ≠ []) :
    skipSpaces (blanks n ++ w ++ rest) = w ++ rest := by
  obtain ⟨c, w, rfl⟩ := List.exists_cons_of_ne_nil hne
  have hc : c ≠ ' ' := fun hc ↦ hw (hc ▸ List.mem_cons_self)
  rw [skipSpaces, List.append_assoc, List.dropWhile_append_of_pos, List.cons_append,
    List.dropWhile_cons_of_neg (by simpa using hc)]
  intro d hd
  simpa using (List.mem_replicate.mp hd).2

private theorem skipField_blanks (n : ℕ) (hw : ' ' ∉ w) (hne : w ≠ []) :
    skipField (blanks n ++ w ++ ' ' :: rest) = .ok rest := by
  rw [skipField, skipSpaces_blanks n hw hne, strchr_append hw]

@[simp] theorem skipFields_flatMap (fields : List SymField) (rest : List Char) :
    skipFields fields.length (fields.flatMap SymField.text ++ rest) = .ok rest := by
  induction fields with
  | nil => rfl
  | cons f fields ih =>
    obtain ⟨hne, hw, -⟩ := f.isWord
    rw [List.length_cons, skipFields, List.flatMap_cons, SymField.text, List.append_assoc,
      List.append_assoc _ [' '], List.singleton_append, skipField_blanks f.gap hw hne]
    exact ih

theorem HexText.isAlphanum {h : HexText} {c : Char} (hc : c ∈ h.digits) : c.isAlphanum = true :=
  isAlphanum_of_digit? (h.isHex c hc)

theorem SizeText.isAlphanum {s : SizeText} {c : Char} (h : c ∈ s.text) : c.isAlphanum = true := by
  cases s with
  | decimal n hn =>
    rw [text, Stdio.decimal, if_neg (by omega)] at h
    exact isAlphanum_of_mem_toDigits (by decide) (by decide) h
  | hex x =>
    rcases List.mem_append.mp h with h | h
    · exact List.all_eq_true.mp (by decide : "0x".toList.all Char.isAlphanum = true) c h
    · exact x.isAlphanum h

theorem SizeText.text_ne_nil (s : SizeText) : s.text ≠ [] := by
  cases s with
  | decimal n hn =>
    rw [text, Stdio.decimal, if_neg (by omega)]
    exact Nat.toDigits_ne_nil
  | hex x => exact List.append_ne_nil_of_right_ne_nil _ x.ne_nil

private theorem HexText.strtoll_digits (h : HexText) : (strtoll 16 h.digits).1 = h.value := by
  have hlt := h.lt
  rw [strtoll_sixteen h.isHex h.ne_nil, HexText.value]
  dsimp only
  omega

@[simp] theorem SizeText.strtoll_text (s : SizeText) : (strtoll 0 s.text).1 = s.value := by
  cases s with
  | decimal n hn => rw [text, strtoll_decimal (by omega) (by omega), value]
  | hex x =>
    have hlt := x.lt
    have hread := strtoll_hex (t := []) x.isHex x.ne_nil rfl (Or.inl rfl)
    rw [List.append_nil] at hread
    rw [text, hread, value, HexText.value]
    dsimp only
    omega

private theorem SymRow.text_concat (row : SymRow) :
    row.text ++ ['\n']
      = blanks row.indent ++ (row.index ++ [':']) ++ ' ' :: (row.value.digits ++ ' ' ::
        (blanks row.sizeGap ++ row.size.text ++ ' ' ::
          (row.fields.flatMap SymField.text ++ (row.name ++ ['\n'])))) := by
  simp [SymRow.text]

/-- The scanner finds what was printed. -/
theorem parseSymLine_text (row : SymRow) :
    parseSymLine (row.text ++ ['\n']) = .ok (some row.entry) := by
  have hindex : ' ' ∉ row.index ++ [':'] := by
    rw [List.mem_append]
    rintro (h | h)
    · exact row.index_notMem h
    · exact absurd h (by decide)
  have hvalue : ' ' ∉ row.value.digits := fun h ↦ absurd (row.value.isAlphanum h) (by decide)
  have hsize : ' ' ∉ row.size.text := fun h ↦ absurd (row.size.isAlphanum h) (by decide)
  have hfields := skipFields_flatMap row.fields (row.name ++ ['\n'])
  rw [row.length_fields] at hfields
  rw [parseSymLine, row.text_concat, skipField_blanks row.indent hindex (by simp)]
  dsimp only
  rw [strchr_append hvalue]
  dsimp only
  rw [skipSpaces_blanks row.sizeGap hsize row.size.text_ne_nil, strchr_append hsize]
  dsimp only
  rw [hfields]
  dsimp only
  rw [strchr_append row.name_isLine.1, row.value.strtoll_digits, row.size.strtoll_text]
  simp only [SymRow.entry, BitVec.ofInt_natCast]

end Scan

/-! ## Lines -/

@[simp] theorem isLine_append {l m : List Char} : IsLine (l ++ m) ↔ IsLine l ∧ IsLine m := by
  simp only [IsLine, List.mem_append, not_or]
  tauto

@[simp] theorem isLine_cons {c : Char} {l : List Char} :
    IsLine (c :: l) ↔ (c ≠ '\n' ∧ c ≠ '\x00') ∧ IsLine l := by
  simp only [IsLine, List.mem_cons, not_or, ne_eq, eq_comm]
  tauto

private theorem isLine_blanks (n : ℕ) : IsLine (blanks n) := by
  constructor
  · intro h
    exact absurd (List.eq_of_mem_replicate h) (by decide)
  · intro h
    exact absurd (List.eq_of_mem_replicate h) (by decide)

private theorem isLine_of_isAlphanum {l : List Char} (h : ∀ c ∈ l, c.isAlphanum = true) :
    IsLine l := by
  constructor
  · intro hc
    exact absurd (h _ hc) (by decide)
  · intro hc
    exact absurd (h _ hc) (by decide)

private theorem isLine_flatMap_text (fields : List SymField) :
    IsLine (fields.flatMap SymField.text) := by
  induction fields with
  | nil => exact ⟨List.not_mem_nil, List.not_mem_nil⟩
  | cons f fields ih =>
    rw [List.flatMap_cons, SymField.text, isLine_append, isLine_append, isLine_append]
    exact ⟨⟨⟨isLine_blanks _, f.isWord.2.2⟩, by decide, by decide⟩, ih⟩

private theorem SymRow.isLine_text (row : SymRow) : IsLine row.text := by
  have hspace : ' ' ≠ '\n' ∧ ' ' ≠ '\x00' := by decide
  have hcolon : IsLine [':'] := ⟨by decide, by decide⟩
  have hvalue := isLine_of_isAlphanum fun c ↦ row.value.isAlphanum (c := c)
  have hsize := isLine_of_isAlphanum fun c ↦ row.size.isAlphanum (c := c)
  simp only [SymRow.text, isLine_append, isLine_cons, and_iff_right hspace, isLine_blanks,
    row.index_isLine, hcolon, hvalue, hsize, isLine_flatMap_text, row.name_isLine, and_self]

/-- The newline is no part of the mark, so it is in the line with or without it. -/
theorem symtab_infix_concat {l : List Char} : symtab <:+: l ++ ['\n'] ↔ symtab <:+: l := by
  rw [List.infix_concat_iff]
  refine or_iff_right fun h ↦ ?_
  obtain ⟨t, ht⟩ := h
  have hlast := congrArg List.getLast? ht
  have hmark : symtab = ['.', 's', 'y', 'm', 't', 'a'] ++ ['b'] := by decide
  rw [hmark, ← List.append_assoc, List.getLast?_concat, List.getLast?_concat] at hlast
  exact absurd hlast (by decide)

/-! ## The whole file -/

private theorem readSymLoop_lines_before {before : List (List Char)}
    (h : ∀ l ∈ before, '\x00' ∉ l ∧ ¬symtab <:+: l) (pieces : List (List Char)) :
    readSymLoop 0 (before.map (· ++ ['\n']) ++ pieces) = readSymLoop 0 pieces := by
  induction before with
  | nil => rfl
  | cons l before ih =>
    obtain ⟨⟨hl, hsym⟩, h⟩ := List.forall_mem_cons.mp h
    rw [List.map_cons, List.cons_append, readSymLoop_before (readSymLine_concat hl)
      (mt symtab_infix_concat.mp hsym), ih h]

section Table

variable (table : SymTable)

theorem SymTable.fgetsAll_text :
    fgetsAll symBufferSize table.text = table.lines.map (· ++ ['\n']) := by
  refine fgetsAll_joinLines fun l hl ↦ ⟨?_, table.fits l hl⟩
  rcases List.mem_append.mp hl with hl | hl
  · exact table.preamble_notMem l hl
  · obtain ⟨row, -, rfl⟩ := List.mem_map.mp hl
    exact row.isLine_text.1

private theorem SymTable.readSymLoop_preamble (hnul : ∀ l ∈ table.preamble, '\x00' ∉ l)
    (pieces : List (List Char)) :
    readSymLoop 0 (table.preamble.map (· ++ ['\n']) ++ pieces) = readSymLoop 2 pieces := by
  obtain ⟨hbefore, hlast⟩ := List.forall_mem_append.mp hnul
  obtain ⟨hmention, hheading, -⟩ :
      '\x00' ∉ table.mention ∧ '\x00' ∉ table.heading ∧ True := by simpa using hlast
  rw [preamble, List.map_append, List.append_assoc,
    readSymLoop_lines_before fun l hl ↦ ⟨hbefore l hl, table.before_notSymtab l hl⟩]
  rw [List.map_cons, List.cons_append, readSymLoop_heading (readSymLine_concat hmention)
    (fun _ ↦ symtab_infix_concat.mpr table.mention_symtab) (by decide)]
  rw [List.map_singleton, List.singleton_append, readSymLoop_heading (readSymLine_concat hheading)
    (fun h ↦ absurd h (by decide)) (by decide)]

end Table

section Rows

variable {firstOcc : ℕ}

theorem readSymLoop_rows (rows : List SymRow) (hfirst : 2 ≤ firstOcc)
    (hlt : firstOcc + rows.length < 2 ^ 31) :
    readSymLoop firstOcc (rows.map (·.text ++ ['\n'])) = ⟨rows.map SymRow.entry, .ok true⟩ := by
  induction rows generalizing firstOcc with
  | nil => rfl
  | cons row rows ih =>
    rw [List.length_cons] at hlt
    rw [List.map_cons, readSymLoop_row (readSymLine_concat row.isLine_text.2) hfirst (by omega),
      parseSymLine_text]
    dsimp only
    rw [ih (by omega) (by omega), List.map_cons]

private theorem readSymLoop_rows_overflow (rows : List SymRow) (hfirst : 2 ≤ firstOcc)
    (hle : firstOcc < 2 ^ 31) (hlength : 2 ^ 31 ≤ firstOcc + rows.length) :
    (readSymLoop firstOcc (rows.map (·.text ++ ['\n']))).result = .error .overflow := by
  induction rows generalizing firstOcc with
  | nil => exact absurd hlength (by simpa using hle)
  | cons row rows ih =>
    rw [List.length_cons] at hlength
    have hline := readSymLine_concat row.isLine_text.2
    rw [List.map_cons]
    by_cases hlast : 2 ^ 31 - 1 ≤ firstOcc
    · rw [readSymLoop_overflow hline hlast]
    · rw [readSymLoop_row hline hfirst (by omega), parseSymLine_text]
      exact ih (by omega) (by omega) (by omega)

end Rows

/-- The file is read back: true is returned, and one entry for each row is appended, in order. -/
def ReadsRows (table : SymTable) : Prop :=
  ∀ functions, readSymFile (some table.text) functions
    = ⟨functions ++ table.rows.map SymRow.entry, .ok true⟩

theorem ReadsRows.result {table : SymTable} (h : ReadsRows table) :
    (readSymLoop 0 (table.lines.map (· ++ ['\n']))).result = .ok true := by
  rw [← table.fgetsAll_text]
  exact congrArg SymOutcome.result (h [])

/-- A terminator in front of the rows makes the run stop there. -/
theorem ReadsRows.notMem {table : SymTable} (h : ReadsRows table) :
    ∀ l ∈ table.preamble, '\x00' ∉ l := by
  intro l hl hnul
  obtain ⟨fault, hfault⟩ := readSymLine_concat_of_mem (table.preamble_notMem l hl) hnul
  obtain ⟨line, hline⟩ := readSymLine_of_result h.result (l ++ ['\n'])
    (List.mem_map_of_mem (List.mem_append_left _ hl))
  exact absurd (hfault.symm.trans hline) (by simp)

private theorem SymTable.readSymLoop_lines (table : SymTable)
    (hnul : ∀ l ∈ table.preamble, '\x00' ∉ l) :
    readSymLoop 0 (table.lines.map (· ++ ['\n']))
      = readSymLoop 2 (table.rows.map (·.text ++ ['\n'])) := by
  rw [lines, List.map_append, table.readSymLoop_preamble hnul, List.map_map]
  rfl

theorem ReadsRows.length_lt {table : SymTable} (h : ReadsRows table) :
    table.rows.length + 2 < 2 ^ 31 := by
  by_contra hlength
  have hresult := h.result
  rw [table.readSymLoop_lines h.notMem, readSymLoop_rows_overflow table.rows le_rfl (by decide)
    (by omega)] at hresult
  exact absurd hresult (by simp)

theorem SymTable.readSymFile_text {table : SymTable} (hnul : ∀ l ∈ table.preamble, '\x00' ∉ l)
    (hlength : table.rows.length + 2 < 2 ^ 31) (functions : List FunctionEntry) :
    readSymFile (some table.text) functions
      = ⟨functions ++ table.rows.map SymRow.entry, .ok true⟩ := by
  rw [readSymFile, table.fgetsAll_text, table.readSymLoop_lines hnul,
    readSymLoop_rows table.rows le_rfl (by omega)]

/-- The symbols are read back exactly when no line in front of the rows has a terminator in it and
the counter of lines does not overflow. -/
theorem readsRows_iff (table : SymTable) :
    ReadsRows table
      ↔ (∀ l ∈ table.preamble, '\x00' ∉ l) ∧ table.rows.length + 2 < 2 ^ 31 := by
  constructor
  · intro h
    exact ⟨h.notMem, h.length_lt⟩
  · rintro ⟨hnul, hlength⟩
    exact SymTable.readSymFile_text hnul hlength

/-- `     1: 0000000000000010     0x64 FUNC GLOBAL DEFAULT 1 main`. -/
def mainRow : SymRow where
  indent := 5
  index := "1".toList
  value := ⟨"0000000000000010".toList, by decide, List.all_eq_true.mp (by decide), by decide⟩
  sizeGap := 4
  size := .hex ⟨"64".toList, by decide, List.all_eq_true.mp (by decide), by decide⟩
  fields := [⟨0, "FUNC".toList, by decide⟩, ⟨0, "GLOBAL".toList, by decide⟩,
    ⟨0, "DEFAULT".toList, by decide⟩, ⟨0, "1".toList, by decide⟩]
  name := "main".toList
  index_notMem := by decide
  index_isLine := by decide
  length_fields := rfl
  name_isLine := by decide

/-- A table with given rows. -/
def tableOf (rows : List SymRow) (hrows : ∀ row ∈ rows, Fits symBufferSize row.text) :
    SymTable where
  before := ["".toList]
  mention := "Symbol table '.symtab' contains 65 entries:".toList
  heading := "   Num:    Value          Size Type    Bind   Vis      Ndx Name".toList
  rows := rows
  before_notSymtab := by decide
  mention_symtab := by decide
  preamble_notMem := by decide
  fits := by
    rw [List.forall_mem_append]
    refine ⟨by decide, fun l hl ↦ ?_⟩
    obtain ⟨row, hrow, rfl⟩ := List.mem_map.mp hl
    exact hrows row hrow

/-- One row is printed many times. -/
def mainTable (n : ℕ) : SymTable :=
  tableOf (List.replicate n mainRow) fun row hrow ↦ by
    rw [List.eq_of_mem_replicate hrow]
    decide

@[simp] theorem length_rows_mainTable (n : ℕ) :
    (mainTable n).rows.length = n := List.length_replicate

/-- With more rows than an `int` can count. -/
theorem not_readsRows_manyRows : ¬ReadsRows (mainTable (2 ^ 31)) := by
  intro h
  have hlength := h.length_lt
  rw [length_rows_mainTable] at hlength
  omega

end Racez
