import Racez.Convert.Basic

/-!
# Reading the symbol table

`ReadSymFile` reads what readelf prints. Everything up to the line that mentions `.symtab`, that
line and the line behind it are passed over. Every later line is taken for a row of the table, and
is scanned from the left: index, value, size, four fields, and the name up to the end of the line.

## Representation

`fgets` is called until it fails, so the loop runs over the pieces that it takes. The end-of-file
indicator is set by a call that neither a newline nor the end of the buffer has stopped, and nothing
is left of the file then; the test at the beginning of `ReadSymLine` only spares a call that would
fail. A pointer into the buffer is the text from there on.

`strchr` is called eight times for a row. The results for the value, the size and the name are
tested. The other five are used as they are, and where there is no further space the run has no
meaning from there on.

## What every run keeps

Whatever the file holds, a name that is read is a part of its line, and has no terminator in it
(`notMem_of_mem_readSymFile`). A run that returns true has read every line
(`readSymLine_of_result`). Both go by the loop: a line in front of the table is passed over, so are
the line that mentions the table and the one behind it, and every later line is up to what is found
in it.
-/

namespace Racez

open Stdio

/-- Ways reading the symbols can go wrong. -/
inductive SymFault
  | assertion
  /-- The buffer is read in front of its first character. -/
  | outOfBounds
  /-- A null pointer that `strchr` has returned is used. -/
  | nullPointer
  | overflow
  deriving DecidableEq

/-! ## Lines -/

/-- `SIZE`. -/
def symBufferSize : ℕ := 10000

/-- `ReadSymLine`, on what `fgets` has taken: the line in the buffer. -/
def readSymLine (piece : List Char) : Except SymFault (List Char) :=
  match (cString piece).getLast? with
  | none => .error .outOfBounds
  | some c =>
    -- the end has been seen if neither a newline nor the room stopped the call
    if c ≠ '\n' ∧ ¬(piece.getLast? ≠ some '\n' ∧ piece.length < symBufferSize - 1) then
      .error .assertion
    else .ok (cString piece)

/-! ## Rows -/

/-- `while (*ptr == ' ') ptr++`. -/
def skipSpaces (ptr : List Char) : List Char := ptr.dropWhile (· = ' ')

/-- Spaces, a word, and the pointer behind the space that `strchr` finds; it is not tested. -/
def skipField (ptr : List Char) : Except SymFault (List Char) :=
  match strchr ' ' (skipSpaces ptr) with
  | none => .error .nullPointer
  | some (_, ptr) => .ok ptr

/-- The loop that skips fields. -/
def skipFields : ℕ → List Char → Except SymFault (List Char)
  | 0, ptr => .ok ptr
  | n + 1, ptr =>
    match skipField ptr with
    | .error fault => .error fault
    | .ok ptr => skipFields n ptr

/-- The entry of a row. There is none if control goes to `parse_error`. -/
def parseSymLine (buffer : List Char) : Except SymFault (Option FunctionEntry) :=
  match skipField buffer with
  | .error fault => .error fault
  | .ok ptr =>
    match strchr ' ' ptr with
    | none => .ok none
    | some (offset, ptr) =>
      match strchr ' ' (skipSpaces ptr) with
      | none => .ok none
      | some (size, ptr) =>
        match skipFields 4 ptr with
        | .error fault => .error fault
        | .ok ptr =>
          match strchr '\n' ptr with
          | none => .ok none
          | some (func, _) => .ok (some
              ⟨func, BitVec.ofInt 64 (strtoll 16 offset).1, BitVec.ofInt 64 (strtoll 0 size).1⟩)

/-! ## The file -/

/-- What marks the beginning of the table. -/
def symtab : List Char := ".symtab".toList

/-- The entries after a run, and the value returned or why there is none. -/
structure SymOutcome where
  /-- The entries that have been read. -/
  functions : List FunctionEntry
  /-- What `ReadSymFile` returns, unless it comes to a halt. -/
  result : Except SymFault Bool
  deriving DecidableEq

/-- The loop of `ReadSymFile`: the entries it appends, and how it ends. -/
def readSymLoop : ℕ → List (List Char) → SymOutcome
  | _, [] => ⟨[], .ok true⟩
  | firstOcc, piece :: pieces =>
    match readSymLine piece with
    | .error fault => ⟨[], .error fault⟩
    | .ok line =>
      if ¬symtab <:+: line ∧ firstOcc = 0 then readSymLoop firstOcc pieces
      -- `first_occ += 1` on an `int`
      else if 2 ^ 31 - 1 ≤ firstOcc then ⟨[], .error .overflow⟩
      else if firstOcc + 1 ≤ 2 then readSymLoop (firstOcc + 1) pieces
      else
        match parseSymLine line with
        | .error fault => ⟨[], .error fault⟩
        | .ok none => ⟨[], .ok false⟩
        | .ok (some function) =>
          let rest := readSymLoop (firstOcc + 1) pieces
          ⟨function :: rest.functions, rest.result⟩

/-- `ReadSymFile`, on a file with a given text if it can be opened. -/
def readSymFile (symFile : Option (List Char)) (functions : List FunctionEntry) : SymOutcome :=
  match symFile with
  | none => ⟨functions, .ok false⟩
  | some text =>
    let read := readSymLoop 0 (fgetsAll symBufferSize text)
    ⟨functions ++ read.functions, read.result⟩

/-! ## One line -/

section Lines

variable {l : List Char}

theorem readSymLine_concat (h : '\x00' ∉ l) : readSymLine (l ++ ['\n']) = .ok (l ++ ['\n']) := by
  rw [readSymLine, cString_concat h, List.getLast?_concat]
  simp

/-- A terminator in front of the newline hides it. -/
theorem readSymLine_concat_of_mem (hl : '\n' ∉ l) (h : '\x00' ∈ l) :
    ∃ fault, readSymLine (l ++ ['\n']) = .error fault := by
  have hcut : cString (l ++ ['\n']) = cString l := by
    rw [cString, List.takeWhile_append, if_neg, ← cString]
    intro hlength
    have hself : cString l = l := (List.takeWhile_prefix _).eq_of_length hlength
    exact notMem_cString l (hself.symm ▸ h)
  rw [readSymLine, hcut]
  cases hlast : (cString l).getLast? with
  | none => exact ⟨_, rfl⟩
  | some c =>
    have hc : c ≠ '\n' := by
      rintro rfl
      exact hl ((List.takeWhile_sublist _).subset (List.mem_of_getLast? hlast))
    dsimp only
    rw [if_pos ⟨hc, by simp⟩]
    exact ⟨_, rfl⟩

end Lines

section Loop

variable {firstOcc : ℕ} {piece line : List Char} {pieces : List (List Char)}

theorem readSymLoop_of_error {fault : SymFault} (h : readSymLine piece = .error fault) :
    readSymLoop firstOcc (piece :: pieces) = ⟨[], .error fault⟩ := by
  rw [readSymLoop, h]

variable (h : readSymLine piece = .ok line)
include h

theorem readSymLoop_before (hline : ¬symtab <:+: line) :
    readSymLoop 0 (piece :: pieces) = readSymLoop 0 pieces := by
  rw [readSymLoop, h]
  dsimp only
  rw [if_pos ⟨hline, rfl⟩]

theorem readSymLoop_heading (hline : firstOcc = 0 → symtab <:+: line) (hfirst : firstOcc < 2) :
    readSymLoop firstOcc (piece :: pieces) = readSymLoop (firstOcc + 1) pieces := by
  rw [readSymLoop, h]
  dsimp only
  rw [if_neg fun hskip ↦ hskip.1 (hline hskip.2), if_neg (by omega), if_pos (by omega)]

theorem readSymLoop_overflow (hfirst : 2 ^ 31 - 1 ≤ firstOcc) :
    readSymLoop firstOcc (piece :: pieces) = ⟨[], .error .overflow⟩ := by
  rw [readSymLoop, h]
  dsimp only
  rw [if_neg fun hskip ↦ absurd hskip.2 (by omega), if_pos hfirst]

/-- From the third line on, what becomes of a line is up to what is found in it. -/
theorem readSymLoop_row (hfirst : 2 ≤ firstOcc) (hlt : firstOcc < 2 ^ 31 - 1) :
    readSymLoop firstOcc (piece :: pieces)
      = match parseSymLine line with
        | .error fault => ⟨[], .error fault⟩
        | .ok none => ⟨[], .ok false⟩
        | .ok (some function) => ⟨function :: (readSymLoop (firstOcc + 1) pieces).functions,
            (readSymLoop (firstOcc + 1) pieces).result⟩ := by
  rw [readSymLoop, h]
  dsimp only
  rw [if_neg fun hskip ↦ absurd hskip.2 (by omega), if_neg (by omega), if_neg (by omega)]

end Loop

/-! ## Names -/

private theorem mem_of_skipField {l t : List Char} {c : Char} (h : skipField l = .ok t)
    (hc : c ∈ t) : c ∈ l := by
  rw [skipField] at h
  split at h
  · exact absurd h (by simp)
  · next w t' hchr =>
    obtain rfl := Except.ok.inj h
    refine (List.dropWhile_suffix fun c ↦ decide (c = ' ')).subset ?_
    rw [← skipSpaces, (eq_append_of_strchr hchr).1]
    simp [hc]

private theorem mem_of_skipFields {n : ℕ} {l t : List Char} {c : Char} (h : skipFields n l = .ok t)
    (hc : c ∈ t) : c ∈ l := by
  induction n generalizing l with
  | zero =>
    obtain rfl : l = t := Except.ok.inj h
    exact hc
  | succ n ih =>
    rw [skipFields] at h
    split at h
    · exact absurd h (by simp)
    · next l' hskip => exact mem_of_skipField hskip (ih h)

private theorem mem_of_parseSymLine {line : List Char} {function : FunctionEntry} {c : Char}
    (h : parseSymLine line = .ok (some function)) (hc : c ∈ function.functionName) : c ∈ line := by
  rw [parseSymLine] at h
  split at h
  · exact absurd h (by simp)
  next ptr hindex =>
  split at h
  · exact absurd h (by simp)
  next offset ptr₁ hoffset =>
  split at h
  · exact absurd h (by simp)
  next size ptr₂ hsize =>
  split at h
  · exact absurd h (by simp)
  next ptr₃ hfields =>
  split at h
  · exact absurd h (by simp)
  next func ptr₄ hfunc =>
  obtain rfl := Option.some.inj (Except.ok.inj h)
  have h₃ : c ∈ ptr₃ := by
    rw [(eq_append_of_strchr hfunc).1]
    exact List.mem_append_left _ hc
  have h₂ : c ∈ ptr₁ := by
    refine (List.dropWhile_suffix fun c ↦ decide (c = ' ')).subset ?_
    rw [← skipSpaces, (eq_append_of_strchr hsize).1]
    simp [mem_of_skipFields hfields h₃]
  refine mem_of_skipField hindex ?_
  rw [(eq_append_of_strchr hoffset).1]
  simp [h₂]

private theorem notMem_of_readSymLine {piece line : List Char} (h : readSymLine piece = .ok line) :
    '\x00' ∉ line := by
  rw [readSymLine] at h
  split at h
  · exact absurd h (by simp)
  · split_ifs at h
    obtain rfl := Except.ok.inj h
    exact notMem_cString piece

private theorem notMem_of_mem_readSymLoop {firstOcc : ℕ} {pieces : List (List Char)}
    {function : FunctionEntry} (h : function ∈ (readSymLoop firstOcc pieces).functions) :
    '\x00' ∉ function.functionName := by
  fun_induction readSymLoop firstOcc pieces with
  | case3 firstOcc p ps line hp _ ih => exact ih h
  | case5 firstOcc p ps line hp _ _ _ ih => exact ih h
  | case8 firstOcc p ps line hp _ _ _ f hparse rest ih =>
    rcases List.mem_cons.mp h with rfl | h
    · exact fun hc ↦ notMem_of_readSymLine hp (mem_of_parseSymLine hparse hc)
    · exact ih h
  | _ => exact absurd h (by simp)

theorem notMem_of_mem_readSymFile {symFile : Option (List Char)} {function : FunctionEntry}
    (h : function ∈ (readSymFile symFile []).functions) : '\x00' ∉ function.functionName := by
  cases symFile with
  | none => exact absurd h List.not_mem_nil
  | some text => exact notMem_of_mem_readSymLoop h

/-- A run that returns true has read every line. -/
theorem readSymLine_of_result {firstOcc : ℕ} {pieces : List (List Char)}
    (h : (readSymLoop firstOcc pieces).result = .ok true) :
    ∀ p ∈ pieces, ∃ line, readSymLine p = .ok line := by
  fun_induction readSymLoop firstOcc pieces with
  | case1 => simp
  | case2 => exact absurd h (by simp)
  | case3 firstOcc p ps line hp _ ih => exact List.forall_mem_cons.mpr ⟨⟨line, hp⟩, ih h⟩
  | case4 => exact absurd h (by simp)
  | case5 firstOcc p ps line hp _ _ _ ih => exact List.forall_mem_cons.mpr ⟨⟨line, hp⟩, ih h⟩
  | case6 => exact absurd h (by simp)
  | case7 => exact absurd h (by simp)
  | case8 firstOcc p ps line hp _ _ _ function _ rest ih =>
    exact List.forall_mem_cons.mpr ⟨⟨line, hp⟩, ih h⟩

end Racez
