import Racez.Stdio.Lines
import Racez.Stdio.Numerals

/-!
# Reading the profile

For each function the pass reads the whole profile and keeps the samples that belong to the function
and to the source file at hand. `ReadLine` gets the next line into a buffer that grows. `Read` takes
the line apart at tabs, colon and newline.

## Representation

The buffer is the C string it holds. A buffer that has to grow is reallocated, but the pointer into
it stays what it was; whether it still points into the buffer is up to the allocator, `inPlace`. The
lines do not depend on what is made of them, so they are read first, as far as they can be.

## Two loops

`readLineLoop` is the loop of `ReadLine`. It calls `fgets` for the room that is left, and if neither
a newline nor the end of the file stopped the call it makes the buffer larger by `BUFSIZ` and goes
on. `readLines` calls `readLine` until there is nothing left. `readSamples` then goes through the
lines: a line of another function or file is passed over, and one in which a separator is missing
ends the run, with the samples found before it kept. A location without a tab behind it is worse,
since the search for the tab then goes on behind the buffer.
-/

namespace Racez

open Stdio

/-- `RacezInstructionSample`. -/
structure RacezInstructionSample where
  /-- The source file. -/
  file : List Char
  /-- The index of the record in the log. -/
  index : ℤ
  /-- The distance from the start of the function. -/
  offset : ℤ
  /-- The number of samples. -/
  value : ℤ
  deriving DecidableEq

/-! ## Lines -/

/-- Ways the reader can leave its buffer. -/
inductive ReadFault
  | outOfBounds
  /-- The buffer has moved away from the pointer. -/
  | dangling
  deriving DecidableEq

/-- `BUFSIZ`. -/
def kBufferSizeIncrement : ℕ := 8192

/-- What is left of the file, its end-of-file indicator, and the size of the buffer. -/
structure ProfileReader where
  /-- What has not been read yet. -/
  rest : List Char
  /-- The end-of-file indicator. -/
  eof : Bool
  /-- The size of the buffer. -/
  bufferSize : ℕ
  deriving DecidableEq

section Lines

variable (inPlace : ℕ → Bool)

/-- The loop of `ReadLine`, with `amt` bytes from the pointer on and the text already before it. -/
def readLineLoop (bufferSize amt : ℕ) (buffer rest : List Char) :
    Except ReadFault (Option (List Char × ProfileReader)) :=
  if _ : rest ≠ [] ∧ 2 ≤ amt then
    let piece := (fgets (amt - 1) rest).1
    let left := (fgets (amt - 1) rest).2
    -- the end has been seen if neither a newline nor the room stopped the call
    let eof := piece.getLast? ≠ some '\n' ∧ piece.length < amt - 1
    match (buffer ++ cString piece).getLast? with
    | none => .error .outOfBounds
    | some c =>
      if c ≠ '\n' ∧ ¬eof then
        if inPlace (bufferSize + kBufferSizeIncrement) then
          readLineLoop (bufferSize + kBufferSizeIncrement)
            (amt + kBufferSizeIncrement - (cString piece).length) (buffer ++ cString piece) left
        else .error .dangling
      else .ok (some (buffer ++ cString piece, ⟨left, eof, bufferSize⟩))
  else .ok none
termination_by rest.length
decreasing_by
  have hrest : rest ≠ [] ∧ 2 ≤ amt := by assumption
  exact length_fgets_snd_lt hrest.1 (by omega)

/-- `ReadLine`. -/
def readLine (reader : ProfileReader) : Except ReadFault (Option (List Char × ProfileReader)) :=
  if reader.eof then .ok none
  else readLineLoop inPlace reader.bufferSize reader.bufferSize [] reader.rest

variable {inPlace}

private theorem length_rest_lt_of_readLineLoop {bufferSize amt : ℕ} {buffer rest line : List Char}
    {reader : ProfileReader}
    (h : readLineLoop inPlace bufferSize amt buffer rest = .ok (some (line, reader))) :
    reader.rest.length < rest.length := by
  fun_induction readLineLoop inPlace bufferSize amt buffer rest with
  | case1 => exact absurd h (by simp)
  | case2 bufferSize amt buffer rest hrest piece left eof c hc hgrow hplace ih =>
    exact (ih h).trans (length_fgets_snd_lt hrest.1 (by omega))
  | case3 => exact absurd h (by simp)
  | case4 bufferSize amt buffer rest hrest =>
    obtain ⟨-, rfl⟩ := Prod.mk.inj (Option.some.inj (Except.ok.inj h))
    exact length_fgets_snd_lt hrest.1 (by omega)
  | case5 => exact absurd h (by simp)

private theorem length_rest_lt_of_readLine {line : List Char} {reader reader' : ProfileReader}
    (h : readLine inPlace reader = .ok (some (line, reader'))) :
    reader'.rest.length < reader.rest.length := by
  rw [readLine] at h
  split at h
  · exact absurd h (by simp)
  · exact length_rest_lt_of_readLineLoop h

variable (inPlace)

/-- The lines that the calls of `ReadLine` yield, and the fault that ends them if there is one. -/
def readLines (reader : ProfileReader) : List (List Char) × Option ReadFault :=
  match _ : readLine inPlace reader with
  | .error fault => ([], some fault)
  | .ok none => ([], none)
  | .ok (some (line, reader')) => (line :: (readLines reader').1, (readLines reader').2)
termination_by reader.rest.length
decreasing_by
  all_goals exact length_rest_lt_of_readLine (by assumption)

variable {inPlace} {reader reader' : ProfileReader} {line : List Char}

theorem readLines_of_line (h : readLine inPlace reader = .ok (some (line, reader'))) :
    readLines inPlace reader
      = (line :: (readLines inPlace reader').1, (readLines inPlace reader').2) := by
  rw [readLines]
  split
  · next h' => exact absurd (h.symm.trans h') (by simp)
  · next h' => exact absurd (h.symm.trans h') (by simp)
  · next h' =>
    cases h.symm.trans h'
    rfl

theorem readLines_of_none (h : readLine inPlace reader = .ok none) :
    readLines inPlace reader = ([], none) := by
  rw [readLines]
  split
  · next h' => exact absurd (h.symm.trans h') (by simp)
  · rfl
  · next h' => exact absurd (h.symm.trans h') (by simp)

end Lines

/-! ## Samples -/

/-- What becomes of a line. -/
inductive ParsedLine
  | parseError
  /-- Another file or function. -/
  | skip
  | sample (s : RacezInstructionSample)
  /-- There is no tab behind the location, and the search for it leaves the buffer. -/
  | outOfBounds
  deriving DecidableEq

/-- One turn of the loop of `Read`. -/
def parseLine (functionName currentSourceFile buffer : List Char) : ParsedLine :=
  match strchr '\t' buffer with
  | none => .parseError
  | some (indexText, afterIndex) =>
    let (index, endptr) := strtoll 0 indexText
    if endptr ≠ [] then .parseError
    else
      match strchr ':' afterIndex with
      | none => .parseError
      | some (file, afterFile) =>
        if file ≠ currentSourceFile then .skip
        else
          match strchr '\t' afterFile with
          | none => .outOfBounds
          | some (_, afterLocation) =>
            match strchr '\t' afterLocation with
            | none => .parseError
            | some (func, afterFunc) =>
              match strchr '\n' afterFunc with
              | none => .parseError
              | some (offsetText, _) =>
                let (offset, endptr) := strtoll 0 offsetText
                if endptr ≠ [] then .parseError
                else if func ≠ functionName then .skip
                else .sample ⟨file, index, offset, 0⟩

/-- The loop of `Read` over the lines: the value returned, and the samples by then. -/
def readSamples (functionName currentSourceFile : List Char) (fault : Option ReadFault) :
    List (List Char) → List RacezInstructionSample →
      Except ReadFault (Bool × List RacezInstructionSample)
  | [], samples => fault.elim (.ok (true, samples)) .error
  | line :: lines, samples =>
    match parseLine functionName currentSourceFile line with
    | .parseError => .ok (false, samples)
    | .skip => readSamples functionName currentSourceFile fault lines samples
    | .sample s => readSamples functionName currentSourceFile fault lines (samples ++ [s])
    | .outOfBounds => .error .outOfBounds

/-- `Read`, on a file with a given text if it can be opened. -/
def read (inPlace : ℕ → Bool) (functionName currentSourceFile : List Char)
    (dataFile : Option (List Char)) (samples : List RacezInstructionSample) :
    Except ReadFault (Bool × List RacezInstructionSample) :=
  match dataFile with
  | none => .ok (false, samples)
  | some text =>
    let lines := readLines inPlace ⟨text, false, kBufferSizeIncrement⟩
    readSamples functionName currentSourceFile lines.2 lines.1 samples

end Racez
