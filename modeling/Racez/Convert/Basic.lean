import Racez.Container.SortedVector
import Racez.Record.Basic
import Racez.Stdio.Lines
import Racez.Stdio.Numerals

/-!
# The profile of a raw file

`convert` turns the records of a run into a text profile in four steps. `ReadRawFile` writes one
line for each record, with the instruction address or the word `invalid`. `ConvertIP` looks each
address up in the symbol table and writes a line with a name and an offset. addr2line writes a line
with a source location. `Combine` puts the last two side by side; the position of a pair among the
pairs is the position of the record in the raw file.

## Representation

A text file is a list of characters, and a loop over `fgets` runs over the list of pieces that it
takes. Where the program reads outside of an array or a signed counter overflows, the run has no
meaning from there on; it stops there as it does at an assertion that fails. What had been printed
before stands.

The steps are functions here, and the program is their composition `convert`. addr2line is not part
of the repository; what it prints is an argument.
-/

namespace Racez

open SortedVector Stdio

/-! ## Faults -/

/-- Ways a run can stop. -/
inductive ConvertFault
  | assertion
  | outOfBounds
  | overflow
  deriving DecidableEq

/-- `assert(buffer[strlen(buffer) - 1] == '\n')`, if it fails. -/
def assertNewline (buffer : List Char) : Option ConvertFault :=
  match (cString buffer).getLast? with
  | none => some .outOfBounds
  | some c => if c = '\n' then none else some .assertion

/-! ## Raw records -/

/-- `WriteRawRecord`. -/
def writeRawRecord (record : Record) : List Char :=
  match record.type with
  | .memoryOp => "0x".toList ++ hex8 record.memoryAccess.pip.toNat ++ ['\n']
  | _ => "invalid\n".toList

/-- `ReadRawFile`. -/
def readRawFile (records : List Record) : List Char := records.flatMap writeRawRecord

/-! ## Symbols -/

/-- `RacezFunctionEntry`. -/
structure FunctionEntry where
  /-- The name of the symbol. -/
  functionName : List Char
  /-- Its address. -/
  offset : BitVec 64
  /-- The size of the function. -/
  size : BitVec 64
  deriving DecidableEq

/-- The order of entries. -/
def MyCompare (entry1 entry2 : FunctionEntry) : Prop := entry1.offset.toNat < entry2.offset.toNat

instance : DecidableRel MyCompare := fun _ _ ↦ inferInstanceAs (Decidable (_ < _))

/-- A merge sort by offset is one way to sort. -/
def mergeSorting : Sorting MyCompare where
  sort l := l.mergeSort fun a b ↦ a.offset.toNat ≤ b.offset.toNat
  perm l := List.mergeSort_perm l _
  pairwise l := (pairwise_mergeSort_key (fun f ↦ f.offset.toNat) l).imp fun h ↦ not_lt.mpr h

/-- The entry `low` points to at the end of a turn of `ConvertIP`: the one found if its offset is
the one looked for, else the one before it. There may be none. -/
def lowEntry (functions : List FunctionEntry) (offset : BitVec 64) : Option FunctionEntry :=
  let low := lowerBound MyCompare functions ⟨"random".toList, offset, 0⟩
  if functions[low]?.map (·.offset) = some offset then functions[low]?
  else if low = 0 then none
  else functions[low - 1]?

/-- What `ConvertIP` prints for an address. -/
def symbolLine (functions : List FunctionEntry) (offset : BitVec 64) :
    Except ConvertFault (List Char) :=
  match lowEntry functions offset with
  | none => .error .outOfBounds
  | some low =>
    .ok (cString low.functionName ++ '\t' :: decimal (offset - low.offset).toInt ++ ['\n'])

/-- One turn of the loop of `ConvertIP`: what it prints for a line. -/
def convertLine (strcmp : Strcmp) (functions : List FunctionEntry) (buffer : List Char) :
    Except ConvertFault (List Char) :=
  if strcmp.compare buffer "invalid".toList = 1 then .ok "invalid\n".toList
  else
    match assertNewline buffer with
    | some fault => .error fault
    | none => symbolLine functions (BitVec.ofInt 64 (strtoll 16 (cString buffer)).1)

/-- `ConvertIP`. -/
def convertIP (strcmp : Strcmp) (sorting : Sorting MyCompare) (functions : List FunctionEntry)
    (rawOutput : List Char) : Except ConvertFault (List Char) :=
  ((fgetsAll 100 rawOutput).mapM (convertLine strcmp (sorting.sort functions))).map List.flatten

/-! ## The final output -/

/-- What one `fprintf` of `Combine` is given. -/
structure ProfileLine where
  /-- The value of `count` less one. -/
  index : ℕ
  /-- What is left of the line of addr2line. -/
  location : List Char
  /-- What is left of the line of `ConvertIP`. -/
  function : List Char
  deriving DecidableEq

/-- `"%d\t%s\t%s\n"`. -/
def ProfileLine.print (line : ProfileLine) : List Char :=
  decimal line.index ++ '\t' :: line.location ++ '\t' :: line.function ++ ['\n']

/-- The lines written, and why the run stopped if it did before the end. -/
structure Combined where
  /-- The lines, in order. -/
  written : List ProfileLine
  /-- How `Combine` came to a halt, if it did. -/
  fault : Option ConvertFault
  deriving DecidableEq

/-- The final output file. -/
def Combined.text (c : Combined) : List Char := c.written.flatMap ProfileLine.print

/-- `strncmp(filename_buffer, "??:0", 4) == 0`. -/
def IsUnknown (filename : List Char) : Prop := (cString filename).take 4 = "??:0".toList

instance : DecidablePred IsUnknown := fun _ ↦ inferInstanceAs (Decidable (_ = _))

/-- Whether a turn of `Combine` goes to `continue`. -/
def Skips (strcmp : Strcmp) (filename function : List Char) : Prop :=
  strcmp.compare function "invalid".toList = 0 ∨ IsUnknown filename

instance (strcmp : Strcmp) (filename function : List Char) :
    Decidable (Skips strcmp filename function) :=
  inferInstanceAs (Decidable (_ ∨ _))

/-- The loop of `Combine` from the turn on in which `count` has a given value, over the contents of
both buffers. Both files are read until one of them ends. -/
def combineLoop (strcmp : Strcmp) : ℕ → List (List Char × List Char) → Combined
  | _, [] => ⟨[], none⟩
  | count, (filename, function) :: buffers =>
    -- `count++` on an `int`
    if 2 ^ 31 - 1 ≤ count then ⟨[], some .overflow⟩
    else if Skips strcmp filename function then combineLoop strcmp (count + 1) buffers
    else
      match assertNewline filename <|> assertNewline function with
      | some fault => ⟨[], some fault⟩
      | none =>
        let rest := combineLoop strcmp (count + 1) buffers
        -- the index is `count - 1` after the increment; both newlines have been overwritten
        ⟨⟨count, (cString filename).dropLast, (cString function).dropLast⟩ :: rest.written,
          rest.fault⟩

/-- `Combine`. -/
def combine (strcmp : Strcmp) (functionOutput filenameOutput : List Char) : Combined :=
  combineLoop strcmp 0 ((fgetsAll 2000 filenameOutput).zip (fgetsAll 200 functionOutput))

/-- `main`, from the raw file, the symbols read and what addr2line prints. -/
def convert (strcmp : Strcmp) (sorting : Sorting MyCompare) (records : List Record)
    (functions : List FunctionEntry) (filenameOutput : List Char) : Combined :=
  match convertIP strcmp sorting functions (readRawFile records) with
  | .error fault => ⟨[], some fault⟩
  | .ok functionOutput => combine strcmp functionOutput filenameOutput

end Racez
