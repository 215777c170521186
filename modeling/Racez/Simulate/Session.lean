import Racez.Simulate.Attribution
import Racez.Simulate.FileTable
import Racez.Simulate.Pass
import Racez.Transition.Halting

/-!
# Running the pass

The pass runs on every function of every unit that is compiled. It works on two files: the raw log,
which is mapped into memory and changed in place, and the file of new records, which is opened for
appending. So a build leaves the changes of all functions in the same two files, in the order in
which the functions are compiled, and whatever was done before the pass came to a halt stays done.

## Representation

The instructions of a function carry their basic block and their offset in the section, which are
computed elsewhere; an instruction without a block is not in the control flow graph. The offsets of
a function are those of its entries, so an instruction is determined by its offset.

The pass uses the index of a sample without a look at the record. If that is not an access, the
registers, the locks and their number are what happens to be in its place, and the address that is
computed goes to the first word of the payload. The model ends where the program would leave its
memory: at an index outside of the raw log, which is the mapped file, and at a new record that is to
get more locks than there is room for. Where the loop runs over the end of the samples, `overEnd`
says whether the process gets over it.

## Halts

A run leaves the two files and why it has come to a halt, if it has (`PassFault`). A unit is one
process: its functions are worked through in order until one of them halts. Another unit is another
process and starts again, with the files as they are.
-/

namespace Racez

/-! ## Functions -/

/-- An instruction of a function. -/
structure SectionInsn extends PlacedInsn where
  /-- Its basic block, if it is in one. -/
  block : Option ℕ
  deriving DecidableEq

/-- A function, with the offset at which it starts. -/
structure MaoFunction where
  /-- The name. -/
  name : List Char
  /-- The offset of the function in its section. -/
  base : ℤ
  /-- The entries of the assembler file from its start to its end. -/
  entries : List (MaoEntry SectionInsn)
  /-- The offset map of the section agrees with the sizes. -/
  offset_eq : ∀ p ∈ starts 0 entries, p.2.offset = base + p.1
  /-- It holds numbers of type `int`. -/
  int_offset : ∀ p ∈ starts 0 entries, -2 ^ 31 ≤ p.2.offset ∧ p.2.offset < 2 ^ 31

namespace MaoFunction

variable (f : MaoFunction)

/-- The instructions in order. -/
def insns : List SectionInsn := (starts 0 f.entries).map Prod.snd

/-- The instructions before a given one in its basic block, in order. -/
def insnsBefore (x : SectionInsn) : List SectionInsn :=
  ((f.insns.takeWhile (· ≠ x)).reverse.takeWhile fun y ↦ y.block = x.block).reverse

/-- The instructions behind a given one in its basic block, in order. -/
def insnsAfter (x : SectionInsn) : List SectionInsn :=
  (f.insns.dropWhile (· ≠ x)).tail.takeWhile fun y ↦ y.block = x.block

theorem insnsBefore_subset (x : SectionInsn) : f.insnsBefore x ⊆ f.insns := by
  intro y hy
  have hy := (List.takeWhile_sublist _).subset (List.mem_reverse.mp hy)
  exact (List.takeWhile_sublist _).subset (List.mem_reverse.mp hy)

theorem insnsAfter_subset (x : SectionInsn) : f.insnsAfter x ⊆ f.insns := by
  intro y hy
  have hy := List.mem_of_mem_tail ((List.takeWhile_sublist _).subset hy)
  exact (List.dropWhile_sublist _).subset hy

/-- What the walk back sees of them. -/
def blockBefore (x : SectionInsn) : List PlacedInsn :=
  (f.insnsBefore x).map SectionInsn.toPlacedInsn

/-- What the walk forward sees of them. -/
def blockAfter (x : SectionInsn) : List PlacedInsn :=
  (f.insnsAfter x).map SectionInsn.toPlacedInsn

end MaoFunction

/-! ## Calls -/

/-- The raw log and the file of new records. -/
structure PassFiles where
  /-- The raw log. -/
  raw : List Record
  /-- The file of new records. -/
  new : List Record
  deriving DecidableEq

/-- Why the process comes to a halt, or the model does. -/
inductive PassFault
  /-- An assertion fails. -/
  | aborted
  /-- The file table cannot be built. -/
  | fileTable (fault : FileTableFault)
  /-- There is no source file with number one. -/
  | noSourceFile
  | read (fault : ReadFault)
  /-- There is no record with the index of the sample. -/
  | outOfFile
  /-- The locks of the raw record do not fit into a new one. -/
  | outOfArray
  /-- The loop over the samples has run over one of its ends. -/
  | overEnd
  deriving DecidableEq

section Pass

variable (stray : InstructionEntry → ℕ → Option RegEntry)

/-- The calls of `UpdateMemory` and `ExecuteSimWhole` for a sample. -/
def simulateSample (f : MaoFunction) (files : PassFiles)
    (call : SectionInsn × RacezInstructionSample) : PassFiles × Option PassFault :=
  let (x, sample) := call
  if sample.index < 0 then (files, some .outOfFile)
  else
    match files.raw[sample.index.toNat]? with
    | none => (files, some .outOfFile)
    | some record =>
      let record := updateMemory record x.insn
      let raw := files.raw.set sample.index.toNat record
      if x.block = none then ({ files with raw }, some .aborted)
      else
        let (samples, aborted) :=
          executeSimWhole stray record (f.blockBefore x) x.toPlacedInsn (f.blockAfter x)
        if samples ≠ [] ∧ 10 < record.memoryAccess.lockCount then
          ({ files with raw }, some .outOfArray)
        else
          (⟨raw, files.new ++ samples.map NewSample.record⟩,
            if aborted then some .aborted else none)

/-- What the end of the loop means for the process. -/
def GoExit.fault (overEnd : Bool) : GoExit → Option PassFault
  | .finished => none
  | .otherFile => none
  | .aborted => some .aborted
  | .entryEnd => some .overEnd
  | .sampleEnd => if overEnd then none else some .overEnd

/-- A unit, as far as it is the same for all its functions, and the directory it is compiled in. -/
structure MaoUnit where
  /-- The directory, if there is one. -/
  workingDir : Option (List Char)
  /-- The entries of all sections. -/
  sections : List SectionEntry

/-- A unit with its functions. With each comes whether the process gets over the end of its
samples. -/
structure Compilation where
  /-- The unit. -/
  unit : MaoUnit
  /-- Its functions, each with whether the process gets over the end of its samples. -/
  functions : List (MaoFunction × Bool)

/-- What is the same for the whole build: the profile, and whether the buffer of its reader grows in
place. -/
structure BuildEnv where
  /-- The content of the profile, if there is one. -/
  pmuprofile : Option (List Char)
  /-- Whether the buffer of the reader grows in place, by its size. -/
  inPlace : ℕ → Bool

variable (env : BuildEnv)

/-- The part of `Go` before the first look at the files: the calls, and what ends them. -/
def sampledCalls (unit : MaoUnit) (f : MaoFunction) (overEnd : Bool) :
    Except PassFault (List (SectionInsn × RacezInstructionSample) × Option PassFault) :=
  match buildFileTable unit.workingDir unit.sections with
  | .error fault => .error (.fileTable fault)
  | .ok fileTable =>
    match fileTable[1]? with
    | none => .error .noSourceFile
    | some currentSourceFile =>
      match read env.inPlace f.name currentSourceFile env.pmuprofile [] with
      | .error fault => .error (.read fault)
      | .ok (false, _) => .ok ([], none)
      | .ok (true, samples) =>
        let attributed := go fileTable currentSourceFile f.entries samples
        .ok (attributed.calls, attributed.exit.fault overEnd)

/-- `Go`, after the constructor has mapped the raw log. An empty file cannot be mapped. -/
def goFunction (unit : MaoUnit) (files : PassFiles) (f : MaoFunction × Bool) :
    PassFiles × Option PassFault :=
  if files.raw = [] then (files, some .aborted)
  else
    match sampledCalls env unit f.1 f.2 with
    | .error fault => (files, some fault)
    | .ok (calls, exit) =>
      let (files, fault) := Halting.run (simulateSample stray f.1) files calls
      (files, fault.or exit)

/-- The pass on a unit, function by function. -/
def goUnit (files : PassFiles) (c : Compilation) : PassFiles × Option PassFault :=
  Halting.run (goFunction stray env c.unit) files c.functions

/-- The pass on all units that are compiled, in order. Each is a process of its own. -/
def build (files : PassFiles) (units : List Compilation) : PassFiles :=
  units.foldl (fun files c ↦ (goUnit stray env files c).1) files

end Pass

end Racez
