import Racez.Buffer.Basic
import Racez.X86.Machine

/-!
# Extending samples

A sample holds the registers of a thread at one instruction. The pass walks from that instruction to
both ends of its basic block and computes the addresses of the other memory operands, as long as
they depend only on registers that have kept their values. Registers that have not are marked in a
map, one for each direction. For every address found a record is appended to a second file.

An unknown value is `-1`, and so is an unknown address. Registers that are not general-purpose
registers count as zero.

## Representation

An instruction is what the assembler has parsed: the operands, with the displacement of each, and
one base register, index register and scale for the whole instruction. `GetRegisterOperand` is only
meant for register operands; what it yields for another operand is a parameter of the model.

## The walk

`computeNewSampleWhole` decides at each instruction whether the walk goes on, which entries are
marked, and whether there is a record; `walk` repeats it and `executeSimWhole` starts it in both
directions. A load overwrites a register that its own address may depend on. On the way forward the
address is computed before the register is marked, on the way back behind it.
-/

namespace Racez

open X86 (Gpr)

/-! ## Instructions -/

/-- An entry of the register table. -/
inductive RegEntry
  /-- The 64-bit register. -/
  | r64 (r : Gpr)
  /-- Its lower half. -/
  | r32 (r : Gpr)
  | rip
  | eip
  | other (code : ℕ)
  deriving DecidableEq

/-- The displacement of an operand, `expressionS`. -/
inductive DispExpr
  | constant (value : BitVec 64)
  | symbolic
  deriving DecidableEq

/-- An operand as the assembler has parsed it. -/
inductive InsnOperand
  | register (r : RegEntry)
  | immediate
  | memory (disp : Option DispExpr)
  deriving DecidableEq

/-- The opcode, as far as the pass tells opcodes apart. -/
inductive Opcode
  | mov
  | movq
  | add
  | sub
  | lea
  | cmp
  | test
  /-- An instruction with a target. -/
  | branch
  | other (code : ℕ)
  deriving DecidableEq

/-- `InstructionEntry`. -/
structure InstructionEntry where
  /-- The operation. -/
  op : Opcode
  /-- The operands, in the order of the assembler. -/
  operands : List InsnOperand
  /-- The base register of the memory operand. -/
  baseRegister : Option RegEntry
  /-- Its index register. -/
  indexRegister : Option RegEntry
  /-- The binary logarithm of its scale. -/
  log2ScaleFactor : Fin 4
  deriving DecidableEq

namespace InstructionEntry

/-- The exponent of an instruction without scale factor. -/
def noScale : Fin 4 := ⟨0, by decide⟩

def isOpMov (insn : InstructionEntry) : Bool := insn.op = .mov || insn.op = .movq

/-- The opcodes that are treated alike: moves, additions, subtractions and `lea`. -/
def combines (insn : InstructionEntry) : Bool :=
  insn.isOpMov || insn.op = .add || insn.op = .sub || insn.op = .lea

def isMemOperand (insn : InstructionEntry) (i : ℕ) : Bool :=
  match insn.operands[i]? with
  | some (.memory _) => true
  | _ => false

def isRegisterOperand (insn : InstructionEntry) (i : ℕ) : Bool :=
  match insn.operands[i]? with
  | some (.register _) => true
  | _ => false

/-- `GetRegisterOperand`. The argument `stray` is what it yields for an operand that is not a
register; no entry at all is a null pointer. -/
def getRegisterOperand (stray : InstructionEntry → ℕ → Option RegEntry) (insn : InstructionEntry)
    (i : ℕ) : Option RegEntry :=
  match insn.operands[i]? with
  | some (.register r) => some r
  | _ => stray insn i

/-- `GetScaleValue`. -/
def getScaleValue (insn : InstructionEntry) : BitVec 64 :=
  BitVec.ofNat 64 (2 ^ insn.log2ScaleFactor.val)

/-- `GetSimpleDisp`. -/
def getSimpleDisp (insn : InstructionEntry) (i : ℕ) : BitVec 64 :=
  match insn.operands[i]? with
  | some (.memory (some (.constant value))) => value
  | some (.memory (some .symbolic)) => -1
  | _ => 0

/-- `InsnCanHandle`. -/
def insnCanHandle (insn : InstructionEntry) : Bool :=
  insn.combines || insn.op = .cmp || insn.op = .test || insn.op = .branch

end InstructionEntry

/-! ## Registers that have not kept their values -/

/-- `RegMap`, with the default value for entries that are not there. -/
abbrev RegMap := Option RegEntry → BitVec 64

/-- A map without entries. -/
def RegMap.empty : RegMap := fun _ ↦ 0

/-- The registers that `InvalidateRegister` takes for two names of one. -/
def hasTwoNames (r : Gpr) : Bool :=
  r ∈ [Gpr.rax, .rbx, .rcx, .rdx, .rsi, .rdi, .rbp, .rsp]

/-- The entries `InvalidateRegister` marks. -/
def invalidated : Option RegEntry → List (Option RegEntry)
  | some .rip => [some .eip, some .rip]
  | some .eip => [some .eip, some .rip]
  | some (.r64 r) => if hasTwoNames r then [some (.r32 r), some (.r64 r)] else [some (.r64 r)]
  | some (.r32 r) => if hasTwoNames r then [some (.r32 r), some (.r64 r)] else [some (.r32 r)]
  | result => [result]

/-- `InvalidateRegister`. -/
def invalidateRegister (map : RegMap) (result : Option RegEntry) : RegMap :=
  (invalidated result).foldl (fun map entry ↦ Function.update map entry (-1)) map

/-! ## Addresses -/

/-- The direction of a walk; `update` is for the sampled instruction itself. -/
inductive Direction
  | backward
  | forward
  | update
  deriving DecidableEq

/-- The two maps. -/
structure RegMaps where
  /-- The map of the walk to the start of the block. -/
  backward : RegMap
  /-- The map of the walk to its end. -/
  forward : RegMap

def RegMaps.empty : RegMaps := ⟨.empty, .empty⟩

/-- The register of a sample. -/
def PebsCoreSmplEntry.reg (sample : PebsCoreSmplEntry) : Gpr → BitVec 64
  | .rax => sample.eax
  | .rbx => sample.ebx
  | .rcx => sample.ecx
  | .rdx => sample.edx
  | .rsi => sample.esi
  | .rdi => sample.edi
  | .rbp => sample.ebp
  | .rsp => sample.esp
  | .r8 => sample.r8
  | .r9 => sample.r9
  | .r10 => sample.r10
  | .r11 => sample.r11
  | .r12 => sample.r12
  | .r13 => sample.r13
  | .r14 => sample.r14
  | .r15 => sample.r15

/-- The value of an entry in a sample; entries the pass does not know are zero. -/
def PebsCoreSmplEntry.value (sample : PebsCoreSmplEntry) : Option RegEntry → BitVec 64
  | some .rip => sample.ip
  | some .eip => sample.ip
  | some (.r64 r) => sample.reg r
  | some (.r32 r) => if hasTwoNames r then sample.reg r else 0
  | some (.other _) => 0
  | none => 0

/-- `GetValueFromRegister`. -/
def getValueFromRegister (maps : RegMaps) (sample : PebsCoreSmplEntry) (reg : Option RegEntry) :
    Direction → BitVec 64
  | .backward => if maps.backward reg = -1 then -1 else sample.value reg
  | .forward => if maps.forward reg = -1 then -1 else sample.value reg
  | .update => sample.value reg

/-- `ComputeMemory`. -/
def computeMemory (maps : RegMaps) (sample : PebsCoreSmplEntry) (insn : InstructionEntry) (i : ℕ)
    (direction : Direction) : BitVec 64 :=
  let offset := insn.getSimpleDisp i
  -- local variables are left out
  if insn.baseRegister = some (.r64 .rbp) ∨ insn.baseRegister = some (.r64 .rsp) then -1
  else
    let indexValue := insn.indexRegister.elim 0
      fun r ↦ getValueFromRegister maps sample (some r) direction
    let baseValue := getValueFromRegister maps sample insn.baseRegister direction
    if indexValue ≠ -1 ∧ baseValue ≠ -1 ∧ offset ≠ -1 then
      offset + baseValue + indexValue * insn.getScaleValue
    else -1

/-! ## The walk -/

/-- The record for an address found. -/
def newRecord (raw : Record) (isWrite : ℤ) (ip address : BitVec 64) : Record :=
  { Record.zeroed with
    recordNo := raw.recordNo
    threadId := raw.threadId
    type := .memoryOp
    memoryAccess := { Record.zeroed.memoryAccess with
      memoryAddress := address
      pip := ip
      sip := ip
      isWrite
      lockCount := raw.memoryAccess.lockCount
      lockset := copyPrefix raw.memoryAccess.lockCount raw.memoryAccess.lockset
        Record.zeroed.memoryAccess.lockset } }

/-- What becomes of an instruction. -/
inductive SimStep
  /-- The walk goes on, maybe with a record. -/
  | next (maps : RegMaps) (record : Option Record)
  /-- The instruction cannot be handled. -/
  | stop
  /-- An assertion fails. -/
  | abort

/-- The record, unless the address is unknown. -/
def recordUnlessUnknown (raw : Record) (isWrite : ℤ) (ip address : BitVec 64) : Option Record :=
  if address = -1 then none else some (newRecord raw isWrite ip address)

section Walk

variable (stray : InstructionEntry → ℕ → Option RegEntry) (raw : Record)

/-- `InvalidateRegister` on the second operand, in the map of a direction. -/
def RegMaps.clobber (maps : RegMaps) (insn : InstructionEntry) : Direction → RegMaps
  | .forward => { maps with
      forward := invalidateRegister maps.forward (insn.getRegisterOperand stray 1) }
  | _ => { maps with
      backward := invalidateRegister maps.backward (insn.getRegisterOperand stray 1) }

/-- `ComputeNewSampleWhole`. A load is invalidated after the address is computed on the way forward,
and before on the way back. -/
def computeNewSampleWhole (maps : RegMaps) (insn : InstructionEntry) (offset : ℤ)
    (direction : Direction) : SimStep :=
  let sample := raw.memoryAccess.memOp
  if insn.insnCanHandle = false then .stop
  else if insn.combines then
    if insn.operands.length ≠ 2 then .abort
    else if direction = .forward then
      let ip := sample.ip + BitVec.ofInt 64 offset
      if insn.isMemOperand 0 then
        let address := computeMemory maps sample insn 0 direction
        .next (maps.clobber stray insn direction) (recordUnlessUnknown raw 0 ip address)
      else if insn.isMemOperand 1 then
        let address := computeMemory maps sample insn 1 direction
        .next maps (recordUnlessUnknown raw 1 ip address)
      else if insn.isRegisterOperand 1 then .next (maps.clobber stray insn direction) none
      else .abort
    else
      let ip := sample.ip - BitVec.ofInt 64 offset
      if insn.isMemOperand 0 then
        let maps := maps.clobber stray insn direction
        let address := computeMemory maps sample insn 0 direction
        .next maps (recordUnlessUnknown raw 0 ip address)
      else if insn.isMemOperand 1 then
        let address := computeMemory maps sample insn 1 direction
        .next maps (recordUnlessUnknown raw 1 ip address)
      else if insn.isRegisterOperand 1 then .next (maps.clobber stray insn direction) none
      else .abort
  else .next maps none

/-- An instruction with its offset in the section. -/
structure PlacedInsn where
  /-- The offset in its section. -/
  offset : ℤ
  /-- The instruction. -/
  insn : InstructionEntry
  deriving DecidableEq

/-- A record and the instruction it was made for. -/
structure NewSample where
  /-- The instruction it is for. -/
  placed : PlacedInsn
  /-- The record. -/
  record : Record
  deriving DecidableEq

/-- What a walk leaves behind: the records, the maps, and whether an assertion has failed. -/
structure Walked where
  /-- The records found, in order. -/
  samples : List NewSample
  /-- The marks at the end. -/
  maps : RegMaps
  /-- Whether the process has been aborted. -/
  aborted : Bool

/-- A walk over the instructions in one direction, from the sampled one at `origin`. -/
def walk (origin : ℤ) (direction : Direction) (maps : RegMaps) : List PlacedInsn → Walked
  | [] => ⟨[], maps, false⟩
  | x :: rest =>
    let offset := if direction = .forward then x.offset - origin else origin - x.offset
    match computeNewSampleWhole stray raw maps x.insn offset direction with
    | .stop => ⟨[], maps, false⟩
    | .abort => ⟨[], maps, true⟩
    | .next maps record =>
      let walked := walk origin direction maps rest
      { walked with samples := record.toList.map (⟨x, ·⟩) ++ walked.samples }

/-- `ExecuteSimWhole` for the instruction `x` of the block `pre ++ [x] ++ post`: the records
appended to the second file, and whether an assertion has failed. Both maps are empty at the
start. -/
def executeSimWhole (pre : List PlacedInsn) (x : PlacedInsn) (post : List PlacedInsn) :
    List NewSample × Bool :=
  if x.insn.insnCanHandle = false then ([], false)
  else
    let back := walk stray raw x.offset .backward .empty pre.reverse
    if back.aborted then (back.samples, true)
    else
      let maps := { back.maps with backward := .empty }
      -- the sample shows the registers before this instruction
      let maps := if x.insn.combines then maps.clobber stray x.insn .forward else maps
      let fore := walk stray raw x.offset .forward maps post
      (back.samples ++ fore.samples, fore.aborted)

/-- The part of `UpdateMemory` for one operand. -/
def updateMemoryOperand (insn : InstructionEntry) (i : ℕ) (isWrite : ℤ) : Record :=
  if insn.isMemOperand i then
    let address := computeMemory .empty raw.memoryAccess.memOp insn i .update
    (if address = -1 then raw else raw.setMemoryAddress address).setIsWrite isWrite
  else raw

/-- `UpdateMemory`, for the sampled instruction itself. -/
def updateMemory (insn : InstructionEntry) : Record :=
  if insn.isOpMov then updateMemoryOperand (updateMemoryOperand raw insn 0 0) insn 1 1 else raw

end Walk

end Racez
