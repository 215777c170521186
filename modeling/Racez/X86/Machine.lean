import Mathlib.Data.BitVec
import Mathlib.Logic.Function.Basic

/-!
# A fragment of the x86-64 machine

Moves, additions, subtractions, address computations, comparisons and jumps on 64-bit
general-purpose registers and byte-addressed memory, as far as registers and memory are concerned.
Flags and the instruction pointer are left out: within a basic block nothing here depends on them.

The main fact is the frame rule: an instruction changes at most one register, and `Instr.dest` names
it. Over a block, `regs_run_of_notMem_dests` says that a register no instruction names is unchanged.

## What is left out

Instructions that read and write memory at once are there, with the order of the two. Calls, stack
instructions, narrow registers and vector instructions are not: the pass does not take them apart,
or takes them for something else, and the results that use the machine are for blocks of the
instructions below. Addresses wrap around at 2^64.
-/

namespace X86

/-! ## Syntax -/

/-- The general-purpose registers. -/
inductive Gpr
  | rax
  | rbx
  | rcx
  | rdx
  | rsi
  | rdi
  | rbp
  | rsp
  | r8
  | r9
  | r10
  | r11
  | r12
  | r13
  | r14
  | r15
  deriving DecidableEq

/-- A displacement; the value of a symbol is known to the linker only. -/
inductive Displacement
  | none
  | constant (value : BitVec 64)
  | symbol (value : BitVec 64)
  deriving DecidableEq

/-- `disp(base, index, scale)`. -/
structure MemOperand where
  /-- The displacement. -/
  disp : Displacement
  /-- The base register. -/
  base : Option Gpr
  /-- The index register. -/
  index : Option Gpr
  /-- The binary logarithm of the scale. -/
  log2Scale : Fin 4
  deriving DecidableEq

/-- A register or an immediate value. -/
inductive Source
  | reg (r : Gpr)
  | imm (value : BitVec 64)
  deriving DecidableEq

/-- An operand that is only read. -/
inductive Operand
  | source (src : Source)
  | mem (m : MemOperand)
  deriving DecidableEq

/-- Instructions that combine a source and a destination. -/
inductive Op
  | mov
  | movq
  | add
  | sub
  deriving DecidableEq

/-- Instructions that only set flags. -/
inductive CompareOp
  | cmp
  | test
  deriving DecidableEq

/-- At most one operand of an instruction is in memory. -/
inductive Instr
  | toReg (op : Op) (src : Source) (dst : Gpr)
  | load (op : Op) (src : MemOperand) (dst : Gpr)
  | store (op : Op) (src : Source) (dst : MemOperand)
  | lea (src : MemOperand) (dst : Gpr)
  | compare (op : CompareOp) (left : Operand) (right : Source)
  | compareMem (op : CompareOp) (left : Source) (right : MemOperand)
  | jump
  deriving DecidableEq

/-! ## Semantics -/

/-- Registers and memory. -/
structure State where
  /-- The registers. -/
  regs : Gpr → BitVec 64
  /-- The memory, byte by byte. -/
  mem : BitVec 64 → BitVec 8

def Displacement.value : Displacement → BitVec 64
  | .none => 0
  | .constant value => value
  | .symbol value => value

/-- The address of a memory operand. -/
def MemOperand.address (m : MemOperand) (s : State) : BitVec 64 :=
  m.disp.value + m.base.elim 0 s.regs
    + m.index.elim 0 s.regs * BitVec.ofNat 64 (2 ^ m.log2Scale.val)

def Source.value (s : State) : Source → BitVec 64
  | .reg r => s.regs r
  | .imm value => value

/-- The word at an address, low byte first. -/
def loadWord (mem : BitVec 64 → BitVec 8) (a : BitVec 64) : BitVec 64 :=
  (List.range 8).foldl
    (fun word i ↦ word ||| (mem (a + BitVec.ofNat 64 i)).setWidth 64 <<< (8 * i)) 0

/-- The memory after a word has been stored. -/
def storeWord (mem : BitVec 64 → BitVec 8) (a value : BitVec 64) : BitVec 64 → BitVec 8 :=
  fun b ↦ if (b - a).toNat < 8 then (value >>> (8 * (b - a).toNat)).setWidth 8 else mem b

def Op.apply : Op → BitVec 64 → BitVec 64 → BitVec 64
  | .mov, src, _ => src
  | .movq, src, _ => src
  | .add, src, dst => dst + src
  | .sub, src, dst => dst - src

/-- The effect of an instruction. -/
def Instr.exec (s : State) : Instr → State
  | .toReg op src dst =>
    { s with regs := Function.update s.regs dst (op.apply (src.value s) (s.regs dst)) }
  | .load op src dst =>
    let value := op.apply (loadWord s.mem (src.address s)) (s.regs dst)
    { s with regs := Function.update s.regs dst value }
  | .store op src dst =>
    let value := op.apply (src.value s) (loadWord s.mem (dst.address s))
    { s with mem := storeWord s.mem (dst.address s) value }
  | .lea src dst => { s with regs := Function.update s.regs dst (src.address s) }
  | .compare _ _ _ => s
  | .compareMem _ _ _ => s
  | .jump => s

/-- A block of instructions. -/
def run (block : List Instr) (s : State) : State := block.foldl Instr.exec s

/-- Whether an instruction reads its memory operand. A move to memory does not, the other operations
on memory do. -/
def Instr.readsMem : Instr → Bool
  | .load _ _ _ => true
  | .store .mov _ _ => false
  | .store .movq _ _ => false
  | .store _ _ _ => true
  | .compare _ (.mem _) _ => true
  | .compareMem _ _ _ => true
  | _ => false

/-- Whether an instruction writes its memory operand. -/
def Instr.writesMem : Instr → Bool
  | .store _ _ _ => true
  | _ => false

/-- The memory operand of an instruction. -/
def Instr.mem : Instr → Option MemOperand
  | .load _ src _ => some src
  | .store _ _ dst => some dst
  | .lea src _ => some src
  | .compare _ (.mem m) _ => some m
  | .compareMem _ _ m => some m
  | _ => none

/-! ## The frame rule -/

/-- The register an instruction writes. -/
def Instr.dest : Instr → Option Gpr
  | .toReg _ _ dst => some dst
  | .load _ _ dst => some dst
  | .lea _ dst => some dst
  | _ => none

theorem regs_exec_of_ne {x : Instr} {r : Gpr} (h : x.dest ≠ some r) (s : State) :
    (x.exec s).regs r = s.regs r := by
  cases x with
  | toReg op src dst => exact Function.update_of_ne (fun heq ↦ h (congrArg some heq.symm)) _ _
  | load op src dst => exact Function.update_of_ne (fun heq ↦ h (congrArg some heq.symm)) _ _
  | lea src dst => exact Function.update_of_ne (fun heq ↦ h (congrArg some heq.symm)) _ _
  | store op src dst => rfl
  | compare op left right => rfl
  | compareMem op left right => rfl
  | jump => rfl

@[simp] theorem run_append (block block' : List Instr) (s : State) :
    run (block ++ block') s = run block' (run block s) :=
  List.foldl_append

theorem regs_run_of_notMem_dests {block : List Instr} {r : Gpr}
    (h : ∀ x ∈ block, x.dest ≠ some r) (s : State) : (run block s).regs r = s.regs r := by
  induction block generalizing s with
  | nil => rfl
  | cons x block ih =>
    rw [run, List.foldl_cons, ← run, ih fun y hy ↦ h y (List.mem_cons_of_mem x hy),
      regs_exec_of_ne (h x List.mem_cons_self)]

end X86
