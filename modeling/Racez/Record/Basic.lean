import Mathlib.Data.BitVec
import Mathlib.Order.RelClasses
import Mathlib.Data.Finset.Dedup

/-!
# Log records

The record written by the preloaded library and read by the offline tools: a number, a thread, a
type, a payload that depends on the type, and a stack trace.

## Representation

Pointers are 64-bit words and compare as unsigned numbers. C `int` fields are integers; where a
width matters the code that stores the field truncates. Fixed arrays are vectors.

The payload is a C union. It is kept as the product of its members, and `type` says which of them
is live: reading a member that is not the live one yields a value about which nothing is known,
which is what a product allows and a tagged sum would not. The member of the lock events is left
out, since no part of the program reads or writes it.

One part of the program writes to a member without a look at the type. All members start with a
pointer, so that such a store goes to the first field of the live member as well
(`Record.setMemoryAddress`). Behind the second word there is only the member of memory accesses.

## The order of records

Records are compared by number and then by instruction address, and two that agree on both are
equivalent for the sets of the tools, whatever else is in them.
-/

namespace Racez

/-! ## Words -/

/-- A pointer. -/
abbrev Address := BitVec 64

instance : LinearOrder Address := LinearOrder.lift' BitVec.toNat fun _ _ ↦ BitVec.eq_of_toNat_eq

/-! ## The record -/

/-- `RecordType`, with the values a file or uninitialised memory may hold besides. -/
inductive RecordType
  | memoryOp
  | syncLock
  | syncUnlock
  | syncSignal
  | syncWait
  | memoryAlloc
  | unknown (code : ℤ)
  deriving DecidableEq

/-- The registers of a sample, `pfm_pebs_core_smpl_entry_t`. -/
structure PebsCoreSmplEntry where
  /-- The flags. -/
  eflags : BitVec 64
  /-- The register `rip`. -/
  ip : BitVec 64
  /-- The register `rax`. -/
  eax : BitVec 64
  /-- The register `rbx`. -/
  ebx : BitVec 64
  /-- The register `rcx`. -/
  ecx : BitVec 64
  /-- The register `rdx`. -/
  edx : BitVec 64
  /-- The register `rsi`. -/
  esi : BitVec 64
  /-- The register `rdi`. -/
  edi : BitVec 64
  /-- The register `rbp`. -/
  ebp : BitVec 64
  /-- The register `rsp`. -/
  esp : BitVec 64
  /-- The register `r8`. -/
  r8 : BitVec 64
  /-- The register `r9`. -/
  r9 : BitVec 64
  /-- The register `r10`. -/
  r10 : BitVec 64
  /-- The register `r11`. -/
  r11 : BitVec 64
  /-- The register `r12`. -/
  r12 : BitVec 64
  /-- The register `r13`. -/
  r13 : BitVec 64
  /-- The register `r14`. -/
  r14 : BitVec 64
  /-- The register `r15`. -/
  r15 : BitVec 64
  deriving DecidableEq

/-- The payload of a memory access. -/
structure MemoryAccess where
  /-- The address accessed. -/
  memoryAddress : Address
  /-- The instruction. -/
  pip : Address
  /-- Where the thread was interrupted. -/
  sip : Address
  /-- Whether it is a store. -/
  isWrite : ℤ
  /-- The registers at the sample. -/
  memOp : PebsCoreSmplEntry
  /-- The number of locks held. -/
  lockCount : ℤ
  /-- The locks, in front. -/
  lockset : Vector Address 10
  deriving DecidableEq

/-- The payload of a wait on a condition variable. -/
structure WaitOp where
  /-- The condition variable. -/
  waitAddress1 : Address
  /-- The mutex. -/
  waitAddress2 : Address
  deriving DecidableEq

/-- The payload of an allocation or a release. -/
structure MemAllocOp where
  /-- The block. -/
  startAddress : Address
  /-- Its size. -/
  size : ℤ
  /-- Whether it is allocated or released. -/
  isAlloc : ℤ
  deriving DecidableEq

/-- One entry of the log. -/
structure Record where
  /-- The number, from the counter of the buffer. -/
  recordNo : ℤ
  /-- The thread. -/
  threadId : ℤ
  /-- The member of the payload that is live. -/
  type : RecordType
  /-- The payload of an access. -/
  memoryAccess : MemoryAccess
  /-- The payload of a signal, a condition variable. -/
  signalOp : Address
  /-- The payload of a wait. -/
  waitOp : WaitOp
  /-- The payload of an allocation or a release. -/
  memAllocOp : MemAllocOp
  /-- The return addresses, in front. -/
  stackTrace : Vector Address 10
  /-- Their number. -/
  traceDepth : ℤ
  deriving DecidableEq

/-- The registers all zero. -/
def PebsCoreSmplEntry.zeroed : PebsCoreSmplEntry :=
  ⟨0, 0, 0, 0, 0, 0, 0, 0, 0, 0, 0, 0, 0, 0, 0, 0, 0, 0⟩

/-- A record after `memset(&record, 0, sizeof(record))`. -/
def Record.zeroed : Record where
  recordNo := 0
  threadId := 0
  type := .unknown 0
  memoryAccess := ⟨0, 0, 0, 0, PebsCoreSmplEntry.zeroed, 0, Vector.replicate 10 0⟩
  signalOp := 0
  waitOp := ⟨0, 0⟩
  memAllocOp := ⟨0, 0, 0⟩
  stackTrace := Vector.replicate 10 0
  traceDepth := 0

/-- The first `lock_count_` entries of the lockset array. -/
def MemoryAccess.locks (m : MemoryAccess) : List Address := m.lockset.toList.take m.lockCount.toNat

namespace Record

/-! ## Stores to the union -/

/-- `op_.memory_access_.memory_address_ = address`, whatever the type. -/
def setMemoryAddress (r : Record) (address : Address) : Record :=
  let r := { r with memoryAccess := { r.memoryAccess with memoryAddress := address } }
  match r.type with
  | .syncSignal => { r with signalOp := address }
  | .syncWait => { r with waitOp := { r.waitOp with waitAddress1 := address } }
  | .memoryAlloc => { r with memAllocOp := { r.memAllocOp with startAddress := address } }
  | _ => r

/-- `op_.memory_access_.is_write_ = isWrite`, which is behind what the other members have. -/
def setIsWrite (r : Record) (isWrite : ℤ) : Record :=
  { r with memoryAccess := { r.memoryAccess with isWrite } }

section Stores

variable (r : Record) (a b : Address) (w : ℤ)

@[simp] theorem type_setMemoryAddress : (r.setMemoryAddress a).type = r.type := by
  rw [setMemoryAddress]
  dsimp only
  split <;> rfl

@[simp] theorem memoryAccess_setMemoryAddress :
    (r.setMemoryAddress a).memoryAccess = { r.memoryAccess with memoryAddress := a } := by
  rw [setMemoryAddress]
  dsimp only
  split <;> rfl

@[simp] theorem type_setIsWrite : (r.setIsWrite w).type = r.type := rfl

@[simp] theorem recordNo_setIsWrite : (r.setIsWrite w).recordNo = r.recordNo := rfl

@[simp] theorem threadId_setIsWrite : (r.setIsWrite w).threadId = r.threadId := rfl

@[simp] theorem memoryAccess_setIsWrite :
    (r.setIsWrite w).memoryAccess = { r.memoryAccess with isWrite := w } := rfl

@[simp] theorem setIsWrite_setIsWrite (w' : ℤ) :
    (r.setIsWrite w).setIsWrite w' = r.setIsWrite w' := rfl

@[simp] theorem recordNo_setMemoryAddress : (r.setMemoryAddress a).recordNo = r.recordNo := by
  rw [setMemoryAddress]
  dsimp only
  split <;> rfl

@[simp] theorem threadId_setMemoryAddress : (r.setMemoryAddress a).threadId = r.threadId := by
  rw [setMemoryAddress]
  dsimp only
  split <;> rfl

@[simp] theorem setMemoryAddress_setMemoryAddress :
    (r.setMemoryAddress a).setMemoryAddress b = r.setMemoryAddress b := by
  obtain ⟨no, tid, type, access, signal, wait, alloc, trace, depth⟩ := r
  rcases type <;> rfl

theorem setIsWrite_setMemoryAddress :
    (r.setMemoryAddress a).setIsWrite w = (r.setIsWrite w).setMemoryAddress a := by
  obtain ⟨no, tid, type, access, signal, wait, alloc, trace, depth⟩ := r
  rcases type <;> rfl

end Stores

/-! ## The order of records -/

/-- `Record::operator<`: by record number, then by instruction address. -/
def lt (r s : Record) : Prop :=
  r.recordNo < s.recordNo
    ∨ (r.recordNo = s.recordNo ∧ r.memoryAccess.pip < s.memoryAccess.pip)

instance : DecidableRel lt := fun _ _ ↦ inferInstanceAs (Decidable (_ ∨ _))

/-- Two records are equivalent under the order when they agree on both of its keys. -/
theorem not_lt_and_not_lt_iff {r s : Record} :
    ¬r.lt s ∧ ¬s.lt r
      ↔ r.recordNo = s.recordNo ∧ r.memoryAccess.pip = s.memoryAccess.pip := by
  constructor
  · rintro ⟨h₁, h₂⟩
    have hno : r.recordNo = s.recordNo :=
      le_antisymm (not_lt.mp fun h ↦ h₂ (Or.inl h)) (not_lt.mp fun h ↦ h₁ (Or.inl h))
    refine ⟨hno, le_antisymm (not_lt.mp fun h ↦ h₂ (Or.inr ⟨hno.symm, h⟩))
      (not_lt.mp fun h ↦ h₁ (Or.inr ⟨hno, h⟩))⟩
  · rintro ⟨hno, hpip⟩
    simp [lt, hno, hpip]

instance : IsStrictWeakOrder Record lt where
  irrefl r := by simp [lt]
  trans r s t := by
    rintro (h | ⟨h, hp⟩) (h' | ⟨h', hp'⟩)
    · exact Or.inl (h.trans h')
    · exact Or.inl (h' ▸ h)
    · exact Or.inl (h ▸ h')
    · exact Or.inr ⟨h.trans h', hp.trans hp'⟩
  incomp_trans r s t hrs hst := by
    rw [not_lt_and_not_lt_iff] at hrs hst ⊢
    exact ⟨hrs.1.trans hst.1, hrs.2.trans hst.2⟩

instance : IsTrans Record lt := IsStrictOrder.toIsTrans

end Record

end Racez
