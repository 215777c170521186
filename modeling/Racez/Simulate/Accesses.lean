import Racez.Simulate.Sound

/-!
# Records without an access

The records the pass appends should stand for accesses. Their instruction addresses and write flags
are right. But `lea` goes through the same code as the loads, and `lea` does not access memory: it
only computes the address. `describesAccesses_iff` says when no such record is appended, which is
when the address of no `lea` on the way is known.

## The code and the machine

What an instruction reads and writes is defined on the instructions of the pass, and
`reads_writes_ofX86` says that it is what the machine does. A record the walk finds describes an
access unless it belongs to a `lea` (`FoundAfter.describesAccess_iff`); so the condition is that no
walk gets to a `lea` with a known address.
-/

namespace Racez

/-! ## Accesses of an instruction -/

/-- Whether an instruction reads the memory operand at a position. A branch or an instruction the
pass does not know is left open. -/
def Opcode.reads : Opcode → ℕ → Bool
  | .mov, i => i = 0
  | .movq, i => i = 0
  | .add, _ => true
  | .sub, _ => true
  | .cmp, _ => true
  | .test, _ => true
  | _, _ => false

/-- Whether an instruction writes the memory operand at a position. -/
def Opcode.writes : Opcode → ℕ → Bool
  | .mov, i => i = 1
  | .movq, i => i = 1
  | .add, i => i = 1
  | .sub, i => i = 1
  | _, _ => false

theorem reads_writes_ofX86 {y : X86.Instr} {i : ℕ}
    (hc : (InstructionEntry.ofX86 y).combines = true)
    (hi : (InstructionEntry.ofX86 y).memIndex = some i) :
    (InstructionEntry.ofX86 y).op.reads i = y.readsMem
      ∧ (InstructionEntry.ofX86 y).op.writes i = y.writesMem := by
  cases y with
  | toReg op src dst => cases src <;> exact absurd hi nofun
  | load op src dst =>
    obtain rfl : 0 = i := Option.some.inj hi
    cases op <;> exact ⟨rfl, rfl⟩
  | store op src dst =>
    obtain rfl : 1 = i := by cases src <;> exact Option.some.inj hi
    cases op <;> exact ⟨rfl, rfl⟩
  | lea src dst => exact ⟨rfl, rfl⟩
  | compare op left right => cases left <;> exact absurd hc (not_combines_of_compare rfl)
  | compareMem op left right => exact absurd hc (not_combines_of_compare rfl)
  | jump => exact absurd hc (by decide)

/-- A record belongs to an instruction that accesses its memory operand, has its address, and says
whether it writes. -/
def DescribesAccess (raw : Record) (origin : ℤ) (s : NewSample) : Prop :=
  ∃ i, s.placed.insn.memIndex = some i
    ∧ (s.placed.insn.op.reads i = true ∨ s.placed.insn.op.writes i = true)
    ∧ (s.record.memoryAccess.isWrite = 1 ↔ s.placed.insn.op.writes i = true)
    ∧ s.record.memoryAccess.pip = instructionAddress raw origin s.placed

/-! ## When no `lea` is found -/

/-- A walk in a direction gets to a `lea` whose address is known. -/
def ReachesLea (stray : InstructionEntry → ℕ → Option RegEntry) (raw : Record)
    (direction : Direction) (marked : List (Option RegEntry)) (l : List PlacedInsn) : Prop :=
  ∃ near y far i, l = near ++ y :: far ∧ (∀ z ∈ near, z.insn.Passes) ∧ y.insn.Passes
    ∧ y.insn.op = .lea ∧ y.insn.memIndex = some i
    ∧ AddressKnown raw.memoryAccess.memOp y.insn i (markedAt stray direction
        (marked ++ near.flatMap fun z ↦ z.insn.marks stray) y.insn)

section Lea

variable {stray : InstructionEntry → ℕ → Option RegEntry} {raw : Record} {origin : ℤ}
  {direction : Direction} {marked : List (Option RegEntry)} {near : List PlacedInsn}
  {s : NewSample} {l : List PlacedInsn}

private theorem memIndex_eq_some {insn : InstructionEntry} {i : ℕ} (h : insn.memIndex = some i) :
    i = 0 ∨ i = 1 := by
  rw [InstructionEntry.memIndex] at h
  split_ifs at h
  · exact Or.inl (Option.some.inj h).symm
  · exact Or.inr (Option.some.inj h).symm

private theorem combines_iff {insn : InstructionEntry} : insn.combines = true ↔ insn.op = .mov
    ∨ insn.op = .movq ∨ insn.op = .add ∨ insn.op = .sub ∨ insn.op = .lea := by
  simp only [InstructionEntry.combines, InstructionEntry.isOpMov, Bool.or_eq_true,
    decide_eq_true_eq, or_assoc]

/-- A record found describes an access unless it belongs to a `lea`. -/
theorem FoundAfter.describesAccess_iff
    (h : FoundAfter stray raw origin direction marked near s) :
    DescribesAccess raw origin s ↔ s.placed.insn.op ≠ .lea := by
  obtain ⟨-, -, hcombines, i, hi, -, hrecord⟩ := h
  constructor
  · rintro ⟨i', -, hacc, -⟩ hlea
    rw [hlea] at hacc
    exact absurd hacc (by simp [Opcode.reads, Opcode.writes])
  · intro hlea
    have hpip : s.record.memoryAccess.pip = instructionAddress raw origin s.placed := by
      rw [hrecord]
      rfl
    have hwrite : s.record.memoryAccess.isWrite = i := by
      rw [hrecord]
      rfl
    refine ⟨i, hi, ?_, ?_, hpip⟩
    · rcases combines_iff.mp hcombines with hop | hop | hop | hop | hop <;>
        rcases memIndex_eq_some hi with rfl | rfl <;>
        simp_all [Opcode.reads, Opcode.writes]
    · rw [hwrite]
      rcases combines_iff.mp hcombines with hop | hop | hop | hop | hop <;>
        rcases memIndex_eq_some hi with rfl | rfl <;>
        simp_all [Opcode.writes]

variable (origin) in
private theorem reachesLea_iff : ReachesLea stray raw direction marked l ↔ ∃ s : NewSample,
    s.placed.insn.op = .lea ∧ ∃ near far, l = near ++ s.placed :: far
      ∧ FoundAfter stray raw origin direction marked near s := by
  constructor
  · rintro ⟨near, y, far, i, hl, hnear, hpasses, hlea, hi, hknown⟩
    exact ⟨⟨y, newRecord raw i (instructionAddress raw origin y)
      (sampleAddress raw.memoryAccess.memOp y.insn i)⟩, hlea, near, far, hl, hnear, hpasses,
      combines_iff.mpr (by simp [hlea]), i, hi, hknown, rfl⟩
  · rintro ⟨s, hlea, near, far, hl, hfound⟩
    obtain ⟨hnear, hpasses, -, i, hi, hknown, -⟩ := hfound
    exact ⟨near, s.placed, far, i, hl, hnear, hpasses, hlea, hi, hknown⟩

end Lea

/-- **Records that describe accesses, exactly.** For any block, sampled instruction and raw record:
every record appended belongs to an instruction that accesses its memory operand, with the right
write flag and instruction address, if and only if no `lea` with a known address is reached. -/
theorem describesAccesses_iff {stray : InstructionEntry → ℕ → Option RegEntry} {raw : Record}
    {pre post : List PlacedInsn} {x : PlacedInsn} :
    (∀ s ∈ (executeSimWhole stray raw pre x post).1, DescribesAccess raw x.offset s)
      ↔ (x.insn.insnCanHandle = true →
        ¬ReachesLea stray raw .backward [] pre.reverse
          ∧ (¬Aborts pre.reverse →
            ¬ReachesLea stray raw .forward (x.insn.sampleMarks stray) post)) := by
  rw [reachesLea_iff x.offset, reachesLea_iff x.offset]
  constructor
  · intro hall hhandle
    refine ⟨?_, ?_⟩
    · rintro ⟨s, hlea, near, far, hl, hfound⟩
      exact hfound.describesAccess_iff.mp
        (hall s (mem_executeSimWhole_iff.mpr ⟨hhandle, Or.inl ⟨near, far, hl, hfound⟩⟩)) hlea
    · rintro hab ⟨s, hlea, near, far, hl, hfound⟩
      exact hfound.describesAccess_iff.mp
        (hall s (mem_executeSimWhole_iff.mpr ⟨hhandle, Or.inr ⟨hab, near, far, hl, hfound⟩⟩)) hlea
  · intro hnone s hs
    obtain ⟨hhandle, hfound⟩ := mem_executeSimWhole_iff.mp hs
    obtain ⟨hback, hfore⟩ := hnone hhandle
    rcases hfound with ⟨near, far, hl, hfound⟩ | ⟨hab, near, far, hl, hfound⟩
    · exact hfound.describesAccess_iff.mpr fun hlea ↦ hback ⟨s, hlea, near, far, hl, hfound⟩
    · exact hfound.describesAccess_iff.mpr fun hlea ↦ hfore hab ⟨s, hlea, near, far, hl, hfound⟩

/-- `lea 8(%rbx), %rax` behind the sampled store. -/
def leaAfter : PlacedInsn := place (8, .lea rbx8 .rax)

theorem not_describesAccesses_lea :
    ∃ s, s ∈ (executeSimWhole (fun _ _ ↦ none) sampleOf64 [] (place sampledStore) [leaAfter]).1
      ∧ s.placed = leaAfter ∧ s.record.memoryAccess.memoryAddress = 72
      ∧ ¬DescribesAccess sampleOf64 (place sampledStore).offset s := by
  refine ⟨⟨leaAfter, newRecord sampleOf64 0 1004 72⟩, by decide, rfl, rfl, ?_⟩
  rintro ⟨i, -, hacc, -⟩
  exact absurd hacc nofun

end Racez
