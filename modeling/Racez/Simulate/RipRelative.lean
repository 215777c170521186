import Mathlib.Data.List.Chain
import Racez.Simulate.Sound

/-!
# Operands relative to the instruction pointer

In `disp(%rip)` the register stands for the address of the instruction after the one that has the
operand. The pass takes the value from the sample, where it is the address of the sampled
instruction, and it takes the same value for every instruction of the block. That is right for one
of them only, the one directly before the sampled instruction: its operand is relative to the end of
the instruction, and there the sampled one begins.

`ripRelativeRight_iff` says so for whole blocks. No other instruction with such an operand may be
reached with a known address, and the sampled instruction may not have one.

## Counting addresses

In a block the instructions lie one behind the other (`BlockLayout`), so ends and starts can be
compared as numbers. The end of an instruction is the start of the next one and of no other; hence
the address after `y` is the sampled one exactly if `y` is directly in front of it. On the way back
that is the first instruction the walk gets to, on the way forward it is none, and the sampled
instruction is never behind itself (`sampled_ripRelative_iff`). Whether an operand is reached with a
known address is decided by the tests of the walk (`RipFound`).
-/

namespace Racez

/-! ## Blocks -/

/-- The instructions of a block lie one behind the other, at offsets of type `int`. -/
structure BlockLayout (size : PlacedInsn → ℤ) (block : List PlacedInsn) : Prop where
  /-- Each instruction begins where the one before it ends. -/
  contiguous : block.IsChain fun y z ↦ z.offset = y.offset + size y
  /-- None is empty. -/
  size_pos : ∀ y ∈ block, 0 < size y
  /-- The offsets are numbers of type `int`. -/
  fits : ∀ y ∈ block, 0 ≤ y.offset ∧ y.offset + size y < 2 ^ 31

/-- The address of the instruction after `y`. -/
def nextAddress (raw : Record) (origin : ℤ) (size : PlacedInsn → ℤ) (y : PlacedInsn) : BitVec 64 :=
  instructionAddress raw origin y + BitVec.ofInt 64 (size y)

section Layout

variable {size : PlacedInsn → ℤ} {block near far : List PlacedInsn} {x y z : PlacedInsn}
  {raw : Record}

theorem BlockLayout.tail (h : BlockLayout size (y :: block)) : BlockLayout size block where
  contiguous := h.contiguous.tail
  size_pos z hz := h.size_pos z (List.mem_cons_of_mem y hz)
  fits z hz := h.fits z (List.mem_cons_of_mem y hz)

theorem BlockLayout.pairwise (h : BlockLayout size block) :
    block.Pairwise fun y z ↦ y.offset + size y ≤ z.offset := by
  induction block with
  | nil => exact List.Pairwise.nil
  | cons y block ih =>
    refine List.pairwise_cons.mpr ⟨?_, ih h.tail⟩
    cases block with
    | nil => simp
    | cons z block =>
      have hz : z.offset = y.offset + size y := (List.isChain_cons_cons.mp h.contiguous).1
      intro w hw
      rcases List.mem_cons.mp hw with rfl | hw
      · exact hz.ge
      · have hpos := h.size_pos z (by simp)
        have hle := (List.pairwise_cons.mp (ih h.tail)).1 w hw
        omega

private theorem BlockLayout.end_eq_iff (h : BlockLayout size (far ++ y :: (near ++ x :: block))) :
    y.offset + size y = x.offset ↔ near = [] := by
  cases near with
  | nil =>
    have hchain := (List.isChain_append.mp h.contiguous).2.1
    exact iff_of_true (List.isChain_cons_cons.mp hchain).1.symm rfl
  | cons z near =>
    have hpair := (List.pairwise_append.mp h.pairwise).2.1
    rw [List.pairwise_cons, List.cons_append, List.pairwise_cons] at hpair
    have hyz := hpair.1 z List.mem_cons_self
    have hzx := hpair.2.1 x (by simp)
    have hpos := h.size_pos z (by simp)
    refine iff_of_false ?_ (by simp)
    omega

private theorem BlockLayout.end_ne (h : BlockLayout size (far ++ x :: block))
    (hy : y ∈ x :: block) : y.offset + size y ≠ x.offset := by
  have hpos := h.size_pos y (List.mem_append_right far hy)
  rcases List.mem_cons.mp hy with rfl | hy
  · omega
  · have hpair := (List.pairwise_append.mp h.pairwise).2.1
    have hxy := (List.pairwise_cons.mp hpair).1 y hy
    have hpos' := h.size_pos x (by simp)
    omega

private theorem BlockLayout.nextAddress_eq_ip_iff (h : BlockLayout size block) (hx : x ∈ block)
    (hy : y ∈ block) :
    nextAddress raw x.offset size y = raw.memoryAccess.memOp.ip
      ↔ y.offset + size y = x.offset := by
  have hdist : nextAddress raw x.offset size y
      = raw.memoryAccess.memOp.ip + BitVec.ofInt 64 (y.offset + size y - x.offset) := by
    rw [nextAddress, instructionAddress, BitVec.add_assoc, ← BitVec.ofInt_add]
    congr 2
    omega
  rw [hdist, add_eq_left]
  obtain ⟨hx₀, hx₁⟩ := h.fits x hx
  obtain ⟨hy₀, hy₁⟩ := h.fits y hy
  have hpos := h.size_pos y hy
  have hpos' := h.size_pos x hx
  rw [← BitVec.toInt_inj, BitVec.toInt_ofInt,
    show (0 : BitVec 64).toInt = 0 from rfl, Int.bmod_def]
  split_ifs <;> omega

end Layout

/-! ## Operands -/

/-- The operand is `disp(%rip)` with a constant displacement. -/
def InstructionEntry.RipOperand (insn : InstructionEntry) (i : ℕ) (disp : BitVec 64) : Prop :=
  insn.baseRegister = some .rip ∧ insn.indexRegister = none
    ∧ insn.operands[i]? = some (.memory (some (.constant disp)))

/-- The pass takes the address of the sampled instruction for the register. -/
theorem sampleAddress_of_ripOperand {insn : InstructionEntry} {i : ℕ} {disp : BitVec 64}
    (h : insn.RipOperand i disp) (sample : PebsCoreSmplEntry) :
    sampleAddress sample insn i = disp + sample.ip := by
  obtain ⟨hbase, hindex, hdisp⟩ := h
  rw [sampleAddress, InstructionEntry.getSimpleDisp, hbase, hindex, hdisp]
  simp [PebsCoreSmplEntry.value]

/-- After the instructions `near` a walk gets to `y`, which has such an operand with a known
address. -/
structure RipFound (stray : InstructionEntry → ℕ → Option RegEntry) (raw : Record)
    (direction : Direction) (marked : List (Option RegEntry)) (near : List PlacedInsn)
    (y : PlacedInsn) : Prop where
  /-- The walk passes the instructions in front of it. -/
  reached : ∀ z ∈ near, z.insn.Passes
  /-- It does not end at the instruction itself. -/
  passes : y.insn.Passes
  /-- A record is made for it. -/
  combines : y.insn.combines = true
  /-- The operand has a known address. -/
  operand : ∃ (i : ℕ) (disp : BitVec 64), y.insn.memIndex = some i ∧ y.insn.RipOperand i disp
    ∧ AddressKnown raw.memoryAccess.memOp y.insn i (markedAt stray direction
        (marked ++ near.flatMap fun z ↦ z.insn.marks stray) y.insn)

/-- The addresses computed for such operands are absent or right: in the records appended, and for
the sampled instruction if it is a move. -/
structure RipRelativeRight (stray : InstructionEntry → ℕ → Option RegEntry) (raw : Record)
    (size : PlacedInsn → ℤ) (pre : List PlacedInsn) (x : PlacedInsn) (post : List PlacedInsn) :
    Prop where
  /-- In the records appended. -/
  recorded : ∀ s ∈ (executeSimWhole stray raw pre x post).1, ∀ i disp,
    s.placed.insn.memIndex = some i → s.placed.insn.RipOperand i disp →
      s.record.memoryAccess.memoryAddress = disp + nextAddress raw x.offset size s.placed
  /-- For the sampled instruction. -/
  sampled : x.insn.isOpMov = true → ∀ i disp, x.insn.RipOperand i disp →
    computeMemory .empty raw.memoryAccess.memOp x.insn i .update = -1
      ∨ computeMemory .empty raw.memoryAccess.memOp x.insn i .update
        = disp + nextAddress raw x.offset size x

section Right

variable {stray : InstructionEntry → ℕ → Option RegEntry} {raw : Record} {size : PlacedInsn → ℤ}
  {pre post near far : List PlacedInsn} {x : PlacedInsn} {direction : Direction}
  {marked : List (Option RegEntry)} {s : NewSample}

private theorem FoundAfter.ripRelative_iff {i : ℕ} {disp : BitVec 64} {origin : ℤ}
    (h : FoundAfter stray raw origin direction marked near s)
    (hi : s.placed.insn.memIndex = some i) (hop : s.placed.insn.RipOperand i disp) :
    s.record.memoryAccess.memoryAddress = disp + nextAddress raw origin size s.placed
      ↔ nextAddress raw origin size s.placed = raw.memoryAccess.memOp.ip := by
  obtain ⟨i', hi', -, hrecord⟩ := h.record
  obtain rfl := Option.some.inj (hi.symm.trans hi')
  have haddress : s.record.memoryAccess.memoryAddress = disp + raw.memoryAccess.memOp.ip := by
    rw [hrecord, ← sampleAddress_of_ripOperand hop]
    rfl
  rw [haddress, add_right_inj, eq_comm]

/-- The sampled instruction is never followed by itself, so only an absent address is right. -/
theorem sampled_ripRelative_iff {i : ℕ} {disp : BitVec 64}
    (hlayout : BlockLayout size (pre ++ x :: post)) (hop : x.insn.RipOperand i disp) :
    (computeMemory .empty raw.memoryAccess.memOp x.insn i .update = -1
        ∨ computeMemory .empty raw.memoryAccess.memOp x.insn i .update
          = disp + nextAddress raw x.offset size x)
      ↔ ¬AddressKnown raw.memoryAccess.memOp x.insn i [] := by
  have hx : x ∈ pre ++ x :: post := by simp
  have hne : nextAddress raw x.offset size x ≠ raw.memoryAccess.memOp.ip := by
    rw [ne_eq, hlayout.nextAddress_eq_ip_iff hx hx]
    exact hlayout.end_ne List.mem_cons_self
  rcases @computeMemory_eq .empty raw.memoryAccess.memOp [] .update rfl x.insn i
    with ⟨hknown, heq⟩ | ⟨hunknown, heq⟩
  · rw [heq, iff_false_right (not_not.mpr hknown), not_or]
    refine ⟨hknown.address, ?_⟩
    rw [sampleAddress_of_ripOperand hop, add_right_inj]
    exact hne.symm
  · exact iff_of_true (Or.inl heq) hunknown

private theorem ripFound_iff {y : PlacedInsn} {origin : ℤ} :
    RipFound stray raw direction marked near y ↔ ∃ s : NewSample, s.placed = y
      ∧ FoundAfter stray raw origin direction marked near s
      ∧ ∃ i disp, y.insn.memIndex = some i ∧ y.insn.RipOperand i disp := by
  constructor
  · rintro ⟨hnear, hpasses, hcombines, i, disp, hi, hop, hknown⟩
    exact ⟨⟨y, newRecord raw i (instructionAddress raw origin y)
      (sampleAddress raw.memoryAccess.memOp y.insn i)⟩, rfl,
      ⟨hnear, hpasses, hcombines, i, hi, hknown, rfl⟩, i, disp, hi, hop⟩
  · rintro ⟨s, rfl, ⟨hnear, hpasses, hcombines, i, hi, hknown, -⟩, i', disp, hi', hop⟩
    obtain rfl := Option.some.inj (hi.symm.trans hi')
    exact ⟨hnear, hpasses, hcombines, i, disp, hi, hop, hknown⟩

/-- On the way back, the next instruction is the sampled one only for the first one reached. -/
theorem BlockLayout.nextAddress_eq_ip_iff_of_reverse {y : PlacedInsn}
    (h : BlockLayout size (pre ++ x :: post)) (heq : pre.reverse = near ++ y :: far) :
    nextAddress raw x.offset size y = raw.memoryAccess.memOp.ip ↔ near = [] := by
  have hpre : pre = far.reverse ++ y :: near.reverse := by
    rw [← List.reverse_reverse pre, heq]
    simp
  have hlayout : BlockLayout size (far.reverse ++ y :: (near.reverse ++ x :: post)) := by
    rw [hpre] at h
    simpa using h
  rw [h.nextAddress_eq_ip_iff (by simp) (by simp [hpre]), hlayout.end_eq_iff,
    List.reverse_eq_nil_iff]

private theorem BlockLayout.nextAddress_ne_ip {y : PlacedInsn}
    (h : BlockLayout size (pre ++ x :: post))
    (hy : y ∈ x :: post) : nextAddress raw x.offset size y ≠ raw.memoryAccess.memOp.ip := by
  rw [ne_eq, h.nextAddress_eq_ip_iff (by simp) (List.mem_append_right pre hy)]
  exact h.end_ne hy

/-- **Operands relative to the instruction pointer, exactly.** For any block, sampled instruction
and raw record: the addresses computed for operands `disp(%rip)` are absent or right if and only if
the only instruction with such an operand that is reached with a known address is the one directly
before the sampled instruction, and the address of the sampled instruction itself, if it is a move,
is not known. -/
theorem ripRelativeRight_iff (hlayout : BlockLayout size (pre ++ x :: post)) :
    RipRelativeRight stray raw size pre x post
      ↔ (x.insn.insnCanHandle = true →
          (∀ near y far, pre.reverse = near ++ y :: far →
            RipFound stray raw .backward [] near y → near = [])
          ∧ (¬Aborts pre.reverse → ∀ near y far, post = near ++ y :: far →
            ¬RipFound stray raw .forward (x.insn.sampleMarks stray) near y))
        ∧ (x.insn.isOpMov = true → ∀ i disp, x.insn.RipOperand i disp →
          ¬AddressKnown raw.memoryAccess.memOp x.insn i []) := by
  constructor
  · rintro ⟨hrecorded, hsampled⟩
    refine ⟨fun hhandle ↦ ⟨?_, ?_⟩, ?_⟩
    · intro near y far heq hfound
      obtain ⟨s, rfl, hs, i, disp, hi, hop⟩ := ripFound_iff.mp hfound
      have hright := hrecorded s
        (mem_executeSimWhole_iff.mpr ⟨hhandle, Or.inl ⟨near, far, heq, hs⟩⟩) i disp hi hop
      exact (hlayout.nextAddress_eq_ip_iff_of_reverse heq).mp
        ((hs.ripRelative_iff hi hop).mp hright)
    · intro hab near y far heq hfound
      obtain ⟨s, rfl, hs, i, disp, hi, hop⟩ := ripFound_iff.mp hfound
      have hright := hrecorded s
        (mem_executeSimWhole_iff.mpr ⟨hhandle, Or.inr ⟨hab, near, far, heq, hs⟩⟩) i disp hi hop
      exact hlayout.nextAddress_ne_ip (by simp [heq]) ((hs.ripRelative_iff hi hop).mp hright)
    · intro hmov i disp hop
      exact (sampled_ripRelative_iff hlayout hop).mp (hsampled hmov i disp hop)
  · rintro ⟨hwalks, hsampled⟩
    refine ⟨?_, fun hmov i disp hop ↦ (sampled_ripRelative_iff hlayout hop).mpr
      (hsampled hmov i disp hop)⟩
    intro s hs i disp hi hop
    obtain ⟨hhandle, hfound⟩ := mem_executeSimWhole_iff.mp hs
    obtain ⟨hbackward, hforward⟩ := hwalks hhandle
    rcases hfound with ⟨near, far, heq, hs⟩ | ⟨hab, near, far, heq, hs⟩
    · have hnear := hbackward near s.placed far heq
        (ripFound_iff.mpr ⟨s, rfl, hs, i, disp, hi, hop⟩)
      exact (hs.ripRelative_iff hi hop).mpr
        ((hlayout.nextAddress_eq_ip_iff_of_reverse heq).mpr hnear)
    · exact absurd (ripFound_iff.mpr ⟨s, rfl, hs, i, disp, hi, hop⟩)
        (hforward hab near s.placed far heq)

end Right

/-- `mov 16(%rip), %rax`. -/
def ripLoad (offset : ℤ) : PlacedInsn :=
  ⟨offset, ⟨.mov, [.memory (some (.constant 16)), .register (.r64 .rax)], some .rip, none,
    InstructionEntry.noScale⟩⟩

/-- `mov %rcx, %rbx`. -/
def plainMove (offset : ℤ) : PlacedInsn :=
  ⟨offset, ⟨.mov, [.register (.r64 .rcx), .register (.r64 .rbx)], none, none,
    InstructionEntry.noScale⟩⟩

/-- The load directly before the sampled instruction gets the right address. -/
theorem ripRelativeRight_loadBefore :
    ((executeSimWhole (fun _ _ ↦ none) sampleOf64 [ripLoad 0] (plainMove 7) []).1.map
        fun s ↦ s.record.memoryAccess.memoryAddress) = [1016]
      ∧ RipRelativeRight (fun _ _ ↦ none) sampleOf64 (fun _ ↦ 7) [ripLoad 0] (plainMove 7) [] := by
  have hlayout : BlockLayout (fun _ ↦ 7) ([ripLoad 0] ++ plainMove 7 :: []) := by
    refine ⟨List.isChain_pair.mpr rfl, by decide, by decide⟩
  refine ⟨by decide, (ripRelativeRight_iff hlayout).mpr ⟨fun _ ↦ ⟨?_, ?_⟩, ?_⟩⟩
  · intro near y far heq _
    cases near with
    | nil => rfl
    | cons z near => simp at heq
  · intro _ near y far heq
    simp at heq
  · rintro - i disp ⟨hbase, -⟩
    exact absurd hbase nofun

/-- For a load after the sampled instruction the pass computes `16` plus the address `1000` of the
sampled one. The next instruction is at `1014`. -/
theorem not_ripRelativeRight_loadAfter :
    BlockLayout (fun _ ↦ 7) ([] ++ plainMove 7 :: [ripLoad 14])
      ∧ ((executeSimWhole (fun _ _ ↦ none) sampleOf64 [] (plainMove 7) [ripLoad 14]).1.map
          fun s ↦ s.record.memoryAccess.memoryAddress) = [1016]
      ∧ 16 + nextAddress sampleOf64 7 (fun _ ↦ 7) (ripLoad 14) = 1030
      ∧ ¬RipRelativeRight (fun _ _ ↦ none) sampleOf64 (fun _ ↦ 7) [] (plainMove 7)
        [ripLoad 14] := by
  refine ⟨⟨List.isChain_pair.mpr rfl, by decide, by decide⟩, by decide, by decide, ?_⟩
  rintro ⟨hrecorded, -⟩
  have hright := hrecorded ⟨ripLoad 14, newRecord sampleOf64 0 1007 1016⟩ (by decide) 0 16 rfl
    ⟨rfl, rfl, rfl⟩
  exact absurd hright (by decide)

end Racez
