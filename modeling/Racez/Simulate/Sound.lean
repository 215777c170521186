import Racez.Simulate.Spec

/-!
# The addresses found are right

The pass against the machine: a block of instructions is executed from any state, and the sample
holds the registers before one of them. Every address the pass computes for another instruction is
then the address that instruction's memory operand had in this execution.

The argument goes both ways in time. On the way back, a register that no instruction from `y` to the
sample writes had the same value before `y`; on the way forward, one that no instruction from the
sample to `y` writes still has it. The marks cover the registers written, so an address that is
known depends on unchanged registers only.

## Marks and registers

The bridge between the pass and the machine is one lemma: the register that an instruction of the
machine writes is among the entries the pass marks for it (`mem_marks_of_dest`). By the frame rule
of the machine a register that is not among the marks of a part of the block has the same value
before and behind this part (`regs_stateAfter`). On the way back the part is the one from the
instruction to the sample, with the instruction itself; on the way forward it is the one from the
sample to the instruction, without it. An operand of the pass and of the machine have the same
displacement, unless it is a symbol, which counts as unknown.
-/

namespace Racez

open X86 (Gpr)

/-! ## Instructions as the assembler sees them -/

def Opcode.ofX86 : X86.Op → Opcode
  | .mov => .mov
  | .movq => .movq
  | .add => .add
  | .sub => .sub

def Opcode.ofCompare : X86.CompareOp → Opcode
  | .cmp => .cmp
  | .test => .test

def InsnOperand.ofSource : X86.Source → InsnOperand
  | .reg r => .register (.r64 r)
  | .imm _ => .immediate

/-- The value of a symbol is not known. -/
def InsnOperand.ofMem (m : X86.MemOperand) : InsnOperand :=
  .memory (match m.disp with
    | .none => none
    | .constant value => some (.constant value)
    | .symbol _ => some .symbolic)

/-- An instruction with a memory operand. -/
def InstructionEntry.withMem (op : Opcode) (operands : List InsnOperand) (m : X86.MemOperand) :
    InstructionEntry :=
  ⟨op, operands, m.base.map .r64, m.index.map .r64, m.log2Scale⟩

/-- An instruction of the machine as the assembler has parsed it. -/
def InstructionEntry.ofX86 : X86.Instr → InstructionEntry
  | .toReg op src dst => ⟨.ofX86 op, [.ofSource src, .register (.r64 dst)], none, none, 0⟩
  | .load op src dst => .withMem (.ofX86 op) [.ofMem src, .register (.r64 dst)] src
  | .store op src dst => .withMem (.ofX86 op) [.ofSource src, .ofMem dst] dst
  | .lea src dst => .withMem .lea [.ofMem src, .register (.r64 dst)] src
  | .compare op (.source left) right =>
    ⟨.ofCompare op, [.ofSource left, .ofSource right], none, none, 0⟩
  | .compare op (.mem left) right => .withMem (.ofCompare op) [.ofMem left, .ofSource right] left
  | .compareMem op left right => .withMem (.ofCompare op) [.ofSource left, .ofMem right] right
  | .jump => ⟨.branch, [], none, none, 0⟩

/-- An instruction of a block, with its offset. -/
def place (x : ℤ × X86.Instr) : PlacedInsn := ⟨x.1, .ofX86 x.2⟩

section OfX86

variable {stray : InstructionEntry → ℕ → Option RegEntry} {y : X86.Instr} {r : Gpr} {i : ℕ}

private theorem mem_invalidated (r : Gpr) : some (.r64 r) ∈ invalidated (some (.r64 r)) := by
  rw [invalidated]
  split_ifs <;> simp

variable (stray) in
private theorem isMemOperand_ofX86_of_dest (h : y.dest = some r) :
    (InstructionEntry.ofX86 y).combines = true
      ∧ (InstructionEntry.ofX86 y).isMemOperand 1 = false
      ∧ (InstructionEntry.ofX86 y).getRegisterOperand stray 1 = some (.r64 r) := by
  cases y with
  | toReg op src dst =>
    obtain rfl := Option.some.inj h
    exact ⟨by cases op <;> rfl, rfl, rfl⟩
  | load op src dst =>
    obtain rfl := Option.some.inj h
    exact ⟨by cases op <;> rfl, rfl, rfl⟩
  | lea src dst =>
    obtain rfl := Option.some.inj h
    exact ⟨rfl, rfl, rfl⟩
  | store op src dst => exact absurd h (by simp [X86.Instr.dest])
  | compare op left right => exact absurd h (by simp [X86.Instr.dest])
  | compareMem op left right => exact absurd h (by simp [X86.Instr.dest])
  | jump => exact absurd h (by simp [X86.Instr.dest])

/-- The register an instruction writes is marked. -/
theorem mem_marks_of_dest (h : y.dest = some r) :
    some (.r64 r) ∈ (InstructionEntry.ofX86 y).marks stray := by
  obtain ⟨hcombines, hmem, hreg⟩ := isMemOperand_ofX86_of_dest stray h
  have hindex : (InstructionEntry.ofX86 y).memIndex ≠ some 1 := by
    rw [InstructionEntry.memIndex, hmem]
    by_cases h₀ : (InstructionEntry.ofX86 y).isMemOperand 0 = true <;> simp [h₀]
  rw [marks_of_combines hcombines hindex, hreg]
  exact mem_invalidated r

private theorem mem_sampleMarks_of_dest (h : y.dest = some r) :
    some (.r64 r) ∈ (InstructionEntry.ofX86 y).sampleMarks stray := by
  obtain ⟨hcombines, -, hreg⟩ := isMemOperand_ofX86_of_dest stray h
  rw [InstructionEntry.sampleMarks, if_pos hcombines, hreg]
  exact mem_invalidated r

private theorem disp_eq_of_ofMem {m : X86.MemOperand} {insn : InstructionEntry}
    (h : insn.operands[i]? = some (.ofMem m)) (hne : insn.getSimpleDisp i ≠ -1) :
    insn.getSimpleDisp i = m.disp.value := by
  rw [InstructionEntry.getSimpleDisp, h, InsnOperand.ofMem] at hne ⊢
  cases hm : m.disp with
  | none => rfl
  | constant value => rfl
  | symbol value =>
    rw [hm] at hne
    exact absurd rfl hne

theorem not_combines_of_compare {op : X86.CompareOp} {insn : InstructionEntry}
    (h : insn.op = .ofCompare op) : ¬insn.combines = true := by
  rw [InstructionEntry.combines, InstructionEntry.isOpMov, h]
  cases op <;> decide

private theorem exists_mem_of_memIndex (hc : (InstructionEntry.ofX86 y).combines = true)
    (h : (InstructionEntry.ofX86 y).memIndex = some i) :
    ∃ m op operands, y.mem = some m ∧ InstructionEntry.ofX86 y = .withMem op operands m
      ∧ operands[i]? = some (.ofMem m) := by
  cases y with
  | toReg op src dst =>
    cases src with
    | reg r => exact absurd h nofun
    | imm value => exact absurd h nofun
  | load op src dst =>
    obtain rfl : 0 = i := Option.some.inj h
    exact ⟨src, _, _, rfl, rfl, rfl⟩
  | store op src dst =>
    obtain rfl : 1 = i := by
      cases src with
      | reg r => exact Option.some.inj h
      | imm value => exact Option.some.inj h
    exact ⟨dst, _, _, rfl, rfl, rfl⟩
  | lea src dst =>
    obtain rfl : 0 = i := Option.some.inj h
    exact ⟨src, _, _, rfl, rfl, rfl⟩
  | compare op left right =>
    cases left with
    | source src => exact absurd hc (not_combines_of_compare rfl)
    | mem m => exact absurd hc (not_combines_of_compare rfl)
  | compareMem op left right => exact absurd hc (not_combines_of_compare rfl)
  | jump => exact absurd hc (by decide)

/-- An address that is known is the machine's in every state in which the registers that are not
marked have the values of the sample. -/
theorem sampleAddress_ofX86 {sample : PebsCoreSmplEntry} {marked : List (Option RegEntry)}
    {state : X86.State} (hc : (InstructionEntry.ofX86 y).combines = true)
    (hi : (InstructionEntry.ofX86 y).memIndex = some i)
    (hknown : AddressKnown sample (.ofX86 y) i marked)
    (hregs : ∀ r, some (.r64 r) ∉ marked → sample.reg r = state.regs r) :
    ∃ m, y.mem = some m ∧ sampleAddress sample (.ofX86 y) i = m.address state := by
  obtain ⟨m, op, operands, hmem, heq, hoperand⟩ := exists_mem_of_memIndex hc hi
  refine ⟨m, hmem, ?_⟩
  rw [heq] at hknown ⊢
  have hbase : sample.value (m.base.map .r64) = m.base.elim 0 state.regs := by
    have hnot : m.base.map .r64 ∉ marked := hknown.base.1
    cases hm : m.base with
    | none => rfl
    | some r =>
      rw [hm] at hnot
      exact hregs r hnot
  have hindex : (m.index.map RegEntry.r64).elim 0 (fun r ↦ sample.value (some r))
      = m.index.elim 0 state.regs := by
    cases hm : m.index with
    | none => rfl
    | some r => exact hregs r (hknown.index (.r64 r) (congrArg (Option.map RegEntry.r64) hm)).1
  rw [sampleAddress, disp_eq_of_ofMem (m := m) hoperand hknown.disp, X86.MemOperand.address,
    ← hbase, ← hindex]
  rfl

end OfX86

/-! ## Executions -/

section Sound

variable {stray : InstructionEntry → ℕ → Option RegEntry} {raw : Record}
  {pre post : List (ℤ × X86.Instr)} {x : ℤ × X86.Instr} {state : X86.State}

/-- The state after a part of a block. -/
def stateAfter (block : List (ℤ × X86.Instr)) (state : X86.State) : X86.State :=
  X86.run (block.map Prod.snd) state

/-- The registers of the sample are those before the sampled instruction. -/
def SampledBefore (raw : Record) (pre : List (ℤ × X86.Instr)) (state : X86.State) : Prop :=
  ∀ r, raw.memoryAccess.memOp.reg r = (stateAfter pre state).regs r

@[simp] theorem stateAfter_append (block block' : List (ℤ × X86.Instr)) (state : X86.State) :
    stateAfter (block ++ block') state = stateAfter block' (stateAfter block state) := by
  rw [stateAfter, List.map_append, X86.run_append]
  rfl

variable (stray) in
/-- A register that is not among the marks of a part of the block is not written there. -/
theorem regs_stateAfter {block : List (ℤ × X86.Instr)} {r : Gpr}
    (h : ∀ y ∈ block, some (.r64 r) ∉ (place y).insn.marks stray) (state : X86.State) :
    (stateAfter block state).regs r = state.regs r := by
  refine X86.regs_run_of_notMem_dests ?_ state
  intro z hz hdest
  obtain ⟨y, hy, rfl⟩ := List.mem_map.mp hz
  exact h y hy (mem_marks_of_dest hdest)

/-- The address of a record is right in every state that has, in the registers not marked so far,
the values of the sample. -/
theorem FoundAfter.address {direction : Direction} {marked : List (Option RegEntry)}
    {near : List PlacedInsn} {y : ℤ × X86.Instr} {s : NewSample} {origin : ℤ}
    (h : FoundAfter stray raw origin direction marked near s) (hplaced : s.placed = place y)
    (hregs : ∀ r, some (.r64 r) ∉ markedAt stray direction
        (marked ++ near.flatMap fun y ↦ y.insn.marks stray) (place y).insn →
      raw.memoryAccess.memOp.reg r = state.regs r) :
    ∃ m, y.2.mem = some m ∧ s.record.memoryAccess.memoryAddress = m.address state := by
  obtain ⟨-, -, hcombines, i, hi, hknown, hrecord⟩ := h
  rw [hplaced] at hcombines hi hknown hrecord
  obtain ⟨m, hm, haddress⟩ := sampleAddress_ofX86 hcombines hi hknown hregs
  refine ⟨m, hm, ?_⟩
  rw [hrecord, ← haddress]
  rfl

theorem FoundAfter.address_backward {far near : List (ℤ × X86.Instr)} {y : ℤ × X86.Instr}
    {s : NewSample} {origin : ℤ} (hraw : SampledBefore raw (far ++ y :: near) state)
    (hplaced : s.placed = place y)
    (h : FoundAfter stray raw origin .backward [] (near.reverse.map place) s) :
    ∃ m, y.2.mem = some m
      ∧ s.record.memoryAccess.memoryAddress = m.address (stateAfter far state) := by
  apply h.address hplaced
  -- what is not marked is not written from `y` up to the sample
  intro r hr
  rw [markedAt, if_neg (by decide), List.nil_append, List.mem_append, not_or] at hr
  rw [hraw, stateAfter_append]
  apply regs_stateAfter stray
  intro z hz
  rcases List.mem_cons.mp hz with rfl | hz
  · exact hr.2
  · intro hmem
    refine hr.1 (List.mem_flatMap.mpr ⟨place z, ?_, hmem⟩)
    exact List.mem_map_of_mem (List.mem_reverse.mpr hz)

theorem FoundAfter.address_forward {near : List (ℤ × X86.Instr)} {y : ℤ × X86.Instr}
    {s : NewSample} {origin : ℤ} (hraw : SampledBefore raw pre state)
    (hplaced : s.placed = place y)
    (h : FoundAfter stray raw origin .forward ((place x).insn.sampleMarks stray) (near.map place)
      s) :
    ∃ m, y.2.mem = some m ∧ s.record.memoryAccess.memoryAddress
      = m.address (stateAfter (pre ++ x :: near) state) := by
  apply h.address hplaced
  -- what is not marked is not written from the sample up to `y`
  intro r hr
  rw [markedAt, if_pos rfl, List.mem_append, not_or] at hr
  have hnear : ∀ z ∈ near, some (.r64 r) ∉ (place z).insn.marks stray := by
    intro z hz hmem
    exact hr.2 (List.mem_flatMap.mpr ⟨place z, List.mem_map_of_mem hz, hmem⟩)
  have hx : x.2.dest ≠ some r := fun hdest ↦ hr.1 (mem_sampleMarks_of_dest hdest)
  rw [hraw, List.append_cons, stateAfter_append, regs_stateAfter stray hnear, stateAfter_append]
  exact (X86.regs_exec_of_ne hx _).symm

private theorem memIndex_of_isMemOperand {y : X86.Instr} {i : ℕ} (hi : i = 0 ∨ i = 1)
    (h : (InstructionEntry.ofX86 y).isMemOperand i = true) :
    (InstructionEntry.ofX86 y).memIndex = some i := by
  rw [InstructionEntry.memIndex]
  rcases hi with rfl | rfl
  · rw [if_pos h]
  · have h₀ : (InstructionEntry.ofX86 y).isMemOperand 0 = false := by
      cases y with
      | toReg op src dst => exact absurd h Bool.false_ne_true
      | load op src dst => exact absurd h Bool.false_ne_true
      | store op src dst => cases src <;> rfl
      | lea src dst => exact absurd h Bool.false_ne_true
      | compare op left right =>
        cases left with
        | source src => cases src <;> rfl
        | mem m => cases right <;> exact absurd h Bool.false_ne_true
      | compareMem op left right => cases left <;> rfl
      | jump => rfl
    rw [h₀, if_neg Bool.false_ne_true, if_pos h]

theorem address_updateMemory (hraw : SampledBefore raw pre state) :
    (updateMemory raw (place x).insn).memoryAccess.memoryAddress = raw.memoryAccess.memoryAddress
      ∨ ∃ m, x.2.mem = some m ∧ (updateMemory raw (place x).insn).memoryAccess.memoryAddress
        = m.address (stateAfter pre state) := by
  rw [updateMemory]
  split_ifs with hmov
  · have hcombines : (InstructionEntry.ofX86 x.2).combines = true := by
      have hmov' : (InstructionEntry.ofX86 x.2).isOpMov = true := hmov
      rw [InstructionEntry.combines, hmov']
      rfl
    have hright : ∀ i, i = 0 ∨ i = 1 → (place x).insn.isMemOperand i = true →
        AddressKnown raw.memoryAccess.memOp (place x).insn i [] →
        ∃ m, x.2.mem = some m ∧ sampleAddress raw.memoryAccess.memOp (place x).insn i
          = m.address (stateAfter pre state) := by
      intro i hi hmem hknown
      exact sampleAddress_ofX86 hcombines (memIndex_of_isMemOperand hi hmem) hknown
        fun r _ ↦ hraw r
    obtain ⟨hop, hfirst⟩ := updateMemoryOperand_spec raw (place x).insn 0 0
    obtain ⟨-, hsecond⟩ :=
      updateMemoryOperand_spec (updateMemoryOperand raw (place x).insn 0 0) (place x).insn 1 1
    rw [hop] at hsecond
    -- the second operand is looked at last
    rcases hsecond with heq | ⟨hmem, hknown, heq⟩
    · rw [heq]
      rcases hfirst with heq₀ | ⟨hmem, hknown, heq₀⟩
      · exact Or.inl heq₀
      · rw [heq₀]
        exact Or.inr (hright 0 (Or.inl rfl) hmem hknown)
    · rw [heq]
      exact Or.inr (hright 1 (Or.inr rfl) hmem hknown)
  · exact Or.inl rfl

/-- **Soundness of sample extension.** Whatever state the block is executed from: every record the
pass appends for another instruction of the block, and the address it stores for the sampled one,
has the address which the memory operand of that instruction has in the execution. -/
theorem executeSimWhole_sound (hraw : SampledBefore raw pre state) :
    (∀ s ∈ (executeSimWhole stray raw (pre.map place) (place x) (post.map place)).1,
      (∃ far y near m, pre = far ++ y :: near ∧ s.placed = place y ∧ y.2.mem = some m
        ∧ s.record.memoryAccess.memoryAddress = m.address (stateAfter far state))
      ∨ ∃ near y far m, post = near ++ y :: far ∧ s.placed = place y ∧ y.2.mem = some m
        ∧ s.record.memoryAccess.memoryAddress
          = m.address (stateAfter (pre ++ x :: near) state))
    ∧ ((updateMemory raw (place x).insn).memoryAccess.memoryAddress
          = raw.memoryAccess.memoryAddress
        ∨ ∃ m, x.2.mem = some m ∧ (updateMemory raw (place x).insn).memoryAccess.memoryAddress
          = m.address (stateAfter pre state)) := by
  refine ⟨?_, address_updateMemory hraw⟩
  intro s hs
  rcases (mem_executeSimWhole_iff.mp hs).2
    with ⟨near, far, heq, hfound⟩ | ⟨-, near, far, heq, hfound⟩
  · rw [← List.map_reverse] at heq
    obtain ⟨near', rest, hsplit, rfl, hrest⟩ := List.map_eq_append_iff.mp heq
    obtain ⟨y, far', rfl, hplaced, rfl⟩ := List.map_eq_cons_iff.mp hrest
    -- the way back is over the reversed list
    have hpre : pre = far'.reverse ++ y :: near'.reverse := by
      rw [← List.reverse_reverse pre, hsplit]
      simp
    subst hpre
    obtain ⟨m, hm, haddress⟩ := FoundAfter.address_backward hraw hplaced.symm
      (by rwa [List.reverse_reverse])
    exact Or.inl ⟨_, y, _, m, rfl, hplaced.symm, hm, haddress⟩
  · obtain ⟨near', rest, rfl, rfl, hrest⟩ := List.map_eq_append_iff.mp heq
    obtain ⟨y, far', rfl, hplaced, rfl⟩ := List.map_eq_cons_iff.mp hrest
    obtain ⟨m, hm, haddress⟩ := hfound.address_forward hraw hplaced.symm
    exact Or.inr ⟨near', y, far', m, rfl, hplaced.symm, hm, haddress⟩

end Sound

/-- `8(%rbx)`. -/
def rbx8 : X86.MemOperand := ⟨.constant 8, some .rbx, none, 0⟩

/-- A load before the sample. -/
def loadBefore : List (ℤ × X86.Instr) := [(0, .load .mov rbx8 .rax)]

/-- The sampled store to `(%rcx)`. -/
def sampledStore : ℤ × X86.Instr := (4, .store .mov (.reg .rax) ⟨.none, some .rcx, none, 0⟩)

/-- An addition from `16(%rbx, %rcx, 4)`, after the sample. -/
def addAfter : List (ℤ × X86.Instr) :=
  [(8, .load .add ⟨.constant 16, some .rbx, some .rcx, 2⟩ .rdx)]

/-- A sample with the value `64` in all registers but `rax`. -/
def sampleOf64 : Record :=
  { Record.zeroed with
    type := .memoryOp
    memoryAccess := { Record.zeroed.memoryAccess with
      memOp := ⟨0, 1000, 0, 64, 64, 64, 64, 64, 64, 64, 64, 64, 64, 64, 64, 64, 64, 64⟩ } }

theorem executeSimWhole_sound_sampledStore :
    SampledBefore sampleOf64 loadBefore ⟨fun _ ↦ 64, fun _ ↦ 0⟩
      ∧ ((executeSimWhole (fun _ _ ↦ none) sampleOf64 (loadBefore.map place) (place sampledStore)
        (addAfter.map place)).1.map fun s ↦ (s.placed.offset, s.record.memoryAccess.memoryAddress))
          = [(0, 72), (8, 336)]
      ∧ ∀ s ∈ (executeSimWhole (fun _ _ ↦ none) sampleOf64 (loadBefore.map place)
          (place sampledStore) (addAfter.map place)).1,
        (∃ far y near m, loadBefore = far ++ y :: near ∧ s.placed = place y ∧ y.2.mem = some m
          ∧ s.record.memoryAccess.memoryAddress
            = m.address (stateAfter far ⟨fun _ ↦ 64, fun _ ↦ 0⟩))
        ∨ ∃ near y far m, addAfter = near ++ y :: far ∧ s.placed = place y ∧ y.2.mem = some m
          ∧ s.record.memoryAccess.memoryAddress
            = m.address (stateAfter (loadBefore ++ sampledStore :: near)
              ⟨fun _ ↦ 64, fun _ ↦ 0⟩) := by
  have hraw : SampledBefore sampleOf64 loadBefore ⟨fun _ ↦ 64, fun _ ↦ 0⟩ := by
    intro r
    cases r <;> decide
  exact ⟨hraw, by decide, (executeSimWhole_sound hraw).1⟩

end Racez
