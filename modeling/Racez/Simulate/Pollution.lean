import Racez.Simulate.Spec

/-!
# Names of one register

A general-purpose register has up to five names: `rax`, `eax`, `ax`, `al` and `ah` are parts of one
register, and an instruction that writes to one of them changes the others. To the assembler they
are different entries. `InvalidateRegister` knows of two names, the 64-bit and the 32-bit one, and
of these only for the eight registers that the 32-bit machine has as well. For any other entry it
marks the entry alone.

So after a write to `r8d` or `al` the value of `r8` or `rax` in the sample still counts as good.
`coversOverlaps_iff` says when all the same no stale value is used: when each register written
under such a name is also written under one that `InvalidateRegister` knows.

## What is marked

`mapsAfter` are the maps behind a part of the way, and `killedAfter` lists everything that was
handed to `InvalidateRegister` on it. A name is marked if it was handed over itself, or if it is one
of two names of a register and the other was (`r64_mem_invalidated_iff`). The value in the sample is
used for an unmarked name, and it is stale if an instruction on the way has written a register that
shares bits with it. Since any value can be in a register of the sample (`exists_sample`), nothing
but the marks can prevent that.
-/

namespace Racez

open X86 (Gpr)

/-! ## Register names -/

/-- The names of the general-purpose registers. -/
inductive RegName
  | r64 (r : Gpr)
  | r32 (r : Gpr)
  | r16 (r : Gpr)
  /-- The lowest byte, such as `al`. -/
  | low8 (r : Gpr)
  | ah
  | bh
  | ch
  | dh
  deriving DecidableEq

namespace RegName

/-- The register a name belongs to. -/
def gpr : RegName → Gpr
  | .r64 r => r
  | .r32 r => r
  | .r16 r => r
  | .low8 r => r
  | .ah => .rax
  | .bh => .rbx
  | .ch => .rcx
  | .dh => .rdx

/-- The bits of the register a name stands for, from the first to before the last. -/
def bits : RegName → ℕ × ℕ
  | .r64 _ => (0, 64)
  | .r32 _ => (0, 32)
  | .r16 _ => (0, 16)
  | .low8 _ => (0, 8)
  | _ => (8, 16)

/-- The entry of a name in the register table. The entries of the names with 16 and 8 bits are not
among those the pass asks for; `code` tells them apart. -/
def entry (code : RegName → ℕ) : RegName → RegEntry
  | .r64 r => .r64 r
  | .r32 r => .r32 r
  | name => .other (code name)

/-- A write to one of the two changes the other. -/
def SharesBits (d q : RegName) : Prop :=
  d.gpr = q.gpr ∧ ∃ i, d.bits.1 ≤ i ∧ i < d.bits.2 ∧ q.bits.1 ≤ i ∧ i < q.bits.2

/-- The name stands for 32 or 64 bits. -/
def Wide : RegName → Prop
  | .r64 _ => True
  | .r32 _ => True
  | _ => False

private theorem sharesBits_r64 (d : RegName) : d.SharesBits (.r64 d.gpr) := by
  refine ⟨rfl, 8 * (d.bits.1 / 8), ?_⟩
  cases d <;> simp [bits]

end RegName

/-! ## The maps at some point of a walk -/

/-- The register an instruction writes. -/
def InstructionEntry.destination (insn : InstructionEntry) : Option RegEntry :=
  match insn.combines, insn.operands[(1 : ℕ)]? with
  | true, some (.register r) => some r
  | _, _ => none

section Maps

variable (stray : InstructionEntry → ℕ → Option RegEntry) (raw : Record)

/-- What an instruction hands to `InvalidateRegister` when a walk passes it. -/
def InstructionEntry.killed (insn : InstructionEntry) : List (Option RegEntry) :=
  if insn.combines = true ∧ insn.memIndex ≠ some 1 then [insn.getRegisterOperand stray 1] else []

/-- What the sampled instruction hands to it before the way forward. -/
def InstructionEntry.sampleKilled (insn : InstructionEntry) : List (Option RegEntry) :=
  if insn.combines = true then [insn.getRegisterOperand stray 1] else []

/-- The maps after the instructions `l` on a way from `x`. -/
def mapsAfter (pre : List PlacedInsn) (x : PlacedInsn) (l : List PlacedInsn) :
    Direction → RegMaps
  | .forward => (walk stray raw x.offset .forward (forwardMaps stray raw pre x) l).maps
  | _ => (walk stray raw x.offset .backward .empty l).maps

/-- The instructions whose effect a walk has to take into account. On the way forward the sampled
instruction is one of them. -/
def processed (x : PlacedInsn) (l : List PlacedInsn) (direction : Direction) :
    List InstructionEntry :=
  if direction = .forward then x.insn :: l.map PlacedInsn.insn else l.map PlacedInsn.insn

/-- Everything handed to `InvalidateRegister` on the way. -/
def killedAfter (x : PlacedInsn) (l : List PlacedInsn) (direction : Direction) :
    List (Option RegEntry) :=
  (if direction = .forward then x.insn.sampleKilled stray else [])
    ++ l.flatMap fun y ↦ y.insn.killed stray

variable {stray raw}

private theorem marks_eq_flatMap_killed (insn : InstructionEntry) :
    insn.marks stray = (insn.killed stray).flatMap invalidated := by
  rw [InstructionEntry.marks, InstructionEntry.killed]
  split_ifs <;> simp

private theorem sampleMarks_eq_flatMap_killed (insn : InstructionEntry) :
    insn.sampleMarks stray = (insn.sampleKilled stray).flatMap invalidated := by
  rw [InstructionEntry.sampleMarks, InstructionEntry.sampleKilled]
  split_ifs <;> simp

variable {pre l : List PlacedInsn} {x : PlacedInsn} {direction : Direction}

private theorem marks_mapsAfter (hl : ∀ y ∈ l, y.insn.Passes) (hupdate : direction ≠ .update) :
    (mapsAfter stray raw pre x l direction).Marks
      ((killedAfter stray x l direction).flatMap invalidated) direction := by
  have hflat : (l.flatMap fun y ↦ y.insn.marks stray)
      = (l.flatMap fun y ↦ y.insn.killed stray).flatMap invalidated := by
    rw [List.flatMap_assoc]
    exact congrArg l.flatMap (funext fun y ↦ marks_eq_flatMap_killed y.insn)
  rw [killedAfter, List.flatMap_append, ← hflat]
  cases direction with
  | backward => exact marks_walk_of_passes hl marks_empty nofun
  | forward =>
    rw [if_pos rfl, ← sampleMarks_eq_flatMap_killed]
    exact marks_walk_of_passes hl marks_forwardMaps nofun
  | update => exact absurd rfl hupdate

end Maps

/-! ## Stale values -/

/-- `GetValueFromRegister` yields what the sample holds for the register, whatever the sample. -/
def ReturnsStored (maps : RegMaps) (q : RegName) (code : RegName → ℕ) (direction : Direction) :
    Prop :=
  ∀ sample, getValueFromRegister maps sample (some (q.entry code)) direction = sample.reg q.gpr

/-- No stale value is used: when the value of the sample is used for a name of 32 or 64 bits, no
instruction on the way has written to a part of it. -/
def CoversOverlaps (maps : RegMaps) (insns : List InstructionEntry) (code : RegName → ℕ)
    (direction : Direction) : Prop :=
  ∀ q : RegName, q.Wide → ReturnsStored maps q code direction →
    ∀ insn ∈ insns, ∀ d : RegName, insn.destination = some (d.entry code) → ¬d.SharesBits q

section Covers

variable {maps : RegMaps} {marked : List (Option RegEntry)} {direction : Direction}
  {code : RegName → ℕ} {r : Gpr}

private theorem mem_invalidated_r64 {r' : Gpr} {e : RegEntry} :
    some e ∈ invalidated (some (.r64 r'))
      ↔ e = .r64 r' ∨ (hasTwoNames r' = true ∧ e = .r32 r') := by
  rw [invalidated]
  split_ifs with htwo
  · simp [htwo, or_comm]
  · simp [htwo]

private theorem mem_invalidated_r32 {r' : Gpr} {e : RegEntry} :
    some e ∈ invalidated (some (.r32 r'))
      ↔ e = .r32 r' ∨ (hasTwoNames r' = true ∧ e = .r64 r') := by
  rw [invalidated]
  split_ifs with htwo
  · simp [htwo]
  · simp [htwo]

/-- Under which names `InvalidateRegister` knows a register. -/
theorem r64_mem_invalidated_iff {x : Option RegEntry} : some (.r64 r) ∈ invalidated x
    ↔ x = some (.r64 r) ∨ (hasTwoNames r = true ∧ x = some (.r32 r)) := by
  rcases x with _ | (r' | r' | _ | _ | code)
  · simp [invalidated]
  · rw [mem_invalidated_r64]
    simp only [RegEntry.r64.injEq, Option.some.injEq, reduceCtorEq, and_false, or_false]
    exact eq_comm
  · rw [mem_invalidated_r32]
    simp only [RegEntry.r64.injEq, RegEntry.r32.injEq, Option.some.injEq, reduceCtorEq, false_or]
    constructor
    · rintro ⟨htwo, rfl⟩
      exact ⟨htwo, rfl⟩
    · rintro ⟨htwo, rfl⟩
      exact ⟨htwo, rfl⟩
  · simp [invalidated]
  · simp [invalidated]
  · simp [invalidated]

private theorem r32_mem_invalidated {x : Option RegEntry} (htwo : hasTwoNames r = true)
    (h : some (.r64 r) ∈ invalidated x) : some (.r32 r) ∈ invalidated x := by
  rcases r64_mem_invalidated_iff.mp h with rfl | ⟨-, rfl⟩
  · exact mem_invalidated_r64.mpr (Or.inr ⟨htwo, rfl⟩)
  · exact mem_invalidated_r32.mpr (Or.inl rfl)

/-- Any value can be in a register of a sample. -/
theorem exists_sample (r : Gpr) (v : BitVec 64) : ∃ sample : PebsCoreSmplEntry, sample.reg r = v :=
  ⟨⟨v, v, v, v, v, v, v, v, v, v, v, v, v, v, v, v, v, v⟩, by cases r <;> rfl⟩

private theorem returnsStored_r64_iff (h : maps.Marks marked direction) :
    ReturnsStored maps (.r64 r) code direction ↔ some (.r64 r) ∉ marked := by
  constructor
  · intro hstored hmem
    obtain ⟨sample, hsample⟩ := exists_sample r 0
    have hvalue := hstored sample
    rw [getValueFromRegister_eq h] at hvalue
    rw [RegName.entry, RegName.gpr, if_pos hmem, hsample] at hvalue
    exact absurd hvalue (by decide)
  · intro hmem sample
    rw [getValueFromRegister_eq h]
    exact if_neg hmem

private theorem returnsStored_r32 (h : maps.Marks marked direction)
    (hstored : ReturnsStored maps (.r32 r) code direction) :
    some (.r32 r) ∉ marked ∧ hasTwoNames r = true := by
  obtain ⟨sample, hsample⟩ := exists_sample r 1
  have hvalue := hstored sample
  rw [getValueFromRegister_eq h] at hvalue
  rw [RegName.entry, RegName.gpr, hsample] at hvalue
  by_cases hmem : some (.r32 r) ∈ marked
  · rw [if_pos hmem] at hvalue
    exact absurd hvalue (by decide)
  · rw [if_neg hmem] at hvalue
    refine ⟨hmem, ?_⟩
    -- a register without a second name counts as zero
    by_contra htwo
    have hzero : sample.value (some (.r32 r)) = 0 := if_neg htwo
    rw [hzero] at hvalue
    exact absurd hvalue (by decide)

end Covers

/-- **Overlapping names, exactly.** After any handled instructions in either direction, no stale
value is used if and only if each register written on the way is handed to `InvalidateRegister`
under its 64-bit name or, if it is one of the eight registers with two names, its 32-bit name. -/
theorem coversOverlaps_iff {stray : InstructionEntry → ℕ → Option RegEntry} {raw : Record}
    {pre l : List PlacedInsn} {x : PlacedInsn} {code : RegName → ℕ} {direction : Direction}
    (hupdate : direction ≠ .update) (hl : ∀ y ∈ l, y.insn.Passes) :
    CoversOverlaps (mapsAfter stray raw pre x l direction) (processed x l direction) code direction
      ↔ ∀ insn ∈ processed x l direction, ∀ d : RegName,
          insn.destination = some (d.entry code) → ∃ k ∈ killedAfter stray x l direction,
            k = some (.r64 d.gpr) ∨ (hasTwoNames d.gpr = true ∧ k = some (.r32 d.gpr)) := by
  have hmarks := @marks_mapsAfter stray raw pre l x direction hl hupdate
  constructor
  · intro hcovers insn hinsn d hd
    by_contra hnone
    refine hcovers (.r64 d.gpr) trivial ?_ insn hinsn d hd d.sharesBits_r64
    rw [returnsStored_r64_iff hmarks, List.mem_flatMap]
    rintro ⟨k, hk, hmem⟩
    exact hnone ⟨k, hk, r64_mem_invalidated_iff.mp hmem⟩
  · intro hkilled q hwide hstored insn hinsn d hd hshare
    obtain ⟨k, hk, hname⟩ := hkilled insn hinsn d hd
    have hmem := r64_mem_invalidated_iff.mpr hname
    rw [hshare.1] at hmem
    cases q with
    | r64 r =>
      rw [returnsStored_r64_iff hmarks] at hstored
      exact hstored (List.mem_flatMap.mpr ⟨k, hk, hmem⟩)
    | r32 r =>
      obtain ⟨hfree, htwo⟩ := returnsStored_r32 hmarks hstored
      exact hfree (List.mem_flatMap.mpr ⟨k, hk, r32_mem_invalidated htwo hmem⟩)
    | _ => exact hwide

/-- An instruction that moves one register to another. -/
def movRegister (offset : ℤ) (src dst : RegEntry) : PlacedInsn :=
  ⟨offset, ⟨.mov, [.register src, .register dst], none, none, InstructionEntry.noScale⟩⟩

/-- `mov %rcx, %rbx`, the sampled instruction. -/
def sampledMove : PlacedInsn := movRegister 8 (.r64 .rcx) (.r64 .rbx)

/-- `mov %ecx, %eax`, and before it `mov %cl, %al`, whose entries have the number `0`. -/
def moveToEax : List PlacedInsn :=
  [movRegister 4 (.r32 .rcx) (.r32 .rax), movRegister 0 (.other 0) (.other 0)]

/-- The entry number `0` belongs to the names of `rax`, and no other. -/
def raxCode (d : RegName) : ℕ := if d.gpr = .rax then 0 else 1

private theorem gpr_of_entry_raxCode {d : RegName}
    (h : d.entry raxCode = .r32 .rax ∨ d.entry raxCode = .other 0) : d.gpr = .rax := by
  cases d with
  | r64 r => simp [RegName.entry] at h
  | r32 r =>
    rw [RegName.entry, RegEntry.r32.injEq] at h
    exact h.resolve_right nofun
  | r16 r => simpa [RegName.entry, raxCode] using h
  | low8 r => simpa [RegName.entry, raxCode] using h
  | ah => rfl
  | bh => simp [RegName.entry, raxCode, RegName.gpr] at h
  | ch => simp [RegName.entry, raxCode, RegName.gpr] at h
  | dh => simp [RegName.entry, raxCode, RegName.gpr] at h

/-- The write to `al` is covered by the one to `eax`. -/
theorem coversOverlaps_moveToEax :
    CoversOverlaps (mapsAfter (fun _ _ ↦ none) Record.zeroed [] sampledMove moveToEax .backward)
      (processed sampledMove moveToEax .backward) raxCode .backward := by
  refine (coversOverlaps_iff (by decide) ?_).mpr ?_
  · intro y hy
    rcases List.mem_cons.mp hy with rfl | hy
    · exact ⟨rfl, fun _ ↦ ⟨rfl, fun _ ↦ rfl⟩⟩
    · obtain rfl := List.mem_singleton.mp hy
      exact ⟨rfl, fun _ ↦ ⟨rfl, fun _ ↦ rfl⟩⟩
  · intro insn hinsn d hd
    have hgpr : d.gpr = .rax := by
      refine gpr_of_entry_raxCode ?_
      rcases List.mem_cons.mp hinsn with rfl | hinsn
      · exact Or.inl (Option.some.inj hd).symm
      · obtain rfl := List.mem_singleton.mp hinsn
        exact Or.inr (Option.some.inj hd).symm
    rw [hgpr]
    exact ⟨some (.r32 .rax), List.mem_cons_self, Or.inr ⟨rfl, rfl⟩⟩

/-- `mov %r9d, %r8d`. -/
def moveToR8d : PlacedInsn := movRegister 4 (.r32 .r9) (.r32 .r8)

/-- After a write to `r8d` the value of `r8` in the sample is still used. -/
theorem not_coversOverlaps_moveToR8d :
    ReturnsStored (mapsAfter (fun _ _ ↦ none) Record.zeroed [] sampledMove [moveToR8d] .backward)
        (.r64 .r8) (fun _ ↦ 0) .backward
      ∧ ¬CoversOverlaps
        (mapsAfter (fun _ _ ↦ none) Record.zeroed [] sampledMove [moveToR8d] .backward)
        (processed sampledMove [moveToR8d] .backward) (fun _ ↦ 0) .backward := by
  have hstored : ReturnsStored
      (mapsAfter (fun _ _ ↦ none) Record.zeroed [] sampledMove [moveToR8d] .backward)
      (.r64 .r8) (fun _ ↦ 0) .backward := fun sample ↦ rfl
  refine ⟨hstored, fun hcovers ↦ ?_⟩
  exact hcovers (.r64 .r8) trivial hstored moveToR8d.insn List.mem_cons_self (.r32 .r8) rfl
    ⟨rfl, 0, by decide⟩

end Racez
