import Racez.Simulate.Located
import Racez.Simulate.Sound

/-!
# No warning for guarded memory

The way from a hardware sample to a warning leads through all parts of the tool: the signal handler
logs the registers and the locks of a thread, `convert` finds the function, the pass finds the
instruction and computes addresses for the whole basic block, and the detector looks at the locks of
all accesses at an address. If a thread holds a lock whenever a block that was sampled touches an
address, there is no warning for that address (`not_reported_of_guarded`).

A thread *touches* the addresses of the memory operands of the instructions it executes. That
includes those of `lea`, which the pass takes for accesses.

## Conditions

The theorem is about a profile that was made of the log by a `Conversion`, so the assumptions of
that structure are assumptions here: addr2line knows no location for a record that is not an access,
it prints one line for each of its input, and the names of the symbols are clean. The instructions
of the units are those of the machine in `X86/Machine`. Of the log it is assumed that there was room
for all records, that slot 0 does not read as an access, and that no lockset was overrun.

## The argument

A new record has the locks of the sample it was computed from (`locks_newRecord`), and its address
is touched by the block of the instruction where the sample was taken, in the execution the sample
comes from (`touches_of_mem_sampleRecords`). The address that is stored for the sampled instruction
is touched as well. So every access at the guarded address that reaches the detector has the lock,
be it logged or computed, and such an address is not reported.
-/

namespace Racez

/-! ## Blocks -/

section Blocks

variable (code : SectionInsn → X86.Instr)

/-- Instructions of a function as the machine executes them. -/
def executed (insns : List SectionInsn) : List (ℤ × X86.Instr) :=
  insns.map fun y ↦ (y.offset, code y)

/-- Executed from the state, some instruction of the block has a memory operand at the address. -/
def Touches (block : List (ℤ × X86.Instr)) (state : X86.State) (a : Address) : Prop :=
  ∃ before y after m, block = before ++ y :: after ∧ y.2.mem = some m
    ∧ m.address (stateAfter before state) = a

/-- The instruction was sampled in an execution of its block, and the lock was among those of the
sample if the block touches the address. -/
def GuardedAt (a l : Address) (r : Record) (f : MaoFunction) (x : SectionInsn) : Prop :=
  ∃ state, SampledBefore r (executed code (f.insnsBefore x)) state
    ∧ (Touches (executed code (f.insnsBefore x ++ x :: f.insnsAfter x)) state a →
      l ∈ r.memoryAccess.locks)

variable {code} {f : MaoFunction} {x : SectionInsn} {raw : Record} {state : X86.State}
  {stray : InstructionEntry → ℕ → Option RegEntry}

private theorem map_place_executed {insns : List SectionInsn}
    (h : ∀ y ∈ insns, y.insn = .ofX86 (code y)) :
    (executed code insns).map place = insns.map SectionInsn.toPlacedInsn := by
  rw [executed, List.map_map]
  refine List.map_congr_left fun y hy ↦ ?_
  rw [Function.comp_apply, place, ← h y hy]

private theorem executed_block (f : MaoFunction) (x : SectionInsn) :
    executed code (f.insnsBefore x ++ x :: f.insnsAfter x)
      = executed code (f.insnsBefore x)
        ++ (x.offset, code x) :: executed code (f.insnsAfter x) := by
  rw [executed, List.map_append, List.map_cons]
  rfl

section

variable (hcode : ∀ y ∈ f.insns, y.insn = .ofX86 (code y)) (hx : x ∈ f.insns)
  (hraw : SampledBefore raw (executed code (f.insnsBefore x)) state)
include hcode hx hraw

/-- The address of every new record is touched. -/
theorem touches_of_mem_sampleRecords {n : Record} (hn : n ∈ sampleRecords stray f x raw) :
    Touches (executed code (f.insnsBefore x ++ x :: f.insnsAfter x)) state
      n.memoryAccess.memoryAddress := by
  have hplace : place (x.offset, code x) = x.toPlacedInsn := by
    rw [place, ← hcode x hx]
  rw [sampleRecords, MaoFunction.blockBefore, MaoFunction.blockAfter,
    ← map_place_executed fun y hy ↦ hcode y (f.insnsBefore_subset x hy),
    ← map_place_executed fun y hy ↦ hcode y (f.insnsAfter_subset x hy), ← hplace] at hn
  rw [executed_block]
  generalize executed code (f.insnsBefore x) = pre at hraw hn ⊢
  generalize executed code (f.insnsAfter x) = post at hn ⊢
  obtain ⟨s, hs, rfl⟩ := List.mem_map.mp hn
  rcases (mem_executeSimWhole_iff.mp hs).2
    with ⟨near, far, heq, hfound⟩ | ⟨-, near, far, heq, hfound⟩
  · -- found on the way back
    rw [← List.map_reverse] at heq
    obtain ⟨near, rest, hsplit, rfl, hrest⟩ := List.map_eq_append_iff.mp heq
    obtain ⟨y, far, rfl, hplaced, rfl⟩ := List.map_eq_cons_iff.mp hrest
    obtain rfl : pre = far.reverse ++ y :: near.reverse := by
      rw [← List.reverse_reverse pre, hsplit]
      simp
    obtain ⟨m, hm, haddress⟩ := FoundAfter.address_backward hraw hplaced.symm
      (by rwa [List.reverse_reverse])
    exact ⟨far.reverse, y, near.reverse ++ (x.offset, code x) :: post, m, by simp, hm,
      haddress.symm⟩
  · -- found on the way forward
    obtain ⟨near, rest, rfl, rfl, hrest⟩ := List.map_eq_append_iff.mp heq
    obtain ⟨y, far, rfl, hplaced, rfl⟩ := List.map_eq_cons_iff.mp hrest
    obtain ⟨m, hm, haddress⟩ := hfound.address_forward hraw hplaced.symm
    exact ⟨pre ++ (x.offset, code x) :: near, y, far, m, by simp, hm, haddress.symm⟩

private theorem touches_of_updatePatch {a : Address}
    (ha : (updatePatch raw x.insn).address = some a) :
    Touches (executed code (f.insnsBefore x ++ x :: f.insnsAfter x)) state a := by
  -- in a record with another address, so that it is not the one that was there before
  let raw' : Record := { raw with memoryAccess := { raw.memoryAccess with memoryAddress := a + 1 } }
  have hraw' : SampledBefore raw' (executed code (f.insnsBefore x)) state := hraw
  have hinsn : (place (x.offset, code x)).insn = x.insn := (hcode x hx).symm
  have haddress : (updateMemory raw' x.insn).memoryAccess.memoryAddress = a := by
    rw [updateMemory_eq, Patch.memoryAccess_smul, show updatePatch raw' x.insn
      = updatePatch raw x.insn from rfl, ha]
    rfl
  rw [executed_block]
  rcases @address_updateMemory raw' _ (x.offset, code x) state hraw' with hold | ⟨m, hm, hnew⟩
  · rw [hinsn, haddress] at hold
    have hne : a ≠ a + 1 := by bv_omega
    exact absurd hold hne
  · rw [hinsn, haddress] at hnew
    exact ⟨_, _, _, m, rfl, hm, hnew.symm⟩

end

end Blocks

/-! ## The whole tool chain -/

section Chain

variable {conv : Conversion} {code : SectionInsn → X86.Instr} {a l : Address}
  {memory : ℕ → Record} {producers : List Producer} {units : List Compilation}
  {stray : InstructionEntry → ℕ → Option RegEntry} {inPlace : ℕ → Bool}

@[simp] theorem locks_newRecord (raw : Record) (isWrite : ℤ) (ip address : BitVec 64) :
    (newRecord raw isWrite ip address).memoryAccess.locks = raw.memoryAccess.locks :=
  take_copyPrefix _ _ _

section

variable (hcode : ∀ job ∈ jobs units, ∀ y ∈ job.2.1.insns, y.insn = .ofX86 (code y))
  (hguard : ∀ job ∈ jobs units, ∀ k r x, conv.Located job k r x → GuardedAt code a l r job.2.1 x)
include hcode hguard

variable (stray) in
/-- What a call stores under the address belongs to a record with the lock. -/
theorem mem_locks_of_madeFor {c : PassCall} {k : ℕ} {seed : Record}
    (h : MadeFor (conv.env inPlace) units (PassFiles.seeds ⟨conv.records, []⟩) c k seed) :
    ((updatePatch seed c.2.1.insn).address = some a → l ∈ seed.memoryAccess.locks)
      ∧ ∀ n ∈ sampleRecords stray c.1 c.2.1 seed, n.memoryAccess.memoryAddress = a →
        l ∈ n.memoryAccess.locks := by
  obtain ⟨job, hjob, hfunction, r, rfl, hlocated⟩ := conv.located_of_madeFor h
  obtain ⟨state, hsampled, hlock⟩ := hguard job hjob k r c.2.1 hlocated
  have hx := hlocated.mem_insns
  rw [updatePatch_seed, Record.locks_seed]
  refine ⟨fun ha ↦ ?_, fun n hn ha ↦ ?_⟩
  · exact hlock (touches_of_updatePatch (hcode job hjob) hx hsampled ha)
  · rw [hfunction, sampleRecords_seed] at hn
    have htouches := touches_of_mem_sampleRecords (hcode job hjob) hx hsampled hn
    obtain ⟨y, -, i, -, -, rfl⟩ := exists_newRecord_of_mem hn
    rw [locks_newRecord]
    exact hlock (ha ▸ htouches)

private theorem mem_locks_of_build
    (hraw : ∀ r ∈ conv.records, r.AccessAt a → l ∈ r.memoryAccess.locks) {e : PassEffect}
    (he : e.FromCalls stray (conv.env inPlace) units (PassFiles.seeds ⟨conv.records, []⟩))
    {r : Record} (hr : r ∈ (e • PassFiles.mk conv.records []).raw
      ∨ r ∈ (e • PassFiles.mk conv.records []).new) (ha : r.AccessAt a) :
    l ∈ r.memoryAccess.locks := by
  rcases hr with hr | hr
  · obtain ⟨k, hk⟩ := List.mem_iff_getElem?.mp hr
    rw [PassEffect.raw_smul, List.getElem?_mapIdx, Option.map_eq_some_iff] at hk
    obtain ⟨r, hk, rfl⟩ := hk
    obtain ⟨htype, haddress⟩ := ha
    rw [Patch.type_smul] at htype
    rw [Patch.locks_smul]
    rcases hpatch : (e.patches k).address with _ | a'
    · -- the address was in the log
      rw [Patch.memoryAccess_smul, hpatch] at haddress
      exact hraw r (List.mem_of_getElem? hk) ⟨htype, haddress⟩
    · rw [Patch.memoryAccess_smul, hpatch] at haddress
      obtain rfl : a' = a := haddress
      obtain ⟨c, seed, hmade, hupdate⟩ := he.address k a' hpatch
      have hlock := (mem_locks_of_madeFor stray hcode hguard hmade).1 hupdate
      have hseed := hmade.getElem?
      rw [PassFiles.seeds, List.getElem?_map, hk] at hseed
      obtain rfl := Option.some.inj hseed
      rwa [Record.locks_seed] at hlock
  · obtain ⟨c, k, seed, hmade, hn⟩ := he.appended r hr
    exact (mem_locks_of_madeFor stray hcode hguard hmade).2 r hn ha.2

end

variable (stray inPlace) in
/-- The detector gets through all that is made of a log under these conditions. -/
theorem detect_of_guarded (hwf : WellFormedLog conv.records)
    (hcount : ∀ r ∈ conv.records, r.type = .memoryOp → r.memoryAccess.lockCount ≤ 10)
    (hcode : ∀ job ∈ jobs units, ∀ y ∈ job.2.1.insns, y.insn = .ofX86 (code y))
    (hraw : ∀ r ∈ conv.records, r.AccessAt a → l ∈ r.memoryAccess.locks)
    (hguard : ∀ job ∈ jobs units, ∀ k r x, conv.Located job k r x →
      GuardedAt code a l r job.2.1 x) :
    ∃ s reports, detect false (build stray (conv.env inPlace) ⟨conv.records, []⟩ units).raw
        (some (build stray (conv.env inPlace) ⟨conv.records, []⟩ units).new) = .ok (s, reports)
      ∧ ∀ rep ∈ reports, rep.memoryAddress ≠ a := by
  have hcalls := @fromCalls_buildEffect stray (conv.env inPlace)
    (PassFiles.seeds ⟨conv.records, []⟩) units
  have hext := hcalls.extended
  have hsamples := conv.samplesAccesses inPlace units
  rw [build_eq]
  obtain ⟨t, ht⟩ := hext.exists_tracedRun hsamples hwf hcount
  refine ⟨t.state, t.reports, ?_, ?_⟩
  · rw [detect, processLog_eq_map_tracedRun, ht]
    rfl
  · refine not_reported_of_commonLock (l := l) (hext.wellFormedLog hsamples hwf) ?_ ht
    rintro _ hmem ha
    obtain ⟨p, hp, rfl⟩ := List.mem_map.mp hmem
    exact mem_locks_of_build hcode hguard hraw hcalls (mem_of_mem_passedRecords hp) ha

end Chain

/-! ## A sample under a lock -/

/-- The load. -/
def loadCode (_ : SectionInsn) : X86.Instr :=
  .load .mov ⟨.none, some .rbx, none, InstructionEntry.noScale⟩ .rax

theorem exists_sampledBefore_loadCode {job : MaoUnit × MaoFunction × Bool} {k : ℕ} {r : Record}
    {x : SectionInsn} (hjob : job ∈ jobs [⟨oneFileUnit, [(loadFunction, true)]⟩])
    (hlocated : lockedConversion.Located job k r x) :
    ∃ state, SampledBefore r (executed loadCode (job.2.1.insnsBefore x)) state
      ∧ 8 ∈ r.memoryAccess.locks := by
  obtain rfl := List.mem_singleton.mp hjob
  have hx := hlocated.mem_insns
  obtain rfl := List.mem_singleton.mp hx
  rcases k with _ | _ | k
  · obtain rfl := Option.some.inj hlocated.record
    exact absurd hlocated.access nofun
  · obtain rfl := Option.some.inj hlocated.record
    exact ⟨⟨_, fun _ ↦ 0⟩, fun _ ↦ rfl, by decide⟩
  · exact absurd hlocated.record nofun

theorem insn_eq_loadCode :
    ∀ job ∈ jobs [⟨oneFileUnit, [(loadFunction, true)]⟩], ∀ y ∈ job.2.1.insns,
      y.insn = .ofX86 (loadCode y) := by
  intro job hjob y hy
  obtain rfl := List.mem_singleton.mp hjob
  obtain rfl := List.mem_singleton.mp hy
  rfl

end Racez
