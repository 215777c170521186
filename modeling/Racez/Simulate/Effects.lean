import Racez.Simulate.Session
import Racez.Simulate.Spec

/-!
# What a build does to the files

The pass looks at the registers, the locks and the numbers of raw records and changes neither. It
overwrites the address and the kind of an access, and it appends. So a build is an *effect* on the
files that is picked by what it does not change (`build_eq`): a patch for each raw record, where the
last value wins, and a list of records to append.

Nothing in this depends on the types of the raw records. What is sampled in vain, because the record
is not an access, is patched like the others.

## Effects and their product

`PassEffect` is a monoid that acts on the files. Of two patches of one field the later one counts,
and lists of new records are appended. The *seed* of a record is what the pass reads of it and never
changes: everything but the first word of the payload and the write flag. Each function of the pass
is shown to be its effect, computed from the seeds alone: the stores of `UpdateMemory`
(`operandPatch`), the records of a walk (`executeSimWhole_seed`), the calls for a sample, a
function, a unit and a build. By `Halting` the effect of a run is the product of the effects of its
steps up to the one that halts it.

## Where an effect comes from

`callEffect_cases` says what one call can do, and `PassEffect.FromCalls` what follows for a build:
an address, a write flag or a new record comes from a call for a sample with the index of its
record. Results about what a build stores are results about calls.
-/

namespace Racez

/-! ## Patches -/

/-- The part of a raw record that the pass does not change. -/
def Record.seed (r : Record) : Record := (r.setMemoryAddress 0).setIsWrite 0

namespace Record

variable (r : Record)

@[simp] theorem type_seed : r.seed.type = r.type := by simp [seed]

@[simp] theorem recordNo_seed : r.seed.recordNo = r.recordNo := by simp [seed]

@[simp] theorem threadId_seed : r.seed.threadId = r.threadId := by simp [seed]

@[simp] theorem memoryAccess_seed :
    r.seed.memoryAccess = { r.memoryAccess with memoryAddress := 0, isWrite := 0 } := by
  simp [seed]

@[simp] theorem locks_seed : r.seed.memoryAccess.locks = r.memoryAccess.locks := by
  rw [memoryAccess_seed]
  rfl

end Record

/-- New values for the two fields that the pass changes. -/
@[ext] structure Patch where
  /-- The new address, if one is known. -/
  address : Option Address
  /-- The new kind of access, if it was a move. -/
  isWrite : Option ℤ

namespace Patch

/-- In a product the left factor comes later and wins. -/
instance : Monoid Patch where
  one := ⟨none, none⟩
  mul q p := ⟨q.address.or p.address, q.isWrite.or p.isWrite⟩
  mul_assoc _ _ _ := Patch.ext Option.or_assoc Option.or_assoc
  one_mul _ := Patch.ext Option.none_or Option.none_or
  mul_one _ := Patch.ext Option.or_none Option.or_none

/-- Overwrites the two fields of a record. -/
def apply (p : Patch) (r : Record) : Record :=
  let r := p.address.elim r r.setMemoryAddress
  p.isWrite.elim r r.setIsWrite

instance : MulAction Patch Record where
  smul := apply
  one_smul _ := rfl
  mul_smul q p r := by
    obtain ⟨a, w⟩ := p
    obtain ⟨a', w'⟩ := q
    change apply ⟨a'.or a, w'.or w⟩ r = apply ⟨a', w'⟩ (apply ⟨a, w⟩ r)
    rcases a with _ | a <;> rcases a' with _ | a' <;> rcases w with _ | w <;> rcases w' with _ | w'
      <;> simp [apply, Record.setIsWrite_setMemoryAddress]

variable (p : Patch) (r : Record)

theorem smul_eq : p • r = p.apply r := rfl

@[simp] theorem memoryAccess_smul : (p • r).memoryAccess = { r.memoryAccess with
    memoryAddress := p.address.getD r.memoryAccess.memoryAddress
    isWrite := p.isWrite.getD r.memoryAccess.isWrite } := by
  obtain ⟨_ | a, _ | w⟩ := p <;> simp [smul_eq, apply]

@[simp] theorem locks_smul : (p • r).memoryAccess.locks = r.memoryAccess.locks := by
  rw [memoryAccess_smul]
  rfl

@[simp] theorem type_smul : (p • r).type = r.type := by
  obtain ⟨_ | a, _ | w⟩ := p <;> simp [smul_eq, apply]

@[simp] theorem seed_smul : (p • r).seed = r.seed := by
  obtain ⟨_ | a, _ | w⟩ := p
    <;> simp [smul_eq, apply, Record.seed, Record.setIsWrite_setMemoryAddress]

/-- To overwrite twice is to overwrite once. -/
@[simp] theorem mul_self : p * p = p := Patch.ext Option.or_self Option.or_self

end Patch

/-- What a build does to the files. -/
structure PassEffect where
  /-- What is stored in each raw record. -/
  patches : ℕ → Patch
  /-- The new records. -/
  appended : List Record

namespace PassEffect

@[ext] theorem ext {e e' : PassEffect} (hpatches : e.patches = e'.patches)
    (happended : e.appended = e'.appended) : e = e' := by
  obtain ⟨_, _⟩ := e
  obtain ⟨_, _⟩ := e'
  obtain rfl := hpatches
  obtain rfl := happended
  rfl

instance : Monoid PassEffect where
  one := ⟨1, []⟩
  mul e' e := ⟨e'.patches * e.patches, e.appended ++ e'.appended⟩
  mul_assoc _ _ _ := PassEffect.ext (mul_assoc _ _ _) (List.append_assoc _ _ _).symm
  one_mul _ := PassEffect.ext (one_mul _) (List.append_nil _)
  mul_one _ := PassEffect.ext (mul_one _) (List.nil_append _)

@[simp] theorem patches_one : (1 : PassEffect).patches = 1 := rfl

@[simp] theorem appended_one : (1 : PassEffect).appended = [] := rfl

@[simp] theorem patches_mul (e' e : PassEffect) : (e' * e).patches = e'.patches * e.patches := rfl

@[simp] theorem appended_mul (e' e : PassEffect) :
    (e' * e).appended = e.appended ++ e'.appended := rfl

instance : MulAction PassEffect PassFiles where
  smul e files := ⟨files.raw.mapIdx fun k r ↦ e.patches k • r, files.new ++ e.appended⟩
  one_smul files := by
    change PassFiles.mk (files.raw.mapIdx fun _ r ↦ r) (files.new ++ []) = files
    rw [List.append_nil]
    congr 1
    exact List.ext_getElem (by simp) (by simp)
  mul_smul e' e files := by
    change PassFiles.mk (files.raw.mapIdx fun k r ↦ (e'.patches k * e.patches k) • r) _
      = PassFiles.mk ((files.raw.mapIdx fun k r ↦ e.patches k • r).mapIdx fun k r ↦
        e'.patches k • r) _
    rw [List.mapIdx_mapIdx]
    congr 1
    · simp only [mul_smul]
      rfl
    · exact (List.append_assoc _ _ _).symm

variable (e : PassEffect) (files : PassFiles)

theorem smul_eq : e • files
    = ⟨files.raw.mapIdx fun k r ↦ e.patches k • r, files.new ++ e.appended⟩ := rfl

@[simp] theorem raw_smul : (e • files).raw = files.raw.mapIdx fun k r ↦ e.patches k • r := rfl

@[simp] theorem new_smul : (e • files).new = files.new ++ e.appended := rfl

end PassEffect

/-- What the pass sees of the raw log. -/
def PassFiles.seeds (files : PassFiles) : List Record := files.raw.map Record.seed

@[simp] theorem seeds_smul (e : PassEffect) (files : PassFiles) :
    (e • files).seeds = files.seeds := by
  rw [PassFiles.seeds, PassFiles.seeds, PassEffect.raw_smul]
  refine List.ext_getElem? fun k ↦ ?_
  rw [List.getElem?_map, List.getElem?_map, List.getElem?_mapIdx, Option.map_map]
  exact congrArg (fun f ↦ Option.map f _) (funext fun r ↦ (e.patches k).seed_smul r)

/-! ## The sampled instruction -/

/-- What the part of `UpdateMemory` for one operand overwrites. -/
def operandPatch (raw : Record) (insn : InstructionEntry) (i : ℕ) (isWrite : ℤ) : Patch :=
  if insn.isMemOperand i then
    let address := computeMemory .empty raw.memoryAccess.memOp insn i .update
    ⟨if address = -1 then none else some address, some isWrite⟩
  else 1

/-- What `UpdateMemory` overwrites. -/
def updatePatch (raw : Record) (insn : InstructionEntry) : Patch :=
  if insn.isOpMov then operandPatch raw insn 1 1 * operandPatch raw insn 0 0 else 1

private theorem updateMemoryOperand_eq (raw : Record) (insn : InstructionEntry) (i : ℕ)
    (isWrite : ℤ) :
    updateMemoryOperand raw insn i isWrite = operandPatch raw insn i isWrite • raw := by
  rw [updateMemoryOperand, operandPatch]
  split_ifs
  · dsimp only
    split_ifs <;> rfl
  · rfl

private theorem operandPatch_congr {raw raw' : Record}
    (h : raw.memoryAccess.memOp = raw'.memoryAccess.memOp) :
    operandPatch raw = operandPatch raw' := by
  funext insn i isWrite
  rw [operandPatch, operandPatch, h]

private theorem updatePatch_congr {raw raw' : Record}
    (h : raw.memoryAccess.memOp = raw'.memoryAccess.memOp) :
    updatePatch raw = updatePatch raw' := by
  funext insn
  rw [updatePatch, updatePatch, operandPatch_congr h]

@[simp] theorem updatePatch_seed (raw : Record) : updatePatch raw.seed = updatePatch raw :=
  updatePatch_congr (by simp)

theorem updateMemory_eq (raw : Record) (insn : InstructionEntry) :
    updateMemory raw insn = updatePatch raw insn • raw := by
  rw [updateMemory, updatePatch]
  split_ifs
  · have hop : (operandPatch raw insn 0 0 • raw).memoryAccess.memOp = raw.memoryAccess.memOp := by
      simp
    rw [updateMemoryOperand_eq raw, updateMemoryOperand_eq, mul_smul, operandPatch_congr hop]
  · rw [one_smul]

/-! ## Effects of the pass -/

/-- The effect on one raw record. -/
def PassEffect.single (k : ℕ) (p : Patch) (appended : List Record) : PassEffect :=
  ⟨Pi.mulSingle k p, appended⟩

@[simp] theorem PassEffect.patches_single (k : ℕ) (p : Patch) (appended : List Record) :
    (PassEffect.single k p appended).patches = Pi.mulSingle k p := rfl

private theorem PassEffect.patches_single_cases (k j : ℕ) (p : Patch) (appended : List Record) :
    (PassEffect.single k p appended).patches j = 1
      ∨ j = k ∧ (PassEffect.single k p appended).patches j = p := by
  rw [PassEffect.patches_single]
  by_cases hj : j = k
  · subst hj
    exact Or.inr ⟨rfl, Pi.mulSingle_eq_same _ _⟩
  · exact Or.inl (Pi.mulSingle_eq_of_ne hj _)

private theorem PassEffect.single_smul {files : PassFiles} {k : ℕ} {r : Record}
    (h : files.raw[k]? = some r)
    (p : Patch) (appended : List Record) :
    PassEffect.single k p appended • files
      = ⟨files.raw.set k (p • r), files.new ++ appended⟩ := by
  rw [PassEffect.smul_eq, PassEffect.patches_single]
  congr 1
  refine List.ext_getElem? fun j ↦ ?_
  rw [List.getElem?_mapIdx]
  by_cases hj : k = j
  · subst hj
    rw [h, Pi.mulSingle_eq_same, List.getElem?_set_self (List.getElem?_eq_some_iff.mp h).1]
    rfl
  · rw [List.getElem?_set_ne hj, Pi.mulSingle_eq_of_ne (Ne.symm hj)]
    simp

section Pass

variable (stray : InstructionEntry → ℕ → Option RegEntry)

@[simp] theorem newRecord_seed (raw : Record) : newRecord raw.seed = newRecord raw := by
  funext isWrite ip address
  simp [newRecord]

/-- The new records depend on the seed only. -/
@[simp] theorem executeSimWhole_seed (raw : Record) (pre : List PlacedInsn) (x : PlacedInsn)
    (post : List PlacedInsn) :
    executeSimWhole stray raw.seed pre x post = executeSimWhole stray raw pre x post := by
  have hop : raw.seed.memoryAccess.memOp = raw.memoryAccess.memOp := by simp
  have hstep : computeNewSampleWhole stray raw.seed = computeNewSampleWhole stray raw := by
    funext maps insn offset direction
    simp only [computeNewSampleWhole, recordUnlessUnknown, hop, newRecord_seed]
  have hwalk : walk stray raw.seed = walk stray raw := by
    funext origin direction maps l
    induction l generalizing maps with
    | nil => rfl
    | cons y l ih =>
      rw [walk, walk, hstep]
      simp only [ih]
  rw [executeSimWhole, executeSimWhole, hwalk]

/-- The new records for a sample. -/
def sampleRecords (f : MaoFunction) (x : SectionInsn) (raw : Record) : List Record :=
  (executeSimWhole stray raw (f.blockBefore x) x.toPlacedInsn (f.blockAfter x)).1.map
    NewSample.record

@[simp] theorem sampleRecords_seed (f : MaoFunction) (x : SectionInsn) (raw : Record) :
    sampleRecords stray f x raw.seed = sampleRecords stray f x raw := by
  rw [sampleRecords, sampleRecords, executeSimWhole_seed]

/-- The effect of `simulateSample`, from the seeds. -/
def sampleEffect (f : MaoFunction) (call : SectionInsn × RacezInstructionSample)
    (seeds : List Record) : PassEffect × Option PassFault :=
  let (x, sample) := call
  if sample.index < 0 then (1, some .outOfFile)
  else
    match seeds[sample.index.toNat]? with
    | none => (1, some .outOfFile)
    | some seed =>
      let effect := PassEffect.single sample.index.toNat (updatePatch seed x.insn)
      if x.block = none then (effect [], some .aborted)
      else
        let (samples, aborted) :=
          executeSimWhole stray seed (f.blockBefore x) x.toPlacedInsn (f.blockAfter x)
        if samples ≠ [] ∧ 10 < seed.memoryAccess.lockCount then (effect [], some .outOfArray)
        else (effect (samples.map NewSample.record), if aborted then some .aborted else none)

private theorem simulateSample_eq (f : MaoFunction) (files : PassFiles)
    (call : SectionInsn × RacezInstructionSample) :
    simulateSample stray f files call
      = Halting.perform PassFiles.seeds (sampleEffect stray f call) files := by
  obtain ⟨x, sample⟩ := call
  rw [simulateSample, Halting.perform, sampleEffect]
  dsimp only
  by_cases hneg : sample.index < 0
  · simp only [if_pos hneg, one_smul]
  rw [if_neg hneg, if_neg hneg]
  rcases hrecord : files.raw[sample.index.toNat]? with _ | record
  · simp only [PassFiles.seeds, List.getElem?_map, hrecord, Option.map_none, one_smul]
  simp only [PassFiles.seeds, List.getElem?_map, hrecord, Option.map_some]
  -- the patch and the new records are those of the seed
  have hsim : executeSimWhole stray (updatePatch record x.insn • record)
      = executeSimWhole stray record.seed := by
    funext pre x post
    rw [← executeSimWhole_seed, Patch.seed_smul]
  have hcount : (updatePatch record x.insn • record).memoryAccess.lockCount
      = record.seed.memoryAccess.lockCount := by simp
  rw [updateMemory_eq, hsim, hcount, updatePatch_seed]
  by_cases hblock : x.block = none
  · rw [if_pos hblock, if_pos hblock]
    dsimp only
    rw [PassEffect.single_smul hrecord, List.append_nil]
  rw [if_neg hblock, if_neg hblock]
  split_ifs
  · rw [PassEffect.single_smul hrecord, List.append_nil]
  · rw [PassEffect.single_smul hrecord]
  · rw [PassEffect.single_smul hrecord]

variable (env : BuildEnv)

/-- The effect of `goFunction`. -/
def functionEffect (unit : MaoUnit) (f : MaoFunction × Bool) (seeds : List Record) :
    PassEffect × Option PassFault :=
  if seeds = [] then (1, some .aborted)
  else
    match sampledCalls env unit f.1 f.2 with
    | .error fault => (1, some fault)
    | .ok (calls, exit) =>
      let effect := Halting.effects (sampleEffect stray f.1) calls seeds
      (effect.1, effect.2.or exit)

theorem goFunction_eq (unit : MaoUnit) (files : PassFiles) (f : MaoFunction × Bool) :
    goFunction stray env unit files f
      = Halting.perform PassFiles.seeds (functionEffect stray env unit f) files := by
  rw [goFunction, Halting.perform, functionEffect]
  by_cases hnil : files.raw = []
  · have hseeds : files.seeds = [] := List.map_eq_nil_iff.mpr hnil
    rw [if_pos hnil, if_pos hseeds, one_smul]
  have hseeds : files.seeds ≠ [] := mt List.map_eq_nil_iff.mp hnil
  rw [if_neg hnil, if_neg hseeds]
  rcases sampledCalls env unit f.1 f.2 with fault | ⟨calls, exit⟩
  · dsimp only
    rw [one_smul]
  · have hstep : simulateSample stray f.1 = fun files call ↦
        Halting.perform PassFiles.seeds (sampleEffect stray f.1 call) files := by
      funext files call
      exact simulateSample_eq stray f.1 files call
    dsimp only
    rw [hstep, Halting.run_perform seeds_smul]
    rfl

/-- The effect of `goUnit`. -/
def unitEffect (c : Compilation) : List Record → PassEffect × Option PassFault :=
  Halting.effects (functionEffect stray env c.unit) c.functions

theorem goUnit_eq (files : PassFiles) (c : Compilation) :
    goUnit stray env files c
      = Halting.perform PassFiles.seeds (unitEffect stray env c) files := by
  have hstep : goFunction stray env c.unit = fun files f ↦
      Halting.perform PassFiles.seeds (functionEffect stray env c.unit f) files := by
    funext files f
    exact goFunction_eq stray env c.unit files f
  rw [goUnit, hstep, Halting.run_perform seeds_smul]
  rfl

/-- The effect of a build. -/
def buildEffect (seeds : List Record) : List Compilation → PassEffect
  | [] => 1
  | c :: units => buildEffect seeds units * (unitEffect stray env c seeds).1

/-- **A build is an effect** that depends on what it does not change. -/
theorem build_eq (files : PassFiles) (units : List Compilation) :
    build stray env files units = buildEffect stray env files.seeds units • files := by
  induction units generalizing files with
  | nil => exact (one_smul _ _).symm
  | cons c units ih =>
    rw [build, List.foldl_cons, ← build, ih, goUnit_eq, Halting.perform, seeds_smul, buildEffect,
      mul_smul]

/-! ## Calls of a build -/

/-- A call, with the function it is made for. -/
abbrev PassCall := MaoFunction × SectionInsn × RacezInstructionSample

/-- The effect of a call. -/
def callEffect (c : PassCall) : List Record → PassEffect × Option PassFault :=
  sampleEffect stray c.1 c.2

/-- The functions of a build, each with its unit. -/
def jobs (units : List Compilation) : List (MaoUnit × MaoFunction × Bool) :=
  units.flatMap fun c ↦ c.functions.map (c.unit, ·)

/-- The calls for a function. -/
def jobCalls (job : MaoUnit × MaoFunction × Bool) : List PassCall :=
  match sampledCalls env job.1 job.2.1 job.2.2 with
  | .error _ => []
  | .ok (calls, _) => calls.map (job.2.1, ·)

/-- The raw record a call is for. -/
def PassCall.slot (c : PassCall) : ℕ := c.2.2.index.toNat

@[simp] theorem jobs_cons (c : Compilation) (units : List Compilation) :
    jobs (c :: units) = c.functions.map (c.unit, ·) ++ jobs units := rfl

/-- A call of a build that gets to a record of the log. -/
structure MadeFor (units : List Compilation) (seeds : List Record) (c : PassCall) (k : ℕ)
    (seed : Record) : Prop where
  /-- It is made for a function that is built. -/
  call : ∃ job ∈ jobs units, c ∈ jobCalls env job
  /-- Its sample has the index of the record. -/
  slot : c.slot = k
  /-- There is such a record. -/
  getElem? : seeds[k]? = some seed

/-- Everything the effect stores comes from a call. -/
structure PassEffect.FromCalls (units : List Compilation) (seeds : List Record) (e : PassEffect) :
    Prop where
  /-- An address is stored for the instruction of a call. -/
  address : ∀ k address, (e.patches k).address = some address →
    ∃ c seed, MadeFor env units seeds c k seed
      ∧ (updatePatch seed c.2.1.insn).address = some address
  /-- So is a write flag. -/
  isWrite : ∀ k w, (e.patches k).isWrite = some w →
    ∃ c seed, MadeFor env units seeds c k seed ∧ (updatePatch seed c.2.1.insn).isWrite = some w
  /-- A new record is made by a call. -/
  appended : ∀ n ∈ e.appended,
    ∃ c k seed, MadeFor env units seeds c k seed ∧ n ∈ sampleRecords stray c.1 c.2.1 seed

variable {stray env} {seeds : List Record} {units : List Compilation}

theorem PassEffect.fromCalls_one : (1 : PassEffect).FromCalls stray env units seeds where
  address _ _ h := absurd h nofun
  isWrite _ _ h := absurd h nofun
  appended _ hn := absurd hn List.not_mem_nil

theorem PassEffect.FromCalls.mul {e' e : PassEffect} (h' : e'.FromCalls stray env units seeds)
    (h : e.FromCalls stray env units seeds) : (e' * e).FromCalls stray env units seeds where
  address k address ha := by
    rcases Option.or_eq_some_iff.mp ha with ha | ⟨-, ha⟩
    · exact h'.address k address ha
    · exact h.address k address ha
  isWrite k w hw := by
    rcases Option.or_eq_some_iff.mp hw with hw | ⟨-, hw⟩
    · exact h'.isWrite k w hw
    · exact h.isWrite k w hw
  appended n hn := by
    rcases List.mem_append.mp hn with hn | hn
    · exact h.appended n hn
    · exact h'.appended n hn

/-- The effect of a call is none, or it is on the record of the call. -/
theorem callEffect_cases (c : PassCall) : (callEffect stray c seeds).1 = 1
    ∨ ∃ seed, seeds[c.slot]? = some seed
      ∧ ∃ appended ⊆ sampleRecords stray c.1 c.2.1 seed,
        (callEffect stray c seeds).1 = .single c.slot (updatePatch seed c.2.1.insn) appended := by
  obtain ⟨f, x, sample⟩ := c
  rw [callEffect, sampleEffect]
  dsimp only
  by_cases hneg : sample.index < 0
  · rw [if_pos hneg]
    exact Or.inl rfl
  rw [if_neg hneg]
  rcases hseed : seeds[sample.index.toNat]? with _ | seed
  · exact Or.inl rfl
  refine Or.inr ⟨seed, hseed, ?_⟩
  dsimp only
  by_cases hblock : x.block = none
  · rw [if_pos hblock]
    exact ⟨[], List.nil_subset _, rfl⟩
  rw [if_neg hblock]
  split_ifs
  · exact ⟨[], List.nil_subset _, rfl⟩
  · exact ⟨_, List.Subset.refl _, rfl⟩
  · exact ⟨_, List.Subset.refl _, rfl⟩

private theorem fromCalls_callEffect {c : PassCall}
    (hc : ∃ job ∈ jobs units, c ∈ jobCalls env job) :
    (callEffect stray c seeds).1.FromCalls stray env units seeds := by
  rcases callEffect_cases c with heq | ⟨seed, hseed, appended, hsubset, heq⟩
  · rw [heq]
    exact PassEffect.fromCalls_one
  rw [heq]
  have hmade : MadeFor env units seeds c c.slot seed := ⟨hc, rfl, hseed⟩
  refine ⟨fun k address ha ↦ ?_, fun k w hw ↦ ?_, fun n hn ↦ ⟨c, c.slot, seed, hmade, hsubset hn⟩⟩
  · rcases PassEffect.patches_single_cases c.slot k (updatePatch seed c.2.1.insn) appended
      with hone | ⟨rfl, hpatch⟩
    · rw [hone] at ha
      exact absurd ha nofun
    · exact ⟨c, seed, hmade, hpatch ▸ ha⟩
  · rcases PassEffect.patches_single_cases c.slot k (updatePatch seed c.2.1.insn) appended
      with hone | ⟨rfl, hpatch⟩
    · rw [hone] at hw
      exact absurd hw nofun
    · exact ⟨c, seed, hmade, hpatch ▸ hw⟩

private theorem fromCalls_functionEffect {job : MaoUnit × MaoFunction × Bool}
    (hjob : job ∈ jobs units) :
    (functionEffect stray env job.1 job.2 seeds).1.FromCalls stray env units seeds := by
  rw [functionEffect]
  by_cases hnil : seeds = []
  · rw [if_pos hnil]
    exact PassEffect.fromCalls_one
  rw [if_neg hnil]
  rcases hcalls : sampledCalls env job.1 job.2.1 job.2.2 with fault | ⟨calls, exit⟩
  · exact PassEffect.fromCalls_one
  · refine Halting.effects_induction PassEffect.fromCalls_one
      (fun _ _ ↦ PassEffect.FromCalls.mul) fun call hcall ↦ ?_
    refine @fromCalls_callEffect stray env seeds units (job.2.1, call) ⟨job, hjob, ?_⟩
    rw [jobCalls, hcalls]
    exact List.mem_map_of_mem hcall

variable (stray env units) in
/-- **Everything a build stores comes from a call**, wherever its processes halt. -/
theorem fromCalls_buildEffect :
    (buildEffect stray env seeds units).FromCalls stray env units seeds := by
  -- the calls are those of the whole build, also for a part of it
  suffices h : ∀ part : List Compilation, jobs part ⊆ jobs units →
      (buildEffect stray env seeds part).FromCalls stray env units seeds from
    h units (List.Subset.refl _)
  intro part
  induction part with
  | nil => exact fun _ ↦ PassEffect.fromCalls_one
  | cons c part ih =>
    rw [jobs_cons]
    intro hpart
    refine (ih fun job hjob ↦ hpart (List.mem_append_right _ hjob)).mul ?_
    refine Halting.effects_induction PassEffect.fromCalls_one
      (fun _ _ ↦ PassEffect.FromCalls.mul) fun f hf ↦ ?_
    exact @fromCalls_functionEffect stray env seeds units (c.unit, f)
      (hpart (List.mem_append_left _ (List.mem_map_of_mem hf)))

/-! ## What is stored -/

private theorem isWrite_operandPatch {raw : Record} {insn : InstructionEntry} {i : ℕ}
    {isWrite w : ℤ} (h : (operandPatch raw insn i isWrite).isWrite = some w) : w = isWrite := by
  rw [operandPatch] at h
  by_cases hmem : insn.isMemOperand i = true
  · rw [if_pos hmem] at h
    exact (Option.some.inj h).symm
  · rw [if_neg hmem] at h
    exact absurd h nofun

theorem isWrite_updatePatch {raw : Record} {insn : InstructionEntry} {w : ℤ}
    (h : (updatePatch raw insn).isWrite = some w) : w = 0 ∨ w = 1 := by
  rw [updatePatch] at h
  by_cases hmov : insn.isOpMov = true
  · rw [if_pos hmov] at h
    rcases Option.or_eq_some_iff.mp h with h | ⟨-, h⟩
    · exact Or.inr (isWrite_operandPatch h)
    · exact Or.inl (isWrite_operandPatch h)
  · rw [if_neg hmov] at h
    exact absurd h nofun

theorem memIndex_eq_zero_or_one {insn : InstructionEntry} {i : ℕ} (h : insn.memIndex = some i) :
    (i : ℤ) = 0 ∨ (i : ℤ) = 1 := by
  rw [InstructionEntry.memIndex] at h
  split_ifs at h
  · exact Or.inl (by rw [← Option.some.inj h]; rfl)
  · exact Or.inr (by rw [← Option.some.inj h]; rfl)

theorem exists_newRecord_of_mem {raw n : Record} {pre post : List PlacedInsn} {x : PlacedInsn}
    (h : n ∈ (executeSimWhole stray raw pre x post).1.map NewSample.record) :
    ∃ y, (y ∈ pre ∨ y ∈ post) ∧ ∃ i : ℕ, y.insn.memIndex = some i
      ∧ sampleAddress raw.memoryAccess.memOp y.insn i ≠ -1
      ∧ n = newRecord raw i (instructionAddress raw x.offset y)
        (sampleAddress raw.memoryAccess.memOp y.insn i) := by
  obtain ⟨s, hs, rfl⟩ := List.mem_map.mp h
  obtain ⟨-, ⟨near, far, hl, hfound⟩ | ⟨-, near, far, hl, hfound⟩⟩ := mem_executeSimWhole_iff.mp hs
  · obtain ⟨i, hi, hknown, hrecord⟩ := hfound.record
    refine ⟨s.placed, Or.inl ?_, i, hi, hknown.address, hrecord⟩
    rw [← List.mem_reverse, hl]
    exact List.mem_append_right near List.mem_cons_self
  · obtain ⟨i, hi, hknown, hrecord⟩ := hfound.record
    refine ⟨s.placed, Or.inr ?_, i, hi, hknown.address, hrecord⟩
    rw [hl]
    exact List.mem_append_right near List.mem_cons_self

end Pass

end Racez
