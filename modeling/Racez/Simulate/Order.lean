import Racez.Profile.RoundTrip
import Racez.Simulate.Rebuild

/-!
# The order of a build

In which order functions are compiled is up to the build, and it decides in which order the new
records are appended. As long as every function gets through, nothing else depends on it
(`build_perm`): a line of the profile belongs to one function, so every raw record is sampled once,
and a new record is determined by its raw record and its instruction.

## Calls for different records

`Go` for a function uses the lines of the profile with the name of the function and its file, each
at most once, and each line has an index of its own. So if no two functions have both in common, no
raw record is sampled twice in a build (`nodup_slots_jobs`). The effects of calls for different
records commute, as far as the raw log is concerned, and what they append is the same up to the
order (`effects_perm`).

## The detector

The detector puts the new records into a set ordered by number and instruction address. Two records
of the file that agree on both are equal: the number determines the raw record, the address the
instruction, and the two together what was computed (`keysDetermine_effects`). So the set does not
depend on the order in which the file was written.

## What has to get through

A function that comes to a halt leaves a part of its effects behind, and which part depends on what
was done before in the same unit. The result is for builds in which none does.
-/

open Container

namespace Racez

open Stdio

/-! ## Samples that are used

Whatever the source files, a call uses a sample that was read, with the instruction at its offset.
-/

section Samples

variable {ι : Type*} {fileTable : List (List Char)} {sample : RacezInstructionSample}
  {offset offset' : ℤ} {file file' : List Char} {entries entries' : List (MaoEntry ι)}

private theorem advance_starts_subset
    (h : advance fileTable sample offset file entries = .ok (offset', file', entries')) :
    starts offset' entries' ⊆ starts offset entries := by
  induction entries generalizing offset file with
  | nil =>
    obtain ⟨rfl, rfl, rfl⟩ := Prod.mk.injEq .. ▸ Except.ok.inj h
    exact List.Subset.refl _
  | cons entry entries ih =>
    rw [advance] at h
    by_cases hlt : offset < sample.offset
    · rw [if_pos hlt] at h
      rcases henter : enterEntry fileTable sample file entries with exit | next
      · rw [henter] at h
        cases h
      · rw [henter] at h
        exact List.Subset.trans (ih h) (starts_subset_cons entry)
    · rw [if_neg hlt] at h
      cases h
      exact List.Subset.refl _

private theorem skipToInstruction_starts_subset {insn : ι} {size : ℕ+}
    (h : skipToInstruction sample file entries = .ok (insn, size, entries')) :
    (offset, insn) :: starts (offset + (size : ℕ)) entries' ⊆ starts offset entries := by
  induction entries with
  | nil => cases h
  | cons entry entries ih =>
    rcases entry with ⟨i, n⟩ | n | _
    · cases h
      exact List.Subset.refl _
    · rw [skipToInstruction] at h
      · split_ifs at h
        exact ih h
      · simp
    · rw [skipToInstruction] at h
      · split_ifs at h
        exact ih h
      · simp

private theorem select_starts_subset {x : Selected ι}
    (h : select fileTable sample offset file entries = .ok x) :
    (x.offset, x.insn) :: starts (x.offset + (x.size : ℕ)) x.rest ⊆ starts offset entries := by
  rw [select] at h
  rcases hadvance : advance fileTable sample offset file entries with exit | ⟨o, f, es⟩
  · rw [hadvance] at h
    cases h
  rw [hadvance] at h
  dsimp only at h
  rcases hskip : skipToInstruction sample f es with exit | ⟨insn, size, rest⟩
  · rw [hskip] at h
    cases h
  rw [hskip] at h
  cases h
  exact List.Subset.trans (skipToInstruction_starts_subset hskip) (advance_starts_subset hadvance)

private theorem goLoop_samples_sublist (offset : ℤ) (file : List Char) (entries : List (MaoEntry ι))
    (samples : List RacezInstructionSample) :
    ((goLoop fileTable offset file entries samples).calls.map Prod.snd).Sublist samples := by
  fun_induction goLoop fileTable offset file entries samples with
  | case1 => exact List.Sublist.refl _
  | case2 => exact List.nil_sublist _
  | case3 offset file entries s samples =>
    rw [List.map_map]
    exact List.map_id _ ▸ (List.takeWhile_sublist _).cons_cons s
  | case4 offset file entries s samples =>
    rw [List.map_map]
    exact List.map_id _ ▸ (List.takeWhile_sublist _).cons_cons s
  | case5 offset file entries s samples _ insn size rest _ _ group later calls _ _ next ih =>
    have hgroup : group ++ later = s :: samples :=
      congrArg (s :: ·) List.takeWhile_append_dropWhile
    have hcalls : calls.map Prod.snd = group := by
      rw [List.map_map]
      exact List.map_id _
    rw [List.map_append, hcalls, ← hgroup]
    exact List.Sublist.append (List.Sublist.refl _) ih
  | case6 => exact List.nil_sublist _
  | case7 offset file entries s samples _ _ _ _ _ _ _ _ _ ih => exact ih.cons s

private theorem offset_of_mem_group {s t : RacezInstructionSample}
    {samples : List RacezInstructionSample}
    (h : t ∈ s :: samples.takeWhile fun u ↦ u.offset = s.offset) : t.offset = s.offset := by
  rcases List.mem_cons.mp h with rfl | h
  · rfl
  · simpa using List.mem_takeWhile_imp h

private theorem goLoop_mem_starts {call : ι × RacezInstructionSample} {offset : ℤ}
    {file : List Char} {entries : List (MaoEntry ι)} {samples : List RacezInstructionSample}
    (h : call ∈ (goLoop fileTable offset file entries samples).calls) :
    (call.2.offset, call.1) ∈ starts offset entries := by
  -- all calls of a turn have the instruction that was selected
  have hgroup : ∀ {offset : ℤ} {file : List Char} {entries : List (MaoEntry ι)}
      {s : RacezInstructionSample} {samples : List RacezInstructionSample} {x : Selected ι},
      select fileTable s offset file entries = .ok x → x.offset = s.offset →
      call ∈ (s :: samples.takeWhile fun t ↦ t.offset = s.offset).map (fun t ↦ (x.insn, t)) →
      (call.2.offset, call.1) ∈ starts offset entries := by
    intro offset file entries s samples x hx hoffset hcall
    obtain ⟨t, ht, rfl⟩ := List.mem_map.mp hcall
    have hmem := select_starts_subset hx List.mem_cons_self
    rwa [hoffset, ← offset_of_mem_group ht] at hmem
  fun_induction goLoop fileTable offset file entries samples with
  | case1 => exact absurd h List.not_mem_nil
  | case2 => exact absurd h List.not_mem_nil
  | case3 offset file entries s samples _ insn size rest hx => exact hgroup hx rfl h
  | case4 offset file entries s samples _ insn size rest _ hx => exact hgroup hx rfl h
  | case5 offset file entries s samples _ insn size rest _ hx group later calls _ _ next ih =>
    rcases List.mem_append.mp h with h | h
    · exact hgroup hx rfl h
    · exact select_starts_subset hx (List.mem_cons_of_mem _ (ih h))
  | case6 => exact absurd h List.not_mem_nil
  | case7 offset file entries s samples _ _ _ _ _ hx _ _ _ ih =>
    exact select_starts_subset hx (List.mem_cons_of_mem _ (ih h))

/-- The calls of `Go`: each sample that was read at most once, with the instruction at its
offset. -/
theorem go_calls (fileTable : List (List Char)) (file : List Char) (entries : List (MaoEntry ι))
    (samples : List RacezInstructionSample) :
    (((go fileTable file entries samples).calls.map Prod.snd).Subperm samples)
      ∧ ∀ call ∈ (go fileTable file entries samples).calls,
        (call.2.offset, call.1) ∈ starts 0 entries := by
  rw [go.eq_def]
  split_ifs
  · exact ⟨List.nil_subperm, by simp⟩
  rcases entries with _ | ⟨entry, entries⟩
  · exact ⟨List.nil_subperm, by simp⟩
  dsimp only
  rcases updateSourceFile fileTable file entry with _ | file'
  · exact ⟨List.nil_subperm, by simp⟩
  · exact ⟨(goLoop_samples_sublist _ _ _ _).subperm.trans (sortSamples_perm samples).subperm,
      fun call hcall ↦ goLoop_mem_starts hcall⟩

end Samples

/-! ## All calls of a build -/

section Calls

variable (stray : InstructionEntry → ℕ → Option RegEntry) (env : BuildEnv) {seeds : List Record}

private theorem functionEffect_of_none {job : MaoUnit × MaoFunction × Bool}
    (h : (functionEffect stray env job.1 job.2 seeds).2 = none) :
    functionEffect stray env job.1 job.2 seeds
      = Halting.effects (callEffect stray) (jobCalls env job) seeds := by
  rw [functionEffect] at h ⊢
  by_cases hnil : seeds = []
  · rw [if_pos hnil] at h
    cases h
  rw [if_neg hnil] at h ⊢
  rw [jobCalls]
  rcases hcalls : sampledCalls env job.1 job.2.1 job.2.2 with fault | ⟨calls, exit⟩
  · rw [hcalls] at h
    cases h
  · rw [hcalls] at h
    obtain ⟨-, rfl⟩ := Option.or_eq_none_iff.mp h
    dsimp only
    rw [Halting.effects_map, Option.or_none]
    rfl

private theorem unitEffect_of_none (c : Compilation)
    (h : ∀ f ∈ c.functions, (functionEffect stray env c.unit f seeds).2 = none) :
    unitEffect stray env c seeds
      = Halting.effects (callEffect stray)
        ((c.functions.map (c.unit, ·)).flatMap (jobCalls env)) seeds := by
  rw [unitEffect]
  generalize c.functions = functions at h
  induction functions with
  | nil => rfl
  | cons f functions ih =>
    obtain ⟨hf, hfunctions⟩ := List.forall_mem_cons.mp h
    have hcalls : functionEffect stray env c.unit f seeds
        = Halting.effects (callEffect stray) (jobCalls env (c.unit, f)) seeds :=
      @functionEffect_of_none stray env seeds (c.unit, f) hf
    have hnone := Halting.effects_snd_eq_none_iff.mp (hcalls ▸ hf)
    rw [Halting.effects_cons_of_none hf, ih hfunctions, hcalls, List.map_cons, List.flatMap_cons,
      Halting.effects_append hnone]

/-- **All calls of a build** in which all functions get through, as one run. -/
theorem buildEffect_of_none (units : List Compilation)
    (h : ∀ job ∈ jobs units, (functionEffect stray env job.1 job.2 seeds).2 = none) :
    (∀ c ∈ (jobs units).flatMap (jobCalls env), (callEffect stray c seeds).2 = none)
      ∧ buildEffect stray env seeds units
        = (Halting.effects (callEffect stray) ((jobs units).flatMap (jobCalls env)) seeds).1 := by
  refine ⟨fun c hc ↦ ?_, ?_⟩
  · obtain ⟨job, hjob, hc⟩ := List.mem_flatMap.mp hc
    have hnone := functionEffect_of_none stray env (h job hjob) ▸ h job hjob
    exact Halting.effects_snd_eq_none_iff.mp hnone c hc
  · induction units with
    | nil => rfl
    | cons c units ih =>
      rw [jobs_cons] at h
      have hfunctions : ∀ f ∈ c.functions,
          (functionEffect stray env c.unit f seeds).2 = none := fun f hf ↦
        h (c.unit, f) (List.mem_append_left _ (List.mem_map_of_mem hf))
      have hunits := ih fun job hjob ↦ h job (List.mem_append_right _ hjob)
      have hunit := unitEffect_of_none stray env c hfunctions
      have hnone := Halting.effects_snd_eq_none_iff.mpr hfunctions
      rw [buildEffect, hunits, hunit, jobs_cons, List.flatMap_append, Halting.effects_append]
      exact Halting.effects_snd_eq_none_iff.mp (hunit ▸ hnone)

private theorem callEffect_of_none {c : PassCall} (h : (callEffect stray c seeds).2 = none) :
    ∃ seed, seeds[c.slot]? = some seed
      ∧ (callEffect stray c seeds).1 = .single c.slot (updatePatch seed c.2.1.insn)
        (sampleRecords stray c.1 c.2.1 seed) := by
  obtain ⟨f, x, sample⟩ := c
  rw [callEffect, sampleEffect] at h ⊢
  dsimp only at h ⊢
  by_cases hneg : sample.index < 0
  · rw [if_pos hneg] at h
    cases h
  rw [if_neg hneg] at h ⊢
  rw [PassCall.slot]
  rcases hseed : seeds[sample.index.toNat]? with _ | seed
  · rw [hseed] at h
    cases h
  rw [hseed] at h
  dsimp only at h ⊢
  refine ⟨seed, rfl, ?_⟩
  by_cases hblock : x.block = none
  · rw [if_pos hblock] at h
    cases h
  rw [if_neg hblock] at h ⊢
  split_ifs at h ⊢
  rfl

/-! ## Calls for different records -/

variable {stray} {calls calls' : List PassCall}

private theorem appended_effects (hnone : ∀ c ∈ calls, (callEffect stray c seeds).2 = none) :
    (Halting.effects (callEffect stray) calls seeds).1.appended
      = calls.flatMap fun c ↦ (callEffect stray c seeds).1.appended := by
  induction calls with
  | nil => rfl
  | cons c calls ih =>
    obtain ⟨hc, hcalls⟩ := List.forall_mem_cons.mp hnone
    rw [Halting.effects_cons_of_none hc, PassEffect.appended_mul, ih hcalls, List.flatMap_cons]

private theorem patches_callEffect {c : PassCall} (h : (callEffect stray c seeds).2 = none) {k : ℕ}
    (hk : c.slot ≠ k) : (callEffect stray c seeds).1.patches k = 1 := by
  obtain ⟨seed, -, heq⟩ := callEffect_of_none stray h
  rw [heq]
  exact Pi.mulSingle_eq_of_ne (Ne.symm hk) _

private theorem patches_effects_eq_one (hnone : ∀ c ∈ calls, (callEffect stray c seeds).2 = none)
    {k : ℕ} (hk : ∀ c ∈ calls, c.slot ≠ k) :
    (Halting.effects (callEffect stray) calls seeds).1.patches k = 1 := by
  induction calls with
  | nil => rfl
  | cons c calls ih =>
    obtain ⟨hc, hcalls⟩ := List.forall_mem_cons.mp hnone
    obtain ⟨hck, hcallsk⟩ := List.forall_mem_cons.mp hk
    rw [Halting.effects_cons_of_none hc, PassEffect.patches_mul, Pi.mul_apply, ih hcalls hcallsk,
      patches_callEffect hc hck, one_mul]

private theorem patches_effects_of_mem (hnone : ∀ c ∈ calls, (callEffect stray c seeds).2 = none)
    (hslots : (calls.map PassCall.slot).Nodup) {c : PassCall} (hc : c ∈ calls) :
    (Halting.effects (callEffect stray) calls seeds).1.patches c.slot
      = (callEffect stray c seeds).1.patches c.slot := by
  induction calls with
  | nil => exact absurd hc List.not_mem_nil
  | cons b calls ih =>
    obtain ⟨hb, hcalls⟩ := List.forall_mem_cons.mp hnone
    obtain ⟨hfresh, hslots⟩ := List.nodup_cons.mp hslots
    rw [Halting.effects_cons_of_none hb, PassEffect.patches_mul, Pi.mul_apply]
    rcases List.mem_cons.mp hc with rfl | hc
    · have hrest : ∀ d ∈ calls, d.slot ≠ c.slot := fun d hd heq ↦
        hfresh (heq ▸ List.mem_map_of_mem hd)
      rw [patches_effects_eq_one hcalls hrest, one_mul]
    · have hne : b.slot ≠ c.slot := fun heq ↦ hfresh (heq ▸ List.mem_map_of_mem hc)
      rw [ih hcalls hslots hc, patches_callEffect hb hne, mul_one]

/-- Calls for different records may be made in any order. -/
theorem effects_perm (hperm : calls.Perm calls')
    (hnone : ∀ c ∈ calls, (callEffect stray c seeds).2 = none)
    (hslots : (calls.map PassCall.slot).Nodup) :
    (Halting.effects (callEffect stray) calls seeds).1.patches
        = (Halting.effects (callEffect stray) calls' seeds).1.patches
      ∧ (Halting.effects (callEffect stray) calls seeds).1.appended.Perm
        (Halting.effects (callEffect stray) calls' seeds).1.appended := by
  have hnone' : ∀ c ∈ calls', (callEffect stray c seeds).2 = none := fun c hc ↦
    hnone c (hperm.mem_iff.mpr hc)
  refine ⟨?_, ?_⟩
  · funext k
    by_cases hk : ∀ c ∈ calls, c.slot ≠ k
    · rw [patches_effects_eq_one hnone hk,
        patches_effects_eq_one hnone' fun c hc ↦ hk c (hperm.mem_iff.mpr hc)]
    · simp only [not_forall, not_not] at hk
      obtain ⟨c, hc, rfl⟩ := hk
      rw [patches_effects_of_mem hnone hslots hc, patches_effects_of_mem hnone'
        ((hperm.map PassCall.slot).nodup_iff.mp hslots) (hperm.mem_iff.mp hc)]
  · rw [appended_effects hnone, appended_effects hnone']
    exact hperm.flatMap_right _

/-! ## Records by their keys -/

private theorem MaoFunction.eq_of_offset_eq (f : MaoFunction) {x y : SectionInsn} (hx : x ∈ f.insns)
    (hy : y ∈ f.insns) (h : x.offset = y.offset) : x = y := by
  obtain ⟨p, hp, rfl⟩ := List.mem_map.mp hx
  obtain ⟨q, hq, rfl⟩ := List.mem_map.mp hy
  rw [f.offset_eq p hp, f.offset_eq q hq, add_right_inj] at h
  have hp' := instructionAt_of_mem hp
  rw [h, instructionAt_of_mem hq] at hp'
  exact (Option.some.inj hp').symm

private theorem MaoFunction.exists_insn_of_mem (f : MaoFunction) {x : SectionInsn} {y : PlacedInsn}
    (h : y ∈ f.blockBefore x ∨ y ∈ f.blockAfter x) : ∃ z ∈ f.insns, z.toPlacedInsn = y := by
  rcases h with h | h
  · obtain ⟨z, hz, rfl⟩ := List.mem_map.mp h
    exact ⟨z, f.insnsBefore_subset x hz, rfl⟩
  · obtain ⟨z, hz, rfl⟩ := List.mem_map.mp h
    exact ⟨z, f.insnsAfter_subset x hz, rfl⟩

private theorem MaoFunction.offset_eq_of_address_eq (f : MaoFunction) {x y : SectionInsn}
    (hx : x ∈ f.insns) (hy : y ∈ f.insns) {raw : Record} {origin : ℤ}
    (h : instructionAddress raw origin x.toPlacedInsn
      = instructionAddress raw origin y.toPlacedInsn) : x.offset = y.offset := by
  obtain ⟨p, hp, rfl⟩ := List.mem_map.mp hx
  obtain ⟨q, hq, rfl⟩ := List.mem_map.mp hy
  have hpint := f.int_offset p hp
  have hqint := f.int_offset q hq
  have heq := congrArg BitVec.toNat (add_left_cancel h)
  simp only [BitVec.toNat_ofInt] at heq
  omega

private theorem eq_of_mem_sampleRecords {f : MaoFunction} {x : SectionInsn} {seed n n' : Record}
    (hn : n ∈ sampleRecords stray f x seed) (hn' : n' ∈ sampleRecords stray f x seed)
    (h : n.memoryAccess.pip = n'.memoryAccess.pip) : n = n' := by
  obtain ⟨y, hy, i, hi, -, rfl⟩ := exists_newRecord_of_mem hn
  obtain ⟨y', hy', i', hi', -, rfl⟩ := exists_newRecord_of_mem hn'
  obtain ⟨z, hz, rfl⟩ := f.exists_insn_of_mem hy
  obtain ⟨z', hz', rfl⟩ := f.exists_insn_of_mem hy'
  have hpip : instructionAddress seed x.offset z.toPlacedInsn
      = instructionAddress seed x.offset z'.toPlacedInsn := h
  obtain rfl := f.eq_of_offset_eq hz hz' (f.offset_eq_of_address_eq hz hz' hpip)
  obtain rfl := Option.some.inj (hi.symm.trans hi')
  rfl

/-- The records of a log have different numbers. -/
def DistinctNumbers (raw : List Record) : Prop := (raw.map Record.recordNo).Nodup

private theorem DistinctNumbers.eq (h : DistinctNumbers seeds) {k k' : ℕ} {r r' : Record}
    (hr : seeds[k]? = some r) (hr' : seeds[k']? = some r') (hno : r.recordNo = r'.recordNo) :
    k = k' := by
  obtain ⟨hk, rfl⟩ := List.getElem?_eq_some_iff.mp hr
  obtain ⟨hk', rfl⟩ := List.getElem?_eq_some_iff.mp hr'
  have hlen : k < (seeds.map Record.recordNo).length := by rwa [List.length_map]
  have hlen' : k' < (seeds.map Record.recordNo).length := by rwa [List.length_map]
  refine (List.Nodup.getElem_inj_iff h).mp (?_ : (seeds.map _)[k] = (seeds.map _)[k'])
  rwa [List.getElem_map, List.getElem_map]

/-- The keys of the order determine a new record. -/
theorem keysDetermine_effects (hnumbers : DistinctNumbers seeds)
    (hnone : ∀ c ∈ calls, (callEffect stray c seeds).2 = none)
    (hslots : (calls.map PassCall.slot).Nodup) :
    KeysDetermine (Halting.effects (callEffect stray) calls seeds).1.appended := by
  rw [appended_effects hnone]
  intro n hn n' hn' hno hpip
  obtain ⟨c, hc, hn⟩ := List.mem_flatMap.mp hn
  obtain ⟨c', hc', hn'⟩ := List.mem_flatMap.mp hn'
  obtain ⟨seed, hseed, heq⟩ := callEffect_of_none stray (hnone c hc)
  obtain ⟨seed', hseed', heq'⟩ := callEffect_of_none stray (hnone c' hc')
  rw [heq] at hn
  rw [heq'] at hn'
  -- the number leads back to the raw record, and so to the call
  obtain ⟨_, -, i, -, -, hi⟩ := exists_newRecord_of_mem hn
  obtain ⟨_, -, i', -, -, hi'⟩ := exists_newRecord_of_mem hn'
  have hseedno : seed.recordNo = seed'.recordNo := by
    rw [hi, hi'] at hno
    exact hno
  have hslot : c.slot = c'.slot := hnumbers.eq hseed hseed' hseedno
  obtain rfl := List.inj_on_of_nodup_map hslots hc hc' hslot
  obtain rfl := Option.some.inj (hseed.symm.trans hseed')
  exact eq_of_mem_sampleRecords hn hn' hpip

end Calls

/-! ## Calls for a profile -/

/-- The source file of the functions of a unit. -/
def MaoUnit.sourceFile (unit : MaoUnit) : Option (List Char) :=
  match buildFileTable unit.workingDir unit.sections with
  | .error _ => none
  | .ok fileTable => fileTable[1]?

section Profile

variable (inPlace : ℕ → Bool) {placed : List (ProfileEntry × ℕ)}

/-- A build with the lines of some entries, each with its index. -/
def placedEnv (placed : List (ProfileEntry × ℕ)) : BuildEnv :=
  ⟨some ((placed.filterMap profileLine).flatMap ProfileLine.print), inPlace⟩

variable (hplaces : ∀ p ∈ placed, p.2 < 2 ^ 31) (job : MaoUnit × MaoFunction × Bool)

include hplaces

private theorem sampledCalls_placedEnv {fileTable : List (List Char)} {file : List Char}
    (htable : buildFileTable job.1.workingDir job.1.sections = .ok fileTable)
    (hfile : fileTable[1]? = some file) :
    sampledCalls (placedEnv inPlace placed) job.1 job.2.1 job.2.2
      = .ok ((go fileTable file job.2.1.entries
            (placed.filterMap (sampleOf job.2.1.name file))).calls,
          (go fileTable file job.2.1.entries
            (placed.filterMap (sampleOf job.2.1.name file))).exit.fault job.2.2) := by
  -- the name of a source file has a directory
  have hne : file ≠ "??".toList := by
    rintro rfl
    have hslash := slash_mem_of_mem_buildFileTable htable _ (List.mem_of_getElem? hfile)
    exact absurd hslash (by decide)
  rw [sampledCalls, htable]
  dsimp only
  rw [hfile]
  dsimp only
  rw [placedEnv, read]
  dsimp only
  rw [readLines_text hplaces, readSamples_print job.2.1.name hne hplaces]
  rfl

private theorem exists_go_of_jobCalls : jobCalls (placedEnv inPlace placed) job = []
    ∨ ∃ fileTable file, job.1.sourceFile = some file
      ∧ jobCalls (placedEnv inPlace placed) job
        = (go fileTable file job.2.1.entries
            (placed.filterMap (sampleOf job.2.1.name file))).calls.map (job.2.1, ·) := by
  rw [jobCalls, MaoUnit.sourceFile]
  rcases htable : buildFileTable job.1.workingDir job.1.sections with fault | fileTable
  · left
    rw [sampledCalls, htable]
  rcases hfile : fileTable[1]? with _ | file
  · left
    rw [sampledCalls, htable]
    dsimp only
    rw [hfile]
  · right
    rw [sampledCalls_placedEnv inPlace hplaces job htable hfile]
    exact ⟨fileTable, file, hfile, rfl⟩

variable {inPlace job}

theorem mem_jobCalls {c : PassCall} (hc : c ∈ jobCalls (placedEnv inPlace placed) job) :
    c.1 = job.2.1 ∧ (c.2.2.offset, c.2.1) ∈ starts 0 c.1.entries
      ∧ ∃ p ∈ placed, c.2.2.index = p.2 ∧ c.2.2.offset = p.1.offset.toInt
        ∧ p.1.name = job.2.1.name ∧ job.1.sourceFile = some p.1.file := by
  rcases exists_go_of_jobCalls inPlace hplaces job with hnil | ⟨fileTable, file, hfile, hcalls⟩
  · exact absurd (hnil ▸ hc) List.not_mem_nil
  rw [hcalls] at hc
  obtain ⟨⟨x, s⟩, hcall, rfl⟩ := List.mem_map.mp hc
  obtain ⟨hsubperm, hstarts⟩ := go_calls fileTable file job.2.1.entries
    (placed.filterMap (sampleOf job.2.1.name file))
  refine ⟨rfl, hstarts _ hcall, ?_⟩
  have hs := hsubperm.subset (List.mem_map_of_mem hcall)
  obtain ⟨p, hp, hsample⟩ := List.mem_filterMap.mp hs
  rw [sampleOf] at hsample
  split_ifs at hsample with hmatch
  obtain rfl := Option.some.inj hsample
  refine ⟨p, hp, rfl, rfl, hmatch.1, ?_⟩
  rw [hfile, hmatch.2]

/-- Every line of the profile is used at most once for a function. -/
theorem nodup_slots_jobCalls (hnodup : (placed.map Prod.snd).Nodup) :
    ((jobCalls (placedEnv inPlace placed) job).map PassCall.slot).Nodup := by
  rcases exists_go_of_jobCalls inPlace hplaces job with hnil | ⟨fileTable, file, hfile, hcalls⟩
  · rw [hnil]
    exact List.nodup_nil
  obtain ⟨hsubperm, -⟩ := go_calls fileTable file job.2.1.entries
    (placed.filterMap (sampleOf job.2.1.name file))
  have hslots : (placed.filterMap (sampleOf job.2.1.name file)).Pairwise fun s t ↦
      s.index.toNat ≠ t.index.toNat := by
    refine (List.pairwise_map.mp hnodup).filterMap _ ?_
    rintro ⟨e, k⟩ ⟨e', k'⟩ hne s hs t ht
    rw [sampleOf] at hs ht
    split_ifs at hs ht
    obtain rfl := Option.some.inj hs
    obtain rfl := Option.some.inj ht
    exact hne
  -- the samples that are used are some of these, in another order
  obtain ⟨used, hperm, hsub⟩ := hsubperm
  have hused : (used.map fun s ↦ s.index.toNat).Nodup :=
    List.pairwise_map.mpr (hslots.sublist hsub)
  rw [hcalls, List.map_map]
  have hnodup := (hperm.map fun s ↦ s.index.toNat).nodup_iff.mp hused
  rw [List.map_map] at hnodup
  exact hnodup

end Profile

section Combine

variable (strcmp : Strcmp) (inPlace : ℕ → Bool) {entries : List ProfileEntry}

/-- A build with the profile that was made of the entries. -/
def profileEnv (entries : List ProfileEntry) : BuildEnv :=
  ⟨some (combine strcmp (functionFile entries) (filenameFile entries)).text, inPlace⟩

private theorem profileEnv_eq (hlen : entries.length < 2 ^ 31) :
    profileEnv strcmp inPlace entries = placedEnv inPlace entries.zipIdx := by
  rw [profileEnv, combine, zip_fgetsAll, combineLoop_entries (by omega)]
  rfl

theorem snd_lt_of_mem_zipIdx (hlen : entries.length < 2 ^ 31) :
    ∀ p ∈ entries.zipIdx, p.2 < 2 ^ 31 := by
  intro p hp
  have hlt := List.snd_lt_of_mem_zipIdx hp
  omega

end Combine

/-! ## Builds in another order -/

section Order

variable (stray : InstructionEntry → ℕ → Option RegEntry) {strcmp : Strcmp} {inPlace : ℕ → Bool}
  {entries : List ProfileEntry} {units units' : List Compilation} {raw : List Record}

/-- No two functions have their name and their source file in common. -/
def DistinctFunctions (units : List Compilation) : Prop :=
  (jobs units).Pairwise fun job job' ↦
    job.2.1.name ≠ job'.2.1.name ∨ job.1.sourceFile ≠ job'.1.sourceFile

theorem nodup_slots_jobs (hlen : entries.length < 2 ^ 31) (hdistinct : DistinctFunctions units) :
    (((jobs units).flatMap (jobCalls (profileEnv strcmp inPlace entries))).map
      PassCall.slot).Nodup := by
  have hplaces := snd_lt_of_mem_zipIdx hlen
  have hnodup : (entries.zipIdx.map Prod.snd).Nodup := by
    rw [List.zipIdx_map_snd]
    exact List.nodup_range'
  rw [profileEnv_eq strcmp inPlace hlen, List.map_flatMap, List.nodup_flatMap]
  refine ⟨fun job _ ↦ nodup_slots_jobCalls hplaces hnodup, hdistinct.imp ?_⟩
  intro job job' hne
  refine List.disjoint_left.mpr fun k hk hk' ↦ ?_
  obtain ⟨c, hc, rfl⟩ := List.mem_map.mp hk
  obtain ⟨c', hc', hslot⟩ := List.mem_map.mp hk'
  obtain ⟨-, -, p, hp, hindex, -, hname, hfile⟩ := mem_jobCalls hplaces hc
  obtain ⟨-, -, p', hp', hindex', -, hname', hfile'⟩ := mem_jobCalls hplaces hc'
  rw [PassCall.slot, PassCall.slot, hindex, hindex', Int.toNat_natCast, Int.toNat_natCast] at hslot
  obtain rfl := List.inj_on_of_nodup_map hnodup hp' hp hslot
  rcases hne with hne | hne
  · exact hne (hname.symm.trans hname')
  · exact hne (hfile.trans hfile'.symm)

private theorem distinctNumbers_seeds (h : DistinctNumbers raw) :
    DistinctNumbers (PassFiles.seeds ⟨raw, []⟩) := by
  have hmap : raw.map (Record.recordNo ∘ Record.seed) = raw.map Record.recordNo :=
    List.map_congr_left fun r _ ↦ Record.recordNo_seed r
  rw [DistinctNumbers, PassFiles.seeds, List.map_map, hmap]
  exact h

private theorem distinctNumbers_loggedRecords {memory : ℕ → Record} {producers : List Producer}
    (hroom : producers.length < bufferSize) (hno : (memory 0).recordNo ≤ 0) :
    DistinctNumbers (loggedRecords memory producers) :=
  List.pairwise_map.mpr ((pairwise_loggedRecords hroom hno).imp ne_of_lt)

/-- **The order of a build** does not matter to the detector, if every function gets through and
none is there twice. The raw log comes out the same, and the file of new records up to the order. -/
theorem build_perm {memory : ℕ → Record} {producers : List Producer}
    (hroom : producers.length < bufferSize) (hno : (memory 0).recordNo ≤ 0)
    (hlen : entries.length < 2 ^ 31) (hperm : (jobs units).Perm (jobs units'))
    (hdistinct : DistinctFunctions units)
    (hthrough : ∀ job ∈ jobs units, (goFunction stray (profileEnv strcmp inPlace entries) job.1
      ⟨loggedRecords memory producers, []⟩ job.2).2 = none) :
    let after := build stray (profileEnv strcmp inPlace entries)
      ⟨loggedRecords memory producers, []⟩ units
    let after' := build stray (profileEnv strcmp inPlace entries)
      ⟨loggedRecords memory producers, []⟩ units'
    after.raw = after'.raw ∧ after.new.Perm after'.new
      ∧ ∀ enableMemoryReuse, detect enableMemoryReuse after.raw (some after.new)
        = detect enableMemoryReuse after'.raw (some after'.new) := by
  intro after after'
  set env := profileEnv strcmp inPlace entries
  set files : PassFiles := ⟨loggedRecords memory producers, []⟩ with hfiles
  have hnone : ∀ job ∈ jobs units,
      (functionEffect stray env job.1 job.2 files.seeds).2 = none := fun job hjob ↦ by
    rw [← hthrough job hjob, goFunction_eq]
    rfl
  obtain ⟨hcalls, heffect⟩ := buildEffect_of_none stray env units hnone
  obtain ⟨-, heffect'⟩ := buildEffect_of_none stray env units' fun job hjob ↦
    hnone job (hperm.mem_iff.mpr hjob)
  have hslots := @nodup_slots_jobs strcmp inPlace entries units hlen hdistinct
  obtain ⟨hpatches, happended⟩ := effects_perm (hperm.flatMap_right (jobCalls env)) hcalls hslots
  have hkeys := keysDetermine_effects (distinctNumbers_seeds
    (distinctNumbers_loggedRecords hroom hno)) hcalls hslots
  rw [← heffect, ← heffect'] at hpatches happended
  rw [← heffect] at hkeys
  have hafter : after = buildEffect stray env files.seeds units • files := build_eq _ _ _ _
  have hafter' : after' = buildEffect stray env files.seeds units' • files := build_eq _ _ _ _
  have hraw : after.raw = after'.raw := by
    rw [hafter, hafter', PassEffect.raw_smul, PassEffect.raw_smul, hpatches]
  have hnew : after.new.Perm after'.new := by
    rw [hafter, hafter', PassEffect.new_smul, PassEffect.new_smul]
    exact happended
  refine ⟨hraw, hnew, fun reuse ↦ ?_⟩
  have hpassed := passedRecords_eq_of_mem_iff after.raw (fun r ↦ hnew.mem_iff) (hafter ▸ hkeys)
  rw [detect, detect, hpassed, hraw]

end Order

/-! ## A build of two functions -/

/-- A unit with one source file. -/
def oneFileUnit : MaoUnit := ⟨some "/src".toList, [.file [.int 1, .string "\"a.c\"".toList]]⟩

/-- A load, in a block of its own. -/
def loadInsn : SectionInsn :=
  ⟨⟨0, ⟨.mov, [.memory none, .register (.r64 .rax)], some (.r64 .rbx), none,
    InstructionEntry.noScale⟩⟩, some 0⟩

/-- A function with one load. -/
def loadFunction : MaoFunction where
  name := "main".toList
  base := 0
  entries := [.instruction loadInsn 7, .other]
  offset_eq := by simp [starts, loadInsn]
  int_offset := by simp [starts, loadInsn]

/-- A function without instructions. -/
def emptyFunction : MaoFunction where
  name := "idle".toList
  base := 0
  entries := []
  offset_eq := by simp [starts]
  int_offset := by simp [starts]

/-- A sample of a function that is not built. -/
def startEntry : ProfileEntry where
  file := "/src/a.c".toList
  suffix := "3".toList
  name := "start".toList
  offset := 0
  file_clean := mainEntry.file_clean
  suffix_clean := mainEntry.suffix_clean
  name_clean := by
    simp only [List.forall_mem_cons, List.not_mem_nil, IsEmpty.forall_iff, implies_true, and_true]
    decide
  filename_fits := mainEntry.filename_fits
  function_fits := by decide

/-- A sample of the load, in the second record of the log. -/
def loadSample : List Producer :=
  [.ibs ⟨false, false⟩ ⟨7, [], Vector.replicate 23 0, none⟩ 0 64 true]

private theorem sampledCalls_oneFileUnit (f : MaoFunction) (overEnd : Bool) :
    sampledCalls (profileEnv Strcmp.sign (fun _ ↦ true) [startEntry, mainEntry]) oneFileUnit f
        overEnd
      = .ok ((go [[], sourceFile] sourceFile f.entries
            ([startEntry, mainEntry].zipIdx.filterMap (sampleOf f.name sourceFile))).calls,
          (go [[], sourceFile] sourceFile f.entries
            ([startEntry, mainEntry].zipIdx.filterMap (sampleOf f.name sourceFile))).exit.fault
              overEnd) := by
  rw [profileEnv_eq Strcmp.sign _ (by decide)]
  exact sampledCalls_placedEnv _ (snd_lt_of_mem_zipIdx (by decide)) (oneFileUnit, f, overEnd)
    rfl rfl

private theorem sampledCalls_loadFunction :
    sampledCalls (profileEnv Strcmp.sign (fun _ ↦ true) [startEntry, mainEntry]) oneFileUnit
        loadFunction true
      = .ok ([(loadInsn, sampleAt 0 1)], none) := by
  have hsamples : [startEntry, mainEntry].zipIdx.filterMap (sampleOf loadFunction.name sourceFile)
      = [sampleAt 0 1] := by decide
  have hsort : sortSamples [sampleAt 0 1] = [sampleAt 0 1] := List.mergeSort_singleton _
  rw [sampledCalls_oneFileUnit, hsamples, go.eq_def, hsort]
  simp only [loadFunction, updateSourceFile]
  rw [goLoop]
  rfl

theorem samplesAccesses_loadFunction {raw : List Record}
    (h : raw[1]?.map Record.type = some .memoryOp) :
    SamplesAccesses (profileEnv Strcmp.sign (fun _ ↦ true) [startEntry, mainEntry])
      [⟨oneFileUnit, [(loadFunction, true)]⟩] raw := by
  intro job hjob c hc
  obtain rfl := List.mem_singleton.mp hjob
  rw [jobCalls, sampledCalls_loadFunction] at hc
  obtain rfl := List.mem_singleton.mp hc
  exact ⟨by decide, Option.map_eq_some_iff.mp h⟩

private theorem goFunction_loadFunction (stray : InstructionEntry → ℕ → Option RegEntry) :
    (goFunction stray (profileEnv Strcmp.sign (fun _ ↦ true) [startEntry, mainEntry]) oneFileUnit
      ⟨loggedRecords (fun _ ↦ .zeroed) loadSample, []⟩ (loadFunction, true)).2 = none := by
  rw [goFunction, sampledCalls_loadFunction]
  rfl

private theorem goFunction_emptyFunction (stray : InstructionEntry → ℕ → Option RegEntry) :
    (goFunction stray (profileEnv Strcmp.sign (fun _ ↦ true) [startEntry, mainEntry]) oneFileUnit
      ⟨loggedRecords (fun _ ↦ .zeroed) loadSample, []⟩ (emptyFunction, true)).2 = none := by
  have hsamples : [startEntry, mainEntry].zipIdx.filterMap (sampleOf emptyFunction.name sourceFile)
      = [] := by decide
  have hsort : sortSamples [] = [] := List.mergeSort_nil
  rw [goFunction, sampledCalls_oneFileUnit, hsamples, go.eq_def, if_pos hsort]
  rfl

/-- Two functions of a unit, the other way round. -/
theorem build_perm_twoFunctions :
    let stray : InstructionEntry → ℕ → Option RegEntry := fun _ _ ↦ none
    let env := profileEnv Strcmp.sign (fun _ ↦ true) [startEntry, mainEntry]
    let files : PassFiles := ⟨loggedRecords (fun _ ↦ .zeroed) loadSample, []⟩
    let after := build stray env files
      [⟨oneFileUnit, [(loadFunction, true), (emptyFunction, true)]⟩]
    let after' := build stray env files
      [⟨oneFileUnit, [(emptyFunction, true), (loadFunction, true)]⟩]
    after.raw = after'.raw ∧ after.new.Perm after'.new
      ∧ ∀ enableMemoryReuse, detect enableMemoryReuse after.raw (some after.new)
        = detect enableMemoryReuse after'.raw (some after'.new) := by
  refine @build_perm (fun _ _ ↦ none) Strcmp.sign (fun _ ↦ true) [startEntry, mainEntry] _ _
    (fun _ ↦ .zeroed) loadSample (by decide) (by decide) (by decide) (List.Perm.swap _ _ _) ?_ ?_
  · exact List.pairwise_pair.mpr (Or.inl (by decide))
  · intro job hjob
    rcases List.mem_pair.mp hjob with rfl | rfl
    · exact goFunction_loadFunction _
    · exact goFunction_emptyFunction _

end Racez
