import Racez.Convert.Addresses
import Racez.Simulate.Order

/-!
# Where samples end up

A sample goes a long way from the log to an instruction: `convert` prints its address, looks it up
in the symbol table and prints the distance from a symbol; addr2line finds the source file; the
lines are put together, read again in another program, selected by function and file, sorted, and
compared with the offsets of instructions. What comes out is an instruction at the address the
sample came with (`located_of_mem_jobCalls`), in a function of the name and the file that were
found, whatever else the profile holds. So a build never looks for a sample outside of the log
(`goUnit_keeps_to_memory`), and whatever it stores is for such an instruction (`located_build`).

## Representation

What addr2line prints is a list of locations, one for each line of its input, and an unknown one for
a line that is not an address.

## Conversions

`Conversion` collects what `convert` is given, with three assumptions as fields. The symbols are
clean: no separators in a name, and a line with it fits into the buffer of `Combine`. addr2line
prints one line for each of its input. And it knows no location for a record that is not an access,
for which it is given a word and not an address. Without the first and the last, lines are shifted,
or a record that is not an access gets into the profile; all results below depend on them.

## The way back

Each part of the way is inverted. A line of the profile was written for an access of the log, whose
address has the symbol as its floor (`exists_explains`). A sample that `Read` keeps is such a line
with the name and the file that were asked for. A call of `Go` has the instruction that starts at
the offset of its sample. `Located` is what comes out of this for a record and an instruction, and
no step of it looks at what the pass has already stored.

## Memory

An index is that of a record in the log, and a new record is made of an access, so the only way to
leave the memory of the pass is a lockset that was overrun (`callEffect_leavesMemory`).
-/

namespace Racez

open SortedVector Stdio

/-! ## Conversions -/

/-- A line of addr2line. -/
structure Location where
  /-- The source file. -/
  file : List Char
  /-- What stands behind the colon. -/
  suffix : List Char
  /-- The file keeps clear of the separators. -/
  file_clean : ∀ c ∈ [':', '\t', '\n', '\x00'], c ∉ file
  /-- So does what is behind the colon. -/
  suffix_clean : ∀ c ∈ ['\t', '\n', '\x00'], c ∉ suffix
  /-- The line fits into its buffer. -/
  fits : Fits 2000 (file ++ ':' :: suffix)

def Location.line (l : Location) : List Char := l.file ++ ':' :: l.suffix

/-- The name of a symbol keeps clear of the separators, and a line with it fits. -/
structure FunctionEntry.Clean (f : FunctionEntry) : Prop where
  /-- The name keeps clear of the separators. -/
  name : ∀ c ∈ ['\t', '\n', '\x00'], c ∉ f.functionName
  /-- The line of `ConvertIP` fits into its buffer, whatever the offset. -/
  fits : ∀ d : BitVec 64, Fits 200 (f.functionName ++ '\t' :: decimal d.toInt)

/-- What `convert` is given: the log, the symbols and the locations. -/
structure Conversion where
  /-- The comparison of `Combine`. -/
  strcmp : Strcmp
  /-- What `std::sort` does. -/
  sorting : Sorting MyCompare
  /-- The log. -/
  records : List Record
  /-- The symbol table. -/
  functions : List FunctionEntry
  /-- What addr2line prints. -/
  locations : List Location
  /-- An assumption: the symbols are clean. -/
  clean : ∀ f ∈ functions, f.Clean
  /-- An assumption: addr2line prints one line for each of its input. -/
  length_eq : locations.length = records.length
  /-- addr2line is given an address for each access and a word for any other record. -/
  unknown : ∀ (k : ℕ) (r : Record) (l : Location), records[k]? = some r → r.type ≠ .memoryOp →
    locations[k]? = some l → IsUnknown l.line

namespace Conversion

variable (conv : Conversion)

/-- The profile. -/
def output : Combined :=
  convert conv.strcmp conv.sorting conv.records conv.functions
    (joinLines (conv.locations.map Location.line))

/-- A build with that profile. -/
def env (inPlace : ℕ → Bool) : BuildEnv := ⟨some conv.output.text, inPlace⟩

/-- A sample of the profile goes back to an access in the log: the symbol is the floor of its
address, the offset is the distance from it, and the file is the one of its location. -/
structure Explains (k : ℕ) (e : ProfileEntry) (r : Record) (low : FunctionEntry) : Prop where
  /-- The record is in the log. -/
  record : conv.records[k]? = some r
  /-- It is an access. -/
  access : r.type = .memoryOp
  /-- Its address has this floor. -/
  floor : IsFloor conv.functions (addressRead r) low
  /-- The entry has the name of the symbol. -/
  name : low.functionName = e.name
  /-- It has the distance from it. -/
  offset : e.offset.toInt = (addressRead r).toNat - low.offset.toNat
  /-- And the file that addr2line gives for the address. -/
  location : ∃ l, conv.locations[k]? = some l ∧ l.file = e.file

end Conversion

/-! ## Lines of the profile -/

section Lines

variable {strcmp : Strcmp} {functions : List FunctionEntry} {buffer l : List Char}

private theorem FunctionEntry.Clean.cString_eq {f : FunctionEntry} (h : f.Clean) :
    cString f.functionName = f.functionName := cString_eq_self (h.name _ (by decide))

private theorem fits_of_convertLine (hclean : ∀ f ∈ functions, f.Clean)
    (h : convertLine strcmp functions buffer = .ok (l ++ ['\n'])) : '\n' ∉ l ∧ Fits 200 l := by
  have hnewline : '\n' ∉ l := by
    obtain ⟨l', heq, -, hnot⟩ := convertLine_eq_ok h
    obtain rfl := List.append_cancel_right heq
    exact hnot fun f hf ↦ (hclean f hf).name _ (by decide)
  refine ⟨hnewline, ?_⟩
  rw [convertLine] at h
  split at h
  · have hl : "invalid".toList ++ ['\n'] = l ++ ['\n'] := Except.ok.inj h
    obtain rfl := List.append_cancel_right hl
    decide
  · split at h
    · simp at h
    · rw [symbolLine] at h
      split at h
      · simp at h
      · next low hlow =>
        have hlow := hclean low (mem_of_lowEntry hlow)
        obtain rfl := List.append_cancel_right (Except.ok.inj h)
        rw [hlow.cString_eq]
        exact hlow.fits _

private theorem exists_isFloor_of_convertLine {sorting : Sorting MyCompare} {r : Record}
    (hr : r.type = .memoryOp)
    (h : convertLine strcmp (sorting.sort functions) (writeRawRecord r) = .ok (l ++ ['\n'])) :
    ∃ low, IsFloor functions (addressRead r) low
      ∧ l = cString low.functionName ++ '\t' :: decimal (addressRead r - low.offset).toInt := by
  rw [convertLine_writeRawRecord, if_neg (compare_writeRawRecord_ne_one strcmp hr),
    symbolLine] at h
  split at h
  · simp at h
  · next low hlow =>
    have hfloor := isFloor_of_lowEntry (sorting.pairwise functions) hlow
    refine ⟨low, (isFloor_congr (sorting.perm functions)).mp hfloor, ?_⟩
    exact (List.append_cancel_right (Except.ok.inj h)).symm

end Lines

namespace Location

variable (l : Location)

private theorem notMem_line {c : Char} (hc : c ∈ ['\t', '\n', '\x00']) : c ∉ l.line := by
  rw [line, List.mem_append, List.mem_cons]
  rintro (h | rfl | h)
  · exact l.file_clean c (List.mem_cons_of_mem _ hc) h
  · exact absurd hc (by decide)
  · exact l.suffix_clean c hc h

end Location

/-- The entry of the profile for an access. -/
def Location.entry (l : Location) (low : FunctionEntry) (hlow : low.Clean) (offset : BitVec 64) :
    ProfileEntry :=
  ⟨l.file, l.suffix, low.functionName, offset, l.file_clean, l.suffix_clean, hlow.name, l.fits,
    hlow.fits offset⟩

namespace Conversion

variable {conv : Conversion}

private theorem fits_of_functionLines {lines : List (List Char)}
    (h : FunctionLines conv.strcmp conv.sorting conv.functions conv.records lines) :
    ∀ l ∈ lines, '\n' ∉ l ∧ Fits 200 l := by
  intro l hl
  obtain ⟨j, hj⟩ := List.getElem?_of_mem hl
  have hlt : j < conv.records.length := by
    rw [List.Forall₂.length_eq h]
    exact (List.getElem?_eq_some_iff.mp hj).1
  obtain ⟨l', hl', hline⟩ := h.getElem? (List.getElem?_eq_getElem hlt)
  obtain rfl := Option.some.inj (hj.symm.trans hl')
  refine fits_of_convertLine (fun f hf ↦ conv.clean f ?_) hline
  exact (conv.sorting.perm conv.functions).mem_iff.mp hf

/-- Every line of the profile is explained by an access of the log. -/
theorem exists_explains {line : ProfileLine} (h : line ∈ conv.output.written) :
    ∃ p : ProfileEntry × ℕ, profileLine p = some line ∧ p.2 < 2 ^ 31
      ∧ ∃ r low, conv.Explains p.2 p.1 r low := by
  obtain ⟨lines, k, b, hlines, hb, hreach, hknown, hline⟩ := mem_written_convert_iff.mp h
  have hfilenames : ∀ l ∈ conv.locations.map Location.line, '\n' ∉ l ∧ Fits 2000 l := by
    rw [List.forall_mem_map]
    exact fun l _ ↦ ⟨l.notMem_line (by decide), l.fits⟩
  obtain ⟨_, l, hf, hl, rfl⟩ :=
    (getElem?_buffers_iff hfilenames (fits_of_functionLines hlines)).mp hb
  rw [List.getElem?_map] at hf
  obtain ⟨location, hlocation, rfl⟩ := Option.map_eq_some_iff.mp hf
  have hk : k < conv.records.length :=
    conv.length_eq ▸ (List.getElem?_eq_some_iff.mp hlocation).1
  have hr := List.getElem?_eq_getElem hk
  rw [isUnknown_concat_iff] at hknown
  have htype : conv.records[k].type = .memoryOp := by
    by_contra htype
    exact hknown (conv.unknown k _ location hr htype hlocation)
  obtain ⟨l', hl', hconvert⟩ := hlines.getElem? hr
  obtain rfl := Option.some.inj (hl.symm.trans hl')
  obtain ⟨low, hfloor, rfl⟩ := exists_isFloor_of_convertLine htype hconvert
  have hlow := conv.clean low hfloor.mem
  have hread : (addressRead conv.records[k]).toNat < 2 ^ 63 := by
    rw [toNat_addressRead htype]
    omega
  let e := location.entry low hlow (addressRead conv.records[k] - low.offset)
  have hprofile : profileLine (e, k) = some ⟨k, e.filenameLine, e.functionLine⟩ := if_neg hknown
  rw [hlow.cString_eq] at hline
  change line = ⟨k, (cString (e.filenameLine ++ ['\n'])).dropLast,
    (cString (e.functionLine ++ ['\n'])).dropLast⟩ at hline
  rw [cString_concat (e.notMem_filenameLine (by decide)),
    cString_concat (e.notMem_functionLine (by decide)), List.dropLast_concat,
    List.dropLast_concat] at hline
  refine ⟨(e, k), hline ▸ hprofile, ?_, conv.records[k], low, ?_⟩
  · exact hreach.lt.trans (by decide)
  · exact ⟨hr, htype, hfloor, rfl, hfloor.toInt_sub hread, location, hlocation, rfl⟩

variable (conv) in
private theorem exists_placed : ∃ placed : List (ProfileEntry × ℕ),
    placed.filterMap profileLine = conv.output.written
      ∧ ∀ p ∈ placed, p.2 < 2 ^ 31 ∧ ∃ r low, conv.Explains p.2 p.1 r low := by
  have h := fun line ↦ @exists_explains conv line
  generalize conv.output.written = written at h
  induction written with
  | nil => exact ⟨[], rfl, fun _ hp ↦ absurd hp List.not_mem_nil⟩
  | cons line written ih =>
    obtain ⟨p, hline, hp⟩ := h line List.mem_cons_self
    obtain ⟨placed, rfl, hplaced⟩ := ih fun line hline ↦ h line (List.mem_cons_of_mem _ hline)
    exact ⟨p :: placed, List.filterMap_cons_some hline, List.forall_mem_cons.mpr ⟨hp, hplaced⟩⟩

/-! ## Calls -/

variable (conv) in
/-- The instruction is where the record with the index was sampled: it is as far from the start of
the function as the address of the sample is from the symbol below it, and the function has the name
of that symbol and is of the file that addr2line gives for the address. -/
structure Located (job : MaoUnit × MaoFunction × Bool) (k : ℕ) (r : Record) (x : SectionInsn) :
    Prop where
  /-- The record is in the log. -/
  record : conv.records[k]? = some r
  /-- It is an access. -/
  access : r.type = .memoryOp
  /-- The unit is the source file that addr2line gives for the address. -/
  file : ∃ l, conv.locations[k]? = some l ∧ job.1.sourceFile = some l.file
  /-- The function has the name of the symbol, and the instruction its distance from it. -/
  symbol : ∃ low, IsFloor conv.functions (addressRead r) low ∧ low.functionName = job.2.1.name
    ∧ (((addressRead r).toNat : ℤ) - low.offset.toNat, x) ∈ starts 0 job.2.1.entries

variable {inPlace : ℕ → Bool} {job : MaoUnit × MaoFunction × Bool}

theorem Located.mem_insns {k : ℕ} {r : Record} {x : SectionInsn} (h : conv.Located job k r x) :
    x ∈ job.2.1.insns := by
  obtain ⟨low, -, -, hstarts⟩ := h.symbol
  exact List.mem_map.mpr ⟨_, hstarts, rfl⟩

/-- A call has the instruction where its sample was taken. -/
theorem located_of_mem_jobCalls {c : PassCall} (hc : c ∈ jobCalls (conv.env inPlace) job) :
    c.1 = job.2.1 ∧ ∃ r, conv.Located job c.slot r c.2.1 ∧ 0 ≤ c.2.2.index := by
  obtain ⟨placed, hwritten, hplaced⟩ := conv.exists_placed
  have henv : conv.env inPlace = placedEnv inPlace placed := by
    rw [env, Combined.text, ← hwritten]
    rfl
  rw [henv] at hc
  obtain ⟨hfunction, hstarts, p, hp, hindex, hoffset, hname, hfile⟩ :=
    mem_jobCalls (fun p hp ↦ (hplaced p hp).1) hc
  obtain ⟨-, r, low, hexplains⟩ := hplaced p hp
  obtain ⟨l, hl, hlfile⟩ := hexplains.location
  have hslot : c.slot = p.2 := by rw [PassCall.slot, hindex, Int.toNat_natCast]
  refine ⟨hfunction, r, ⟨?_, hexplains.access, ⟨l, ?_, ?_⟩, low, hexplains.floor, ?_, ?_⟩, ?_⟩
  · rw [hslot, hexplains.record]
  · rw [hslot, hl]
  · rw [hfile, hlfile]
  · exact hexplains.name.trans hname
  · rwa [hoffset, hexplains.offset, hfunction] at hstarts
  · rw [hindex]
    exact Int.natCast_nonneg _

end Conversion

/-! ## No way out of the log -/

/-- The fault stands for an access outside of the raw log, or of the locks of a record. -/
def PassFault.LeavesMemory : PassFault → Prop
  | outOfFile => True
  | outOfArray => True
  | _ => False

section LeavesMemory

variable {stray : InstructionEntry → ℕ → Option RegEntry} {env : BuildEnv} {seeds : List Record}
  {fault : PassFault}

private theorem GoExit.fault_leavesMemory {exit : GoExit} {overEnd : Bool}
    (h : exit.fault overEnd = some fault) : ¬fault.LeavesMemory := by
  rcases exit with _ | _ | _ | _ | _
  · exact absurd h nofun
  · exact absurd h nofun
  · obtain rfl := Option.some.inj h
    exact id
  · obtain rfl := Option.some.inj h
    exact id
  · rw [GoExit.fault] at h
    split_ifs at h
    obtain rfl := Option.some.inj h
    exact id

/-- How the calls of a function end, if not at the end of the function. -/
def sampledFault {β : Type} : Except PassFault (β × Option PassFault) → Option PassFault
  | .error fault => some fault
  | .ok (_, exit) => exit

private theorem sampledCalls_leavesMemory {unit : MaoUnit} {f : MaoFunction} {overEnd : Bool}
    (h : sampledFault (sampledCalls env unit f overEnd) = some fault) : ¬fault.LeavesMemory := by
  revert h
  rw [sampledCalls]
  rcases buildFileTable unit.workingDir unit.sections with fault' | fileTable
  · rintro ⟨⟩
    exact id
  dsimp only
  rcases fileTable[1]? with _ | file
  · rintro ⟨⟩
    exact id
  dsimp only
  rcases read env.inPlace f.name file env.pmuprofile [] with fault' | ⟨_ | _, samples⟩
  · rintro ⟨⟩
    exact id
  · rintro ⟨⟩
  · exact fun h ↦ GoExit.fault_leavesMemory h

private theorem exists_call_of_functionEffect {job : MaoUnit × MaoFunction × Bool}
    (h : (functionEffect stray env job.1 job.2 seeds).2 = some fault)
    (hfault : fault.LeavesMemory) :
    ∃ c ∈ jobCalls env job, (callEffect stray c seeds).2 = some fault := by
  rw [functionEffect] at h
  rw [jobCalls]
  by_cases hnil : seeds = []
  · rw [if_pos hnil] at h
    obtain rfl := Option.some.inj h
    exact absurd hfault id
  rw [if_neg hnil] at h
  rcases hcalls : sampledCalls env job.1 job.2.1 job.2.2 with fault' | ⟨calls, exit⟩
  · rw [hcalls] at h
    obtain rfl := Option.some.inj h
    exact absurd hfault (sampledCalls_leavesMemory (congrArg sampledFault hcalls))
  · rw [hcalls] at h
    rcases Option.or_eq_some_iff.mp h with h | ⟨-, h⟩
    · obtain ⟨call, hcall, hcallfault⟩ := Halting.exists_of_effects_snd_eq_some h
      exact ⟨(job.2.1, call), List.mem_map_of_mem hcall, hcallfault⟩
    · exact absurd hfault
        (sampledCalls_leavesMemory ((congrArg sampledFault hcalls).trans h))

theorem callEffect_leavesMemory {c : PassCall} {seed : Record} (hindex : 0 ≤ c.2.2.index)
    (hseed : seeds[c.slot]? = some seed) (hcount : seed.memoryAccess.lockCount ≤ 10)
    (h : (callEffect stray c seeds).2 = some fault) : ¬fault.LeavesMemory := by
  obtain ⟨f, x, sample⟩ := c
  have hget : seeds[sample.index.toNat]? = some seed := hseed
  rw [callEffect, sampleEffect] at h
  dsimp only at h
  rw [if_neg (not_lt.mpr hindex), hget] at h
  dsimp only at h
  by_cases hblock : x.block = none
  · rw [if_pos hblock] at h
    obtain rfl := Option.some.inj h
    exact id
  rw [if_neg hblock, if_neg fun hover ↦ absurd hcount (not_le.mpr hover.2)] at h
  split_ifs at h
  obtain rfl := Option.some.inj h
  exact id

/-- If only accesses are sampled, a unit keeps to its memory, whatever was built before. -/
theorem SamplesAccesses.goUnit {raw new : List Record} {units : List Compilation} {c : Compilation}
    (h : SamplesAccesses env [c] raw)
    (hcount : ∀ r ∈ raw, r.type = .memoryOp → r.memoryAccess.lockCount ≤ 10)
    (hfault : (goUnit stray env (build stray env ⟨raw, new⟩ units) c).2 = some fault) :
    ¬fault.LeavesMemory := by
  intro hleaves
  rw [goUnit_eq, build_eq, Halting.perform, seeds_smul] at hfault
  obtain ⟨f, hf, hfunction⟩ := Halting.exists_of_effects_snd_eq_some hfault
  obtain ⟨call, hcall, hcallfault⟩ :=
    @exists_call_of_functionEffect stray _ _ _ (c.unit, f) hfunction hleaves
  have hjob : (c.unit, f) ∈ jobs [c] := by
    rw [jobs_cons]
    exact List.mem_append_left _ (List.mem_map_of_mem hf)
  obtain ⟨hindex, r, hr, htype⟩ := h _ hjob call hcall
  have hseed : (PassFiles.seeds ⟨raw, new⟩)[call.slot]? = some r.seed := by
    rw [PassFiles.seeds, List.getElem?_map, hr]
    rfl
  have hseedcount : r.seed.memoryAccess.lockCount ≤ 10 := by
    rw [Record.memoryAccess_seed]
    exact hcount r (List.mem_of_getElem? hr) htype
  exact callEffect_leavesMemory hindex hseed hseedcount hcallfault hleaves

end LeavesMemory

/-! ## A log of one sample -/

/-- What addr2line prints for a line that is no address. -/
def unknownLocation : Location where
  file := "??".toList
  suffix := "0".toList
  file_clean := by
    simp only [List.forall_mem_cons, List.not_mem_nil, IsEmpty.forall_iff, implies_true, and_true]
    decide
  suffix_clean := by
    simp only [List.forall_mem_cons, List.not_mem_nil, IsEmpty.forall_iff, implies_true, and_true]
    decide
  fits := by decide

private theorem clean_main : FunctionEntry.Clean ⟨"main".toList, 0, 100⟩ := by
  refine ⟨mainEntry.name_clean, fun d ↦ ?_⟩
  have hlength := Stdio.length_decimal_toInt_le d
  have hname : "main".toList.length = 4 := by decide
  simp only [Stdio.Fits, List.length_append, List.length_cons]
  omega

/-- A sample of the load at `64`, in a thread that holds the mutex `8`. -/
def lockedSample : Producer :=
  .pebs ⟨false, true⟩ ⟨7, [], Vector.replicate 23 0, some ⟨1, false, Vector.replicate 10 8⟩⟩
    { PebsCoreSmplEntry.zeroed with ebx := 64 }

/-- Its log, under a symbol at address zero. The first record is not an access. -/
def lockedConversion : Conversion where
  strcmp := .sign
  sorting := mergeSorting
  records := loggedRecords (fun _ ↦ .zeroed) [lockedSample]
  functions := [⟨"main".toList, 0, 100⟩]
  locations := [unknownLocation, ⟨mainEntry.file, mainEntry.suffix, mainEntry.file_clean,
    mainEntry.suffix_clean, mainEntry.filename_fits⟩]
  clean f hf := List.mem_singleton.mp hf ▸ clean_main
  length_eq := rfl
  unknown k r l hr htype hl := by
    rcases k with _ | _ | k
    · obtain rfl := Option.some.inj hl
      decide
    · obtain rfl := Option.some.inj hr
      exact absurd rfl htype
    · exact absurd hl nofun

/-! ## Builds with the profile -/

namespace Conversion

variable (conv : Conversion) (stray : InstructionEntry → ℕ → Option RegEntry) (inPlace : ℕ → Bool)

theorem samplesAccesses (units : List Compilation) :
    SamplesAccesses (conv.env inPlace) units conv.records := by
  intro job _ c hc
  obtain ⟨-, r, hlocated, hindex⟩ := located_of_mem_jobCalls hc
  exact ⟨hindex, r, hlocated.record, hlocated.access⟩

/-- **The pass keeps to its memory**: whatever has been built with the profile by then, no unit that
is compiled with it leaves the raw log, or the locks of a record. The profile is made of the log by
a `Conversion`, so addr2line knows no location for a record that is not an access and prints one
line for each record, and the symbols are clean. The accesses in the log have ten locks at most. -/
theorem goUnit_keeps_to_memory (new : List Record) (units : List Compilation) (c : Compilation)
    (hcount : ∀ r ∈ conv.records, r.type = .memoryOp → r.memoryAccess.lockCount ≤ 10) :
    ∀ fault, (goUnit stray (conv.env inPlace)
      (build stray (conv.env inPlace) ⟨conv.records, new⟩ units) c).2 = some fault →
        ¬fault.LeavesMemory :=
  fun _ hfault ↦ (conv.samplesAccesses inPlace [c]).goUnit hcount hfault

theorem goUnit_keeps_to_memory_locked :
    ¬∃ fault, fault.LeavesMemory ∧ (goUnit (fun _ _ ↦ none) (lockedConversion.env fun _ ↦ true)
      (build (fun _ _ ↦ none) (lockedConversion.env fun _ ↦ true) ⟨lockedConversion.records, []⟩
        [⟨oneFileUnit, [(loadFunction, true)]⟩]) ⟨oneFileUnit, [(loadFunction, true)]⟩).2
        = some fault := by
  rintro ⟨fault, hleaves, hfault⟩
  exact goUnit_keeps_to_memory lockedConversion _ _ _ _ _ (by decide) fault hfault hleaves

/-! ## Records by their instructions -/

variable {conv inPlace} {units : List Compilation}

theorem located_of_madeFor {new : List Record} {c : PassCall} {k : ℕ} {seed : Record}
    (h : MadeFor (conv.env inPlace) units (PassFiles.seeds ⟨conv.records, new⟩) c k seed) :
    ∃ job ∈ jobs units, c.1 = job.2.1 ∧ ∃ r, seed = r.seed ∧ conv.Located job k r c.2.1 := by
  obtain ⟨job, hjob, hc⟩ := h.call
  obtain ⟨hfunction, r, hlocated, -⟩ := located_of_mem_jobCalls hc
  rw [h.slot] at hlocated
  refine ⟨job, hjob, hfunction, r, ?_, hlocated⟩
  have hseed := h.getElem?
  rw [PassFiles.seeds, List.getElem?_map, hlocated.record] at hseed
  exact (Option.some.inj hseed).symm

variable (conv inPlace units)

/-- **Where samples end up.** Whatever is built with the profile, and wherever it comes to a halt:
an address or a kind of access that is stored in a record of the log is the one of an instruction
where the record was sampled, and so is every new record one that the pass makes for a record of the
log and an instruction where it was sampled. The profile is made of the log by a `Conversion`, so
addr2line knows no location for a record that is not an access and prints one line for each record,
and the symbols are clean. -/
theorem located_build :
    (∀ (k : ℕ) (r r' : Record), conv.records[k]? = some r →
      (build stray (conv.env inPlace) ⟨conv.records, []⟩ units).raw[k]? = some r' →
      (r'.memoryAccess.memoryAddress = r.memoryAccess.memoryAddress
        ∨ ∃ job ∈ jobs units, ∃ x, conv.Located job k r x ∧ r'.memoryAccess.memoryAddress
          = (updateMemory r x.insn).memoryAccess.memoryAddress)
      ∧ (r'.memoryAccess.isWrite = r.memoryAccess.isWrite
        ∨ ∃ job ∈ jobs units, ∃ x, conv.Located job k r x ∧ r'.memoryAccess.isWrite
          = (updateMemory r x.insn).memoryAccess.isWrite))
    ∧ ∀ n ∈ (build stray (conv.env inPlace) ⟨conv.records, []⟩ units).new,
      ∃ job ∈ jobs units, ∃ k r x, conv.Located job k r x
        ∧ n ∈ sampleRecords stray job.2.1 x r := by
  have hcalls := @fromCalls_buildEffect stray (conv.env inPlace)
    (PassFiles.seeds ⟨conv.records, []⟩) units
  rw [build_eq]
  generalize buildEffect stray (conv.env inPlace) (PassFiles.seeds ⟨conv.records, []⟩) units = e
    at hcalls
  refine ⟨fun k r r' hr hr' ↦ ?_, fun n hn ↦ ?_⟩
  · rw [PassEffect.raw_smul, List.getElem?_mapIdx, hr, Option.map_some] at hr'
    obtain rfl := Option.some.inj hr'
    refine ⟨?_, ?_⟩
    · rcases ha : (e.patches k).address with _ | address
      · exact Or.inl (by rw [Patch.memoryAccess_smul, ha]; rfl)
      · obtain ⟨c, seed, hmade, hpatch⟩ := hcalls.address k address ha
        obtain ⟨job, hjob, -, r', rfl, hlocated⟩ := located_of_madeFor hmade
        obtain rfl := Option.some.inj (hr.symm.trans hlocated.record)
        rw [updatePatch_seed] at hpatch
        refine Or.inr ⟨job, hjob, c.2.1, hlocated, ?_⟩
        rw [updateMemory_eq, Patch.memoryAccess_smul, Patch.memoryAccess_smul, ha, hpatch]
    · rcases hw : (e.patches k).isWrite with _ | w
      · exact Or.inl (by rw [Patch.memoryAccess_smul, hw]; rfl)
      · obtain ⟨c, seed, hmade, hpatch⟩ := hcalls.isWrite k w hw
        obtain ⟨job, hjob, -, r', rfl, hlocated⟩ := located_of_madeFor hmade
        obtain rfl := Option.some.inj (hr.symm.trans hlocated.record)
        rw [updatePatch_seed] at hpatch
        refine Or.inr ⟨job, hjob, c.2.1, hlocated, ?_⟩
        rw [updateMemory_eq, Patch.memoryAccess_smul, Patch.memoryAccess_smul, hw, hpatch]
  · obtain ⟨c, k, seed, hmade, hn⟩ := hcalls.appended n hn
    obtain ⟨job, hjob, hfunction, r, rfl, hlocated⟩ := located_of_madeFor hmade
    refine ⟨job, hjob, k, r, c.2.1, hlocated, ?_⟩
    rwa [sampleRecords_seed, hfunction] at hn

/-- The log of one sample, with the function it was taken in. -/
theorem located_build_locked :
    let after := build (fun _ _ ↦ none) (lockedConversion.env fun _ ↦ true)
      ⟨lockedConversion.records, []⟩ [⟨oneFileUnit, [(loadFunction, true)]⟩]
    (∀ (k : ℕ) (r r' : Record), lockedConversion.records[k]? = some r → after.raw[k]? = some r' →
      (r'.memoryAccess.memoryAddress = r.memoryAccess.memoryAddress
        ∨ ∃ job ∈ jobs [⟨oneFileUnit, [(loadFunction, true)]⟩], ∃ x,
          lockedConversion.Located job k r x ∧ r'.memoryAccess.memoryAddress
            = (updateMemory r x.insn).memoryAccess.memoryAddress)
      ∧ (r'.memoryAccess.isWrite = r.memoryAccess.isWrite
        ∨ ∃ job ∈ jobs [⟨oneFileUnit, [(loadFunction, true)]⟩], ∃ x,
          lockedConversion.Located job k r x ∧ r'.memoryAccess.isWrite
            = (updateMemory r x.insn).memoryAccess.isWrite))
    ∧ ∀ n ∈ after.new, ∃ job ∈ jobs [⟨oneFileUnit, [(loadFunction, true)]⟩], ∃ k r x,
      lockedConversion.Located job k r x ∧ n ∈ sampleRecords (fun _ _ ↦ none) job.2.1 x r :=
  located_build _ _ _ _

end Conversion

end Racez
