import Racez.Container.SortedVector
import Racez.Matching.Greedy
import Racez.Profile.Reader
import Mathlib.Data.List.Nodup
import Mathlib.Data.PNat.Defs

/-!
# Attributing samples to instructions

`Go` has the samples of a function, sorted by offset, and walks along the entries of the function
with a second cursor. For each sample it advances to an instruction that does not start before it.
If the instruction starts right there, all samples with that offset are used; in any case the walk
goes on behind the instruction.

So each sample or group of samples takes an instruction, also a sample that is not at the start of
one, and the instruction it takes is lost for the samples behind it. Both cursors are dereferenced
before they are compared with the end. `attributesAll_iff` says when nothing goes wrong.

## Representation

An instruction is passed on and nothing else, so it is of any type. Offsets and sizes do not
overflow. A call of `UpdateMemory` and `ExecuteSimWhole` is the instruction with the sample.

## Points and slots

The loop is a run of points that take the next slot (`goLoop_iff_served`). The points are the
offsets of the samples, the slots are the instructions that the cursor can leave behind, and a point
has a slot of its own if an instruction starts there. `Matching/Greedy` says when such a run goes
well, and `attributesAll_iff` is that condition in terms of instructions and samples.

## One turn

`select` is the part of a turn in front of the comparison. It ends at the first instruction that is
not before the sample, after entries the cursor goes past (`GoesPast`), and what is behind it is
what is left for the later samples (`Finds`). The cursor can leave all instructions behind but one
that is the last entry, since behind the last entry there is nothing to dereference. All samples at
the offset of the first one ask for the same instruction, and a turn makes the calls for all of
them.

The end tests in front of the loop change nothing (`go_eq`).
-/

namespace Racez

variable {ι : Type*}

/-! ## The loop -/

/-- `MaoEntry`, with its size in the size map. -/
inductive MaoEntry (ι : Type*)
  | instruction (insn : ι) (size : ℕ+)
  /-- A location directive with the number of a file. -/
  | loc (fileNumber : ℤ)
  | other

def MaoEntry.size : MaoEntry ι → ℕ
  | .instruction _ size => size
  | _ => 0

/-- How the loop ends. -/
inductive GoExit
  | finished
  /-- Another source file begins. -/
  | otherFile
  /-- An assertion fails, or there is no such file. -/
  | aborted
  /-- The end of the entries is dereferenced. -/
  | entryEnd
  /-- The end of the samples is dereferenced. -/
  | sampleEnd
  deriving DecidableEq

/-- The calls made, and how the loop ends. -/
structure Attributed (ι : Type*) where
  /-- The instructions and the samples they are simulated for. -/
  calls : List (ι × RacezInstructionSample)
  /-- How the loop ends. -/
  exit : GoExit

section Loop

variable (fileTable : List (List Char))

/-- `UpdateSourceFile`. -/
def updateSourceFile (currentSourceFile : List Char) : MaoEntry ι → Option (List Char)
  | .loc fileNumber => if fileNumber < 0 then none else fileTable[fileNumber.toNat]?
  | _ => some currentSourceFile

/-- What is done whenever the cursor has moved to the next entry. -/
def enterEntry (sample : RacezInstructionSample) (currentSourceFile : List Char) :
    List (MaoEntry ι) → Except GoExit (List Char)
  | [] => .error .entryEnd
  | entry :: _ =>
    match updateSourceFile fileTable currentSourceFile entry with
    | none => .error .aborted
    | some file => if file ≠ sample.file then .error .otherFile else .ok file

/-- The first inner loop: to the offset of the sample. -/
def advance (sample : RacezInstructionSample) (offset : ℤ) (currentSourceFile : List Char) :
    List (MaoEntry ι) → Except GoExit (ℤ × List Char × List (MaoEntry ι))
  | [] => .ok (offset, currentSourceFile, [])
  | entry :: entries =>
    if offset < sample.offset then
      match enterEntry fileTable sample currentSourceFile entries with
      | .error exit => .error exit
      | .ok file => advance sample (offset + entry.size) file entries
    else .ok (offset, currentSourceFile, entry :: entries)

/-- The second inner loop: to an instruction. -/
def skipToInstruction (sample : RacezInstructionSample) (currentSourceFile : List Char) :
    List (MaoEntry ι) → Except GoExit (ι × ℕ+ × List (MaoEntry ι))
  | [] => .error .entryEnd
  | .instruction insn size :: entries => .ok (insn, size, entries)
  | _ :: entries =>
    if currentSourceFile ≠ sample.file then .error .aborted
    else skipToInstruction sample currentSourceFile entries

/-- An instruction, with its offset, the source file and the entries behind it. -/
structure Selected (ι : Type*) where
  /-- The offset of the instruction. -/
  offset : ℤ
  /-- The source file at this point. -/
  currentSourceFile : List Char
  /-- The instruction. -/
  insn : ι
  /-- Its size. -/
  size : ℕ+
  /-- The entries behind it. -/
  rest : List (MaoEntry ι)

/-- The instruction a sample is compared with. -/
def select (sample : RacezInstructionSample) (offset : ℤ) (currentSourceFile : List Char)
    (entries : List (MaoEntry ι)) : Except GoExit (Selected ι) :=
  match advance fileTable sample offset currentSourceFile entries with
  | .error exit => .error exit
  | .ok (offset, file, entries) =>
    match skipToInstruction sample file entries with
    | .error exit => .error exit
    | .ok (insn, size, rest) => .ok ⟨offset, file, insn, size, rest⟩

/-- The loop over the samples. -/
def goLoop (offset : ℤ) (currentSourceFile : List Char) (entries : List (MaoEntry ι)) :
    List RacezInstructionSample → Attributed ι
  | [] => ⟨[], .finished⟩
  | sample :: samples =>
    match select fileTable sample offset currentSourceFile entries with
    | .error exit => ⟨[], exit⟩
    | .ok ⟨offset, currentSourceFile, insn, size, rest⟩ =>
      if sample.offset = offset then
        -- the samples at this offset; the loop over them looks at the one behind
        let group := sample :: samples.takeWhile fun s ↦ s.offset = offset
        let later := samples.dropWhile fun s ↦ s.offset = offset
        let calls := group.map fun s ↦ (insn, s)
        if later = [] then ⟨calls, .sampleEnd⟩
        else
          match enterEntry fileTable (group.getLast (List.cons_ne_nil _ _)) currentSourceFile
            rest with
          | .error exit => ⟨calls, exit⟩
          | .ok file =>
            let next := goLoop (offset + (size : ℕ)) file rest later
            ⟨calls ++ next.calls, next.exit⟩
      else
        match enterEntry fileTable sample currentSourceFile rest with
        | .error exit => ⟨[], exit⟩
        | .ok file => goLoop (offset + (size : ℕ)) file rest samples
termination_by samples => samples.length
decreasing_by
  · exact Nat.lt_succ_of_le (List.length_dropWhile_le _ _)
  · exact Nat.lt_succ_self _

/-- `samples_.sort(RacezInstructionSampleLessThan)`, which is stable. -/
def sortSamples (samples : List RacezInstructionSample) : List RacezInstructionSample :=
  samples.mergeSort fun a b ↦ a.offset ≤ b.offset

/-- `Go`, from the samples read on. -/
def go (currentSourceFile : List Char) (entries : List (MaoEntry ι))
    (samples : List RacezInstructionSample) : Attributed ι :=
  if sortSamples samples = [] then ⟨[], .finished⟩
  else
    match entries with
    | [] => ⟨[], .entryEnd⟩
    | entry :: _ =>
      match updateSourceFile fileTable currentSourceFile entry with
      | none => ⟨[], .aborted⟩
      | some file => goLoop fileTable 0 file entries (sortSamples samples)

end Loop

/-! ## What it is for -/

/-- The instructions with their offsets. -/
def starts (offset : ℤ) : List (MaoEntry ι) → List (ℤ × ι)
  | [] => []
  | .instruction insn size :: entries => (offset, insn) :: starts (offset + (size : ℕ)) entries
  | .loc _ :: entries => starts offset entries
  | .other :: entries => starts offset entries

/-- The instruction that starts at an offset. -/
def instructionAt (entries : List (MaoEntry ι)) (offset : ℤ) : Option ι :=
  ((starts 0 entries).find? fun p ↦ p.1 = offset).map Prod.snd

/-- The entries and the samples are of one source file. -/
structure OneSourceFile (fileTable : List (List Char)) (file : List Char)
    (entries : List (MaoEntry ι)) (samples : List RacezInstructionSample) : Prop where
  /-- No entry changes the source file. -/
  entry : ∀ entry ∈ entries, updateSourceFile fileTable file entry = some file
  /-- All samples are from it. -/
  sample : ∀ sample ∈ samples, sample.file = file

/-- The calls that the samples ask for, from what starts at an offset. -/
def callsFor (insnAt : ℤ → Option ι) (samples : List RacezInstructionSample) :
    List (ι × RacezInstructionSample) :=
  samples.filterMap fun s ↦ (insnAt s.offset).map fun insn ↦ (insn, s)

/-! ## One turn -/

section Turn

variable {fileTable : List (List Char)} {file : List Char} {entries : List (MaoEntry ι)}
  {sample : RacezInstructionSample} {samples : List RacezInstructionSample} {offset : ℤ}

private theorem enterEntry_eq
    (hentries : ∀ entry ∈ entries, updateSourceFile fileTable file entry = some file)
    (hsample : sample.file = file) :
    enterEntry fileTable sample file entries
      = if entries = [] then .error .entryEnd else .ok file := by
  cases entries with
  | nil => rfl
  | cons entry entries =>
    rw [enterEntry, hentries entry List.mem_cons_self, if_neg (List.cons_ne_nil _ _)]
    simp [hsample]

private theorem advance_of_le (h : ¬offset < sample.offset) :
    advance fileTable sample offset file entries = .ok (offset, file, entries) := by
  cases entries with
  | nil => rfl
  | cons entry entries => rw [advance, if_neg h]

/-- An entry the cursor goes past: it is before the sample, or not an instruction. -/
def GoesPast (sample : RacezInstructionSample) (offset : ℤ) (entry : MaoEntry ι) : Prop :=
  offset < sample.offset ∨ ∀ insn size, entry ≠ .instruction insn size

private theorem GoesPast.or_eq_instruction (sample : RacezInstructionSample) (offset : ℤ)
    (entry : MaoEntry ι) :
    GoesPast sample offset entry
      ∨ ¬offset < sample.offset ∧ ∃ insn size, entry = .instruction insn size := by
  by_cases h : offset < sample.offset
  · exact Or.inl (Or.inl h)
  · cases entry with
    | instruction insn size => exact Or.inr ⟨h, insn, size, rfl⟩
    | loc n => exact Or.inl (Or.inr fun _ _ ↦ nofun)
    | other => exact Or.inl (Or.inr fun _ _ ↦ nofun)

private theorem starts_cons_of_ne {entry : MaoEntry ι}
    (h : ∀ insn size, entry ≠ .instruction insn size) :
    starts offset (entry :: entries) = starts (offset + entry.size) entries := by
  cases entry with
  | instruction insn size => exact absurd rfl (h insn size)
  | loc n => simp [starts, MaoEntry.size]
  | other => simp [starts, MaoEntry.size]

private theorem skipToInstruction_of_ne {entry : MaoEntry ι} (hsample : sample.file = file)
    (h : ∀ insn size, entry ≠ .instruction insn size) :
    skipToInstruction sample file (entry :: entries) = skipToInstruction sample file entries := by
  cases entry with
  | instruction insn size => exact absurd rfl (h insn size)
  | loc n => simp [skipToInstruction, hsample]
  | other => simp [skipToInstruction, hsample]

theorem starts_subset_cons (entry : MaoEntry ι) :
    starts (offset + entry.size) entries ⊆ starts offset (entry :: entries) := by
  cases entry with
  | instruction insn size => exact List.subset_cons_self _ _
  | loc n => simp [starts, MaoEntry.size]
  | other => simp [starts, MaoEntry.size]

private theorem GoesPast.dropWhile_starts {entry : MaoEntry ι} (h : GoesPast sample offset entry) :
    (starts offset (entry :: entries)).dropWhile (fun p ↦ p.1 < sample.offset)
      = (starts (offset + entry.size) entries).dropWhile fun p ↦ p.1 < sample.offset := by
  by_cases hne : ∀ insn size, entry ≠ .instruction insn size
  · rw [starts_cons_of_ne hne]
  · simp only [not_forall, not_not] at hne
    obtain ⟨insn, size, rfl⟩ := hne
    have hlt : offset < sample.offset := h.resolve_right fun hne ↦ hne insn size rfl
    rw [starts, List.dropWhile_cons_of_pos (by simpa using hlt)]
    rfl

section Select

variable (hsample : sample.file = file)

include hsample

private theorem select_singleton_of_goesPast {entry : MaoEntry ι}
    (h : GoesPast sample offset entry) :
    select fileTable sample offset file [entry] = .error .entryEnd := by
  by_cases hlt : offset < sample.offset
  · rw [select, advance, if_pos hlt]
    rfl
  · rw [select, advance_of_le hlt]
    dsimp only
    rw [skipToInstruction_of_ne hsample (h.resolve_left hlt)]
    rfl

private theorem select_cons_of_goesPast {entry : MaoEntry ι} (h : GoesPast sample offset entry)
    (hentries : ∀ entry ∈ entries, updateSourceFile fileTable file entry = some file)
    (hne : entries ≠ []) :
    select fileTable sample offset file (entry :: entries)
      = select fileTable sample (offset + entry.size) file entries := by
  by_cases hlt : offset < sample.offset
  · rw [select, advance, if_pos hlt, enterEntry_eq hentries hsample, if_neg hne]
    rfl
  · have hinsn := h.resolve_left hlt
    have hsize : entry.size = 0 := by
      cases entry with
      | instruction insn size => exact absurd rfl (hinsn insn size)
      | loc n => rfl
      | other => rfl
    rw [hsize, Nat.cast_zero, add_zero, select, select, advance_of_le hlt, advance_of_le hlt]
    dsimp only
    rw [skipToInstruction_of_ne hsample hinsn]

end Select

/-- What `select` finds: the first instruction not before the sample, and only if it is not the last
entry can the cursor go on. -/
structure Finds (sample : RacezInstructionSample) (offset : ℤ) (file : List Char)
    (entries : List (MaoEntry ι)) (x : Selected ι) : Prop where
  /-- The source file is the same. -/
  file_eq : x.currentSourceFile = file
  /-- The entries behind it are among those there were. -/
  rest_subset : x.rest ⊆ entries
  /-- So is the instruction, with its offset. -/
  starts_subset :
    (x.offset, x.insn) :: starts (x.offset + (x.size : ℕ)) x.rest ⊆ starts offset entries
  /-- It is the first that is not before the sample, unless it is the last entry. -/
  usable : (starts offset entries.dropLast).dropWhile (fun p ↦ p.1 < sample.offset)
    = if x.rest = [] then []
      else (x.offset, x.insn) :: starts (x.offset + (x.size : ℕ)) x.rest.dropLast

private theorem select_spec
    (hentries : ∀ entry ∈ entries, updateSourceFile fileTable file entry = some file)
    (hsample : sample.file = file) (offset : ℤ) :
    (∃ x, select fileTable sample offset file entries = .ok x
        ∧ Finds sample offset file entries x)
      ∨ select fileTable sample offset file entries = .error .entryEnd
        ∧ (starts offset entries.dropLast).dropWhile (fun p ↦ p.1 < sample.offset) = [] := by
  induction entries generalizing offset with
  | nil => exact Or.inr ⟨rfl, rfl⟩
  | cons entry entries ih =>
    have hrest := (List.forall_mem_cons.mp hentries).2
    rcases GoesPast.or_eq_instruction sample offset entry with hpast | ⟨hle, insn, size, rfl⟩
    · by_cases hne : entries = []
      · subst hne
        exact Or.inr ⟨select_singleton_of_goesPast hsample hpast, rfl⟩
      rw [select_cons_of_goesPast hsample hpast hrest hne, List.dropLast_cons_of_ne_nil hne,
        hpast.dropWhile_starts]
      refine (ih hrest _).imp_left ?_
      rintro ⟨x, hx, hfinds⟩
      refine ⟨x, hx, hfinds.file_eq, List.subset_cons_of_subset _ hfinds.rest_subset,
        List.Subset.trans hfinds.starts_subset (starts_subset_cons entry), ?_⟩
      rw [List.dropLast_cons_of_ne_nil hne, hpast.dropWhile_starts, hfinds.usable]
    · refine Or.inl ⟨⟨offset, file, insn, size, entries⟩, ?_, rfl, List.subset_cons_self _ _,
        List.Subset.refl _, ?_⟩
      · rw [select, advance_of_le hle]
        rfl
      · by_cases hne : entries = []
        · subst hne
          rfl
        · rw [if_neg hne, List.dropLast_cons_of_ne_nil hne, starts,
            List.dropWhile_cons_of_neg (by simpa using hle)]

private theorem callsFor_cons_of_eq_some {insnAt : ℤ → Option ι} {insn : ι}
    (h : insnAt sample.offset = some insn) :
    callsFor insnAt (sample :: samples)
      = ((sample :: samples.takeWhile fun s ↦ s.offset = sample.offset).map fun s ↦ (insn, s))
        ++ callsFor insnAt (samples.dropWhile fun s ↦ s.offset = sample.offset) := by
  induction samples with
  | nil => simp [callsFor, h]
  | cons s samples ih =>
    by_cases hs : s.offset = sample.offset
    · simp only [callsFor, List.filterMap_cons, h, Option.map_some, hs, decide_true,
        List.takeWhile_cons_of_pos, List.dropWhile_cons_of_pos, List.map_cons,
        List.cons_append] at ih ⊢
      rw [List.cons.inj ih |>.2]
    · simp [callsFor, h, hs]

private theorem group_sublist {insnAt : ℤ → Option ι} {insn : ι}
    (h : insnAt sample.offset = some insn) :
    ((sample :: samples.takeWhile fun s ↦ s.offset = sample.offset).map
      fun s ↦ (insn, s)).Sublist (callsFor insnAt (sample :: samples)) := by
  rw [callsFor_cons_of_eq_some h]
  exact List.sublist_append_left _ _

private theorem callsFor_cons_of_eq_none {insnAt : ℤ → Option ι} (h : insnAt sample.offset = none) :
    callsFor insnAt (sample :: samples) = callsFor insnAt samples :=
  List.filterMap_cons_none (by rw [h]; rfl)

/-- Calls for the samples behind the first are all calls only if the first asks for none. -/
theorem eq_callsFor_cons_iff {insnAt : ℤ → Option ι} {calls : List (ι × RacezInstructionSample)}
    (h : calls.Sublist (callsFor insnAt samples)) :
    calls = callsFor insnAt (sample :: samples)
      ↔ ¬(insnAt sample.offset).isSome ∧ calls = callsFor insnAt samples := by
  cases hsample : insnAt sample.offset with
  | none =>
    rw [callsFor_cons_of_eq_none hsample]
    exact (and_iff_right nofun).symm
  | some insn =>
    refine iff_of_false (fun heq ↦ ?_) fun hnone ↦ hnone.1 rfl
    have hcons : callsFor insnAt (sample :: samples)
        = (insn, sample) :: callsFor insnAt samples :=
      List.filterMap_cons_some (by rw [hsample]; rfl)
    have hle := h.length_le
    rw [heq, hcons, List.length_cons] at hle
    omega

theorem callsFor_sublist_cons (insnAt : ℤ → Option ι) :
    (callsFor insnAt samples).Sublist (callsFor insnAt (sample :: samples)) :=
  (List.sublist_cons_self _ _).filterMap _

/-- What one turn of the loop does. -/
inductive Turn (fileTable : List (List Char)) (file : List Char) (insnAt : ℤ → Option ι)
    (offset : ℤ) (entries : List (MaoEntry ι)) (sample : RacezInstructionSample)
    (samples : List RacezInstructionSample) : Attributed ι → Prop
  /-- There is no instruction to go on from, or no sample to look at. -/
  | stop {calls : List (ι × RacezInstructionSample)} {exit : GoExit} (hexit : exit ≠ .finished)
      (hcalls : calls.Sublist (callsFor insnAt (sample :: samples)))
      (hend : (starts offset entries.dropLast).dropWhile (fun p ↦ p.1 < sample.offset) = []
        ∨ (insnAt sample.offset).isSome
          ∧ (samples.dropWhile fun s ↦ s.offset = sample.offset) = []) :
      Turn fileTable file insnAt offset entries sample samples ⟨calls, exit⟩
  /-- The sample is not at the start of the instruction. -/
  | skip {x : Selected ι} (hfinds : Finds sample offset file entries x) (hrest : x.rest ≠ [])
      (hne : sample.offset ≠ x.offset) :
      Turn fileTable file insnAt offset entries sample samples
        (goLoop fileTable (x.offset + (x.size : ℕ)) file x.rest samples)
  /-- The samples at the start of the instruction are used. -/
  | take {x : Selected ι} {next : Attributed ι} (hfinds : Finds sample offset file entries x)
      (hrest : x.rest ≠ []) (heq : sample.offset = x.offset)
      (hlater : (samples.dropWhile fun s ↦ s.offset = sample.offset) ≠ [])
      (hnext : goLoop fileTable (sample.offset + (x.size : ℕ)) file x.rest
        (samples.dropWhile fun s ↦ s.offset = sample.offset) = next) :
      Turn fileTable file insnAt offset entries sample samples
        ⟨((sample :: samples.takeWhile fun s ↦ s.offset = sample.offset).map
          fun s ↦ (x.insn, s)) ++ next.calls, next.exit⟩

private theorem turn_goLoop {insnAt : ℤ → Option ι}
    (h : OneSourceFile fileTable file entries (sample :: samples))
    (hstarts : ∀ p ∈ starts offset entries, insnAt p.1 = some p.2) :
    Turn fileTable file insnAt offset entries sample samples
      (goLoop fileTable offset file entries (sample :: samples)) := by
  have hsample : sample.file = file := h.sample sample List.mem_cons_self
  rcases select_spec h.entry hsample offset with ⟨x, hx, hfinds⟩ | ⟨hx, hnone⟩
  · have hrest : ∀ entry ∈ x.rest, updateSourceFile fileTable file entry = some file :=
      fun entry hentry ↦ h.entry entry (hfinds.rest_subset hentry)
    have hinsn : insnAt x.offset = some x.insn :=
      hstarts (x.offset, x.insn) (hfinds.starts_subset List.mem_cons_self)
    have hend : x.rest = [] →
        (starts offset entries.dropLast).dropWhile (fun p ↦ p.1 < sample.offset) = [] :=
      fun hnil ↦ hfinds.usable.trans (if_pos hnil)
    rw [goLoop, hx]
    dsimp only
    rw [hfinds.file_eq]
    by_cases heq : sample.offset = x.offset
    · rw [if_pos heq, ← heq]
      rw [← heq] at hinsn
      split_ifs with hlater
      · exact .stop nofun (group_sublist hinsn) (Or.inr ⟨by rw [hinsn]; rfl, hlater⟩)
      · rw [enterEntry_eq hrest (h.sample _ ?_)]
        · by_cases hnil : x.rest = []
          · rw [if_pos hnil]
            exact .stop nofun (group_sublist hinsn) (Or.inl (hend hnil))
          · rw [if_neg hnil]
            exact .take hfinds hnil heq hlater rfl
        · exact ((List.takeWhile_sublist _).cons_cons sample).subset
            (List.getLast_mem (List.cons_ne_nil _ _))
    · rw [if_neg heq, enterEntry_eq hrest hsample]
      by_cases hnil : x.rest = []
      · rw [if_pos hnil]
        exact .stop nofun (List.nil_sublist _) (Or.inl (hend hnil))
      · rw [if_neg hnil]
        exact .skip hfinds hnil heq
  · rw [goLoop, hx]
    exact .stop nofun (List.nil_sublist _) (Or.inl hnone)

/-! ## The whole run -/

section Run

variable {insnAt : ℤ → Option ι} {x : Selected ι}

private theorem Finds.oneSourceFile (hfinds : Finds sample offset file entries x)
    (h : OneSourceFile fileTable file entries (sample :: samples))
    {later : List RacezInstructionSample} (hlater : later.Sublist samples) :
    OneSourceFile fileTable file x.rest later :=
  ⟨fun entry hentry ↦ h.entry entry (hfinds.rest_subset hentry),
    fun s hs ↦ h.sample s (List.mem_cons_of_mem _ (hlater.subset hs))⟩

private theorem Finds.insnAt_eq (hfinds : Finds sample offset file entries x)
    (hstarts : ∀ p ∈ starts offset entries, insnAt p.1 = some p.2) :
    insnAt x.offset = some x.insn
      ∧ ∀ p ∈ starts (x.offset + (x.size : ℕ)) x.rest, insnAt p.1 = some p.2 :=
  ⟨hstarts (x.offset, x.insn) (hfinds.starts_subset List.mem_cons_self),
    fun p hp ↦ hstarts p (hfinds.starts_subset (List.mem_cons_of_mem _ hp))⟩

private theorem calls_sublist (h : OneSourceFile fileTable file entries samples)
    (hstarts : ∀ p ∈ starts offset entries, insnAt p.1 = some p.2) :
    (goLoop fileTable offset file entries samples).calls.Sublist (callsFor insnAt samples) := by
  -- the samples left become fewer, by one or by a whole group
  induction hn : samples.length using Nat.strong_induction_on
    generalizing offset entries samples with
  | _ n ih =>
  cases samples with
  | nil =>
    rw [goLoop]
    exact List.nil_sublist _
  | cons sample samples =>
    have hturn := turn_goLoop h hstarts
    generalize goLoop fileTable offset file entries (sample :: samples) = result at hturn
    cases hturn with
    | stop hexit hcalls => exact hcalls
    | skip hfinds hrest hne =>
      refine List.Sublist.trans ?_ (callsFor_sublist_cons insnAt)
      exact ih samples.length (hn ▸ Nat.lt_succ_self _)
        (hfinds.oneSourceFile h (List.Sublist.refl _)) (hfinds.insnAt_eq hstarts).2 rfl
    | take hfinds hrest heq hlater hnext =>
      obtain ⟨hinsn, hnextStarts⟩ := hfinds.insnAt_eq hstarts
      rw [← heq] at hinsn hnextStarts
      rw [callsFor_cons_of_eq_some hinsn, ← hnext]
      refine List.Sublist.append (List.Sublist.refl _) ?_
      exact ih _ (hn ▸ Nat.lt_succ_of_le (List.length_dropWhile_le _ _))
        (hfinds.oneSourceFile h (List.dropWhile_sublist _)) hnextStarts rfl

/-- The places of the instructions that the cursor can leave behind. -/
def slots (offset : ℤ) (entries : List (MaoEntry ι)) : List ℤ :=
  (starts offset entries.dropLast).map Prod.fst

theorem dropWhile_slots (offset : ℤ) (entries : List (MaoEntry ι)) (o : ℤ) :
    (slots offset entries).dropWhile (· < o)
      = ((starts offset entries.dropLast).dropWhile fun p ↦ p.1 < o).map Prod.fst := by
  rw [slots, List.dropWhile_map]
  rfl

theorem Finds.dropWhile_slots (hfinds : Finds sample offset file entries x) (hrest : x.rest ≠ []) :
    (slots offset entries).dropWhile (· < sample.offset)
      = x.offset :: slots (x.offset + (x.size : ℕ)) x.rest := by
  rw [Racez.dropWhile_slots, hfinds.usable, if_neg hrest]
  rfl

/-- The loop is a run of points that take the next slot. -/
theorem goLoop_iff_served (h : OneSourceFile fileTable file entries samples)
    (hstarts : ∀ p ∈ starts offset entries, insnAt p.1 = some p.2) :
    ((goLoop fileTable offset file entries samples).exit = .finished
        ∧ (goLoop fileTable offset file entries samples).calls = callsFor insnAt samples)
      ↔ Greedy.Served (fun o ↦ (insnAt o).isSome) (slots offset entries)
        (samples.map RacezInstructionSample.offset) := by
  induction hn : samples.length using Nat.strong_induction_on
    generalizing offset entries samples with
  | _ n ih =>
  cases samples with
  | nil =>
    rw [goLoop]
    exact iff_of_true ⟨rfl, rfl⟩ (.nil _)
  | cons sample samples =>
    have hpoints : (samples.map RacezInstructionSample.offset).dropWhile (· = sample.offset)
        = (samples.dropWhile fun s ↦ s.offset = sample.offset).map
          RacezInstructionSample.offset := List.dropWhile_map
    have hturn := turn_goLoop h hstarts
    generalize goLoop fileTable offset file entries (sample :: samples) = result at hturn
    rw [List.map_cons]
    cases hturn with
    | stop hexit hcalls hend =>
      refine iff_of_false (fun hdone ↦ hexit hdone.1) ?_
      rcases hend with hend | ⟨hown, hlater⟩
      · refine Greedy.not_served_of_dropWhile_eq_nil ?_
        rw [dropWhile_slots, hend]
        rfl
      · refine Greedy.not_served_of_last hown ?_
        rw [hpoints, hlater]
        rfl
    | skip hfinds hrest hne =>
      obtain ⟨hinsn, hnextStarts⟩ := hfinds.insnAt_eq hstarts
      have hone := hfinds.oneSourceFile h (List.Sublist.refl samples)
      have hnext := ih samples.length (hn ▸ Nat.lt_succ_self _) hone hnextStarts rfl
      rw [Greedy.served_cons_iff_of_ne (hfinds.dropWhile_slots hrest) hne, ← hnext,
        eq_callsFor_cons_iff (calls_sublist hone hnextStarts), and_left_comm]
    | take hfinds hrest heq hlater hgo =>
      have hslot := hfinds.dropWhile_slots hrest
      obtain ⟨hinsn, hnextStarts⟩ := hfinds.insnAt_eq hstarts
      rw [← heq] at hslot hinsn hnextStarts
      have hshorter : (samples.dropWhile fun s ↦ s.offset = sample.offset).length < n := by
        rw [← hn]
        exact Nat.lt_succ_of_le (List.length_dropWhile_le _ _)
      have hnext := ih _ hshorter (hfinds.oneSourceFile h (List.dropWhile_sublist _))
        hnextStarts rfl
      have hmore : (samples.map RacezInstructionSample.offset).dropWhile (· = sample.offset)
          ≠ [] := by
        rw [hpoints]
        exact fun hnil ↦ hlater (List.map_eq_nil_iff.mp hnil)
      rw [Greedy.served_cons_iff_of_own hslot (by rw [hinsn]; rfl) hmore, hpoints, ← hnext, hgo,
        callsFor_cons_of_eq_some hinsn, List.append_cancel_left_eq]

end Run

end Turn

/-! ## Where instructions start -/

section Starts

variable {entries : List (MaoEntry ι)} {offset : ℤ} {p : ℤ × ι}

private theorem le_of_mem_starts (h : p ∈ starts offset entries) : offset ≤ p.1 := by
  induction entries generalizing offset with
  | nil => cases h
  | cons entry entries ih =>
    cases entry with
    | instruction insn size =>
      rcases List.mem_cons.mp h with rfl | h
      · exact le_rfl
      · exact (by omega : offset ≤ offset + (size : ℕ)).trans (ih h)
    | loc n => exact ih h
    | other => exact ih h

private theorem pairwise_starts (offset : ℤ) (entries : List (MaoEntry ι)) :
    (starts offset entries).Pairwise fun p q ↦ p.1 < q.1 := by
  induction entries generalizing offset with
  | nil => exact List.Pairwise.nil
  | cons entry entries ih =>
    cases entry with
    | instruction insn size =>
      refine List.pairwise_cons.mpr ⟨fun q hq ↦ ?_, ih _⟩
      have hle := le_of_mem_starts hq
      have hpos := size.pos
      omega
    | loc n => exact ih offset
    | other => exact ih offset

theorem instructionAt_of_mem (h : p ∈ starts 0 entries) : instructionAt entries p.1 = some p.2 := by
  obtain ⟨q, hq⟩ : ∃ q, (starts 0 entries).find? (fun q ↦ q.1 = p.1) = some q :=
    Option.isSome_iff_exists.mp (List.find?_isSome.mpr ⟨p, h, by simp⟩)
  have hnodup : ((starts 0 entries).map Prod.fst).Nodup :=
    List.pairwise_map.mpr ((pairwise_starts 0 entries).imp fun hlt ↦ hlt.ne)
  have hfst : q.1 = p.1 := by simpa using List.find?_some hq
  obtain rfl := List.inj_on_of_nodup_map hnodup (List.mem_of_find?_eq_some hq) h hfst
  rw [instructionAt, hq]
  rfl

private theorem mem_of_instructionAt {insn : ι} (h : instructionAt entries offset = some insn) :
    (offset, insn) ∈ starts 0 entries := by
  obtain ⟨q, hq, rfl⟩ := Option.map_eq_some_iff.mp h
  have hoffset : q.1 = offset := by simpa using List.find?_some hq
  exact hoffset ▸ List.mem_of_find?_eq_some hq

theorem starts_isPrefix_append (offset : ℤ) (near far : List (MaoEntry ι)) :
    starts offset near <+: starts offset (near ++ far) := by
  induction near generalizing offset with
  | nil => exact List.nil_prefix
  | cons entry near ih =>
    cases entry with
    | instruction insn size => exact (List.prefix_cons_inj _).mpr (ih _)
    | loc n => exact ih offset
    | other => exact ih offset

/-- The cursor can leave all instructions behind but one that is the last entry. -/
theorem exists_starts_eq_append (offset : ℤ) (entries : List (MaoEntry ι)) :
    ∃ last, starts offset entries = starts offset entries.dropLast ++ last := by
  obtain ⟨far, hfar⟩ := List.dropLast_prefix entries
  obtain ⟨last, hlast⟩ := starts_isPrefix_append offset entries.dropLast far
  exact ⟨last, by rw [hlast, hfar]⟩

private theorem pairwise_slots (entries : List (MaoEntry ι)) : (slots 0 entries).Pairwise (· < ·) :=
  List.pairwise_map.mpr (pairwise_starts 0 entries.dropLast)

private theorem isSome_of_mem_slots {b : ℤ} (h : b ∈ slots 0 entries) :
    (instructionAt entries b).isSome = true := by
  obtain ⟨p, hp, rfl⟩ := List.mem_map.mp h
  obtain ⟨last, hlast⟩ := exists_starts_eq_append 0 entries
  rw [instructionAt_of_mem (hlast ▸ List.mem_append_left last hp)]
  rfl

private theorem lt_of_notMem_slots {b o : ℤ} (ho : (instructionAt entries o).isSome = true)
    (hmem : o ∉ slots 0 entries) (hb : b ∈ slots 0 entries) : b < o := by
  obtain ⟨insn, hinsn⟩ := Option.isSome_iff_exists.mp ho
  obtain ⟨last, hlast⟩ := exists_starts_eq_append 0 entries
  have hpairwise := hlast ▸ pairwise_starts 0 entries
  obtain ⟨p, hp, rfl⟩ := List.mem_map.mp hb
  rcases List.mem_append.mp (hlast ▸ mem_of_instructionAt hinsn) with ho' | ho'
  · exact absurd (List.mem_map_of_mem ho') hmem
  · exact (List.pairwise_append.mp hpairwise).2.2 p hp _ ho'

end Starts

/-! ## When all samples are attributed -/

section Attributes

variable {fileTable : List (List Char)} {file : List Char} {entries : List (MaoEntry ι)}
  {samples : List RacezInstructionSample}

/-- Each sample at the start of an instruction leads to one call with that instruction, no other
sample does, and neither cursor is dereferenced at its end. -/
def AttributesAll (fileTable : List (List Char)) (file : List Char) (entries : List (MaoEntry ι))
    (samples : List RacezInstructionSample) : Prop :=
  (go fileTable file entries samples).exit = .finished
    ∧ (go fileTable file entries samples).calls.Perm (callsFor (instructionAt entries) samples)

theorem sortSamples_perm (samples : List RacezInstructionSample) :
    (sortSamples samples).Perm samples :=
  List.mergeSort_perm _ _

private theorem pairwise_sortSamples (samples : List RacezInstructionSample) :
    ((sortSamples samples).map RacezInstructionSample.offset).Pairwise (· ≤ ·) := by
  rw [List.pairwise_map]
  exact SortedVector.pairwise_mergeSort_key RacezInstructionSample.offset samples

/-- The end tests before the loop change nothing. -/
theorem go_eq (h : OneSourceFile fileTable file entries samples) :
    go fileTable file entries samples
      = goLoop fileTable 0 file entries (sortSamples samples) := by
  by_cases hnil : sortSamples samples = []
  · rw [go.eq_def, if_pos hnil, hnil, goLoop]
  · rw [go.eq_def, if_neg hnil]
    cases entries with
    | nil =>
      obtain ⟨s, rest, hs⟩ := List.exists_cons_of_ne_nil hnil
      rw [hs, goLoop]
      rfl
    | cons entry entries =>
      dsimp only
      rw [h.entry entry List.mem_cons_self]

private theorem attributesAll_iff_served (h : OneSourceFile fileTable file entries samples) :
    AttributesAll fileTable file entries samples
      ↔ Greedy.Served (fun o ↦ (instructionAt entries o).isSome) (slots 0 entries)
        ((sortSamples samples).map RacezInstructionSample.offset) := by
  have hsorted : OneSourceFile fileTable file entries (sortSamples samples) :=
    ⟨h.entry, fun s hs ↦ h.sample s ((sortSamples_perm samples).mem_iff.mp hs)⟩
  have hstarts : ∀ p ∈ starts 0 entries, instructionAt entries p.1 = some p.2 :=
    fun p hp ↦ instructionAt_of_mem hp
  have hperm : (callsFor (instructionAt entries) (sortSamples samples)).Perm
      (callsFor (instructionAt entries) samples) := (sortSamples_perm samples).filterMap _
  rw [← goLoop_iff_served hsorted hstarts, AttributesAll, go_eq h]
  refine and_congr_right fun _ ↦ ⟨fun hcalls ↦ ?_, fun hcalls ↦ hcalls ▸ hperm⟩
  exact (calls_sublist hsorted hstarts).eq_of_length
    (hcalls.length_eq.trans hperm.length_eq.symm)

/-- **When all samples are attributed.** The sample with the greatest offset must not be at the
start of an instruction, or the loop runs over the end of the samples. In each interval up to a
sampled instruction, and from each place on, there must be an instruction without samples for each
sample that is not at the start of one. -/
theorem attributesAll_iff (h : OneSourceFile fileTable file entries samples) :
    AttributesAll fileTable file entries samples
      ↔ (∀ s ∈ samples, (∀ t ∈ samples, t.offset ≤ s.offset) →
          instructionAt entries s.offset = none)
        ∧ Greedy.Balanced (fun o ↦ (instructionAt entries o).isSome) (slots 0 entries)
          (samples.map RacezInstructionSample.offset) := by
  have hperm := (sortSamples_perm samples).map RacezInstructionSample.offset
  rw [attributesAll_iff_served h, Greedy.served_iff_balanced (pairwise_slots entries)
    (pairwise_sortSamples samples) (fun b hb ↦ isSome_of_mem_slots hb)
    (fun t ht hmem b hb ↦ lt_of_notMem_slots ht hmem hb),
    Greedy.forall_getLast?_iff (pairwise_sortSamples samples), Greedy.balanced_perm hperm]
  simp only [hperm.mem_iff, List.forall_mem_map, Bool.not_eq_true, Option.isSome_eq_false_iff,
    Option.isNone_iff_eq_none]

end Attributes

/-! ## Two runs -/

/-- A source file. -/
def sourceFile : List Char := "/src/a.c".toList

/-- Entries of one file, with an instruction every five bytes. -/
def fiveByteInsns : List (MaoEntry ℕ) :=
  [.loc 1, .instruction 0 5, .instruction 1 5, .instruction 2 5, .other]

/-- A sample of that file. -/
def sampleAt (offset index : ℤ) : RacezInstructionSample := ⟨sourceFile, index, offset, 0⟩

private theorem oneSourceFile_fiveByteInsns {samples : List RacezInstructionSample}
    (h : ∀ s ∈ samples, s.file = sourceFile) :
    OneSourceFile [[], sourceFile] sourceFile fiveByteInsns samples := by
  refine ⟨?_, h⟩
  intro entry hentry
  simp only [fiveByteInsns, List.mem_cons, List.not_mem_nil, or_false] at hentry
  rcases hentry with rfl | rfl | rfl | rfl | rfl <;> rfl

/-- One sample at an instruction, and one behind it that is not. -/
theorem attributesAll_betweenInsns :
    AttributesAll [[], sourceFile] sourceFile fiveByteInsns [sampleAt 7 0, sampleAt 5 1] := by
  refine (attributesAll_iff (oneSourceFile_fiveByteInsns (by simp [sampleAt]))).mpr ⟨?_, ?_⟩
  · intro s hs hgreatest
    have hle : 7 ≤ s.offset := hgreatest (sampleAt 7 0) List.mem_cons_self
    rcases List.mem_pair.mp hs with rfl | rfl
    · decide
    · exact absurd hle (by decide)
  · have hpoints : ([sampleAt 7 0, sampleAt 5 1].map RacezInstructionSample.offset).filter
        (fun o ↦ ¬(instructionAt fiveByteInsns o).isSome) = [7] := by decide
    have hslots : (slots 0 fiveByteInsns).filter
        (fun a ↦ a ∉ [sampleAt 7 0, sampleAt 5 1].map RacezInstructionSample.offset) = [0, 10] := by
      decide
    rintro x y hy
    rw [hpoints, hslots]
    rcases hy with rfl | ⟨t, ht, hown, rfl⟩
    · simp only [Greedy.countIn_cons, WithTop.coe_lt_top, and_true]
      split_ifs <;> omega
    · -- the sample between the instructions is behind the only sampled one
      have htwo : t = 7 ∨ t = 5 := by simpa [sampleAt] using ht
      obtain rfl : t = 5 := htwo.resolve_left fun h ↦ absurd (h ▸ hown) (by decide)
      rw [Greedy.countIn_eq_zero fun a ha _ ↦ ?_]
      · exact Nat.zero_le _
      · rw [List.mem_singleton.mp ha, WithTop.coe_lt_coe]
        decide

/-- A sample alone, at the start of an instruction. The loop over the samples with its offset looks
at one more. -/
theorem not_attributesAll_lastSample :
    OneSourceFile [[], sourceFile] sourceFile fiveByteInsns [sampleAt 5 0]
      ∧ ¬AttributesAll [[], sourceFile] sourceFile fiveByteInsns [sampleAt 5 0] := by
  have hone : OneSourceFile [[], sourceFile] sourceFile fiveByteInsns [sampleAt 5 0] :=
    oneSourceFile_fiveByteInsns (by simp [sampleAt])
  have hselect : select [[], sourceFile] (sampleAt 5 0) 0 sourceFile fiveByteInsns
      = .ok ⟨5, sourceFile, 1, 5, [.instruction 2 5, .other]⟩ := rfl
  have hsort : sortSamples [sampleAt 5 0] = [sampleAt 5 0] := List.mergeSort_singleton _
  refine ⟨hone, fun h ↦ ?_⟩
  have hexit := h.1
  rw [go_eq hone, hsort, goLoop, hselect] at hexit
  exact absurd hexit nofun

end Racez
