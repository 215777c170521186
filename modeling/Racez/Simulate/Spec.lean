import Mathlib.Data.List.Basic
import Racez.Simulate.Pass

/-!
# What the pass finds

The walks update maps as they go. Here their result is stated without the maps: a record is appended
for an instruction exactly if the walk gets there and the address of its memory operand is known,
that is, can be computed from the sample and does not depend on a register that was marked on the
way (`mem_samples_walk_iff`, `mem_executeSimWhole_iff`).

## One instruction

`computeMemory_eq` says what the address of an operand is: that of the sample if it is known, and
`-1` if not. `PassedBy` is what a walk does at an instruction it passes, in both directions: the
entries that are marked behind it, and the record, if there is one. There is one lemma for each kind
of instruction, with two for loads, since a load is handled differently on the two ways
(`PassedBy.load_forward`, `PassedBy.load_backward`).

## Walks

The maps of a walk are those of the entries it has marked, so a walk is described by the list of
these entries. At an instruction that it passes it goes on with the marks of the instruction added;
at one that it does not it ends. `FoundAfter` says that a record comes from an instruction behind a
list of others that were passed, and an induction over the instructions shows that these are all
records.

The walk back does not touch the map of the way forward. Before the way forward the sampled
instruction itself is marked in it (`marks_forwardMaps`). An assertion fails at an instruction the
pass cannot take apart, and then everything found by then has been appended already.
-/

namespace Racez

open X86 (Gpr)

/-! ## Marked registers -/

/-- The map marks the entries in the list and no others. -/
def RegMap.Marks (map : RegMap) (entries : List (Option RegEntry)) : Prop :=
  ∀ entry, map entry = if entry ∈ entries then -1 else 0

@[simp] theorem marks_empty : RegMap.empty.Marks [] := fun _ ↦ by simp [RegMap.empty]

private theorem RegMap.Marks.eq_neg_one_iff {map : RegMap} {entries : List (Option RegEntry)}
    (h : map.Marks entries) {entry : Option RegEntry} : map entry = -1 ↔ entry ∈ entries := by
  rw [h entry]
  split_ifs with hmem
  · exact iff_of_true rfl hmem
  · exact iff_of_false (by decide) hmem

theorem RegMap.Marks.update {map : RegMap} {entries : List (Option RegEntry)}
    (h : map.Marks entries) (entry : Option RegEntry) :
    RegMap.Marks (Function.update map entry (-1)) (entries ++ [entry]) := by
  intro entry'
  by_cases heq : entry' = entry
  · subst heq
    rw [Function.update_self, if_pos (by simp)]
  · rw [Function.update_of_ne heq, h entry']
    simp [heq]

theorem RegMap.Marks.invalidateRegister {map : RegMap} {entries : List (Option RegEntry)}
    (h : map.Marks entries) (result : Option RegEntry) :
    (Racez.invalidateRegister map result).Marks (entries ++ invalidated result) := by
  rw [Racez.invalidateRegister]
  generalize invalidated result = more
  induction more generalizing map entries with
  | nil => rwa [List.append_nil]
  | cons entry more ih =>
    rw [List.foldl_cons, List.append_cons]
    exact ih (h.update entry)

/-! ## Known addresses -/

/-- The address of a memory operand with the registers of the sample. -/
def sampleAddress (sample : PebsCoreSmplEntry) (insn : InstructionEntry) (i : ℕ) : BitVec 64 :=
  insn.getSimpleDisp i + sample.value insn.baseRegister
    + insn.indexRegister.elim 0 (fun r ↦ sample.value (some r)) * insn.getScaleValue

/-- The address can be computed from the sample if the entries `marked` must not be used. Neither a
part of the address nor the address itself may be the value that stands for an unknown one. -/
structure AddressKnown (sample : PebsCoreSmplEntry) (insn : InstructionEntry) (i : ℕ)
    (marked : List (Option RegEntry)) : Prop where
  /-- The operand is not one of the stack frame. -/
  notLocal : insn.baseRegister ≠ some (.r64 .rbp) ∧ insn.baseRegister ≠ some (.r64 .rsp)
  /-- The base register may be used, and has a known value. -/
  base : insn.baseRegister ∉ marked ∧ sample.value insn.baseRegister ≠ -1
  /-- So may the index register. -/
  index : ∀ r, insn.indexRegister = some r → some r ∉ marked ∧ sample.value (some r) ≠ -1
  /-- The displacement is a number. -/
  disp : insn.getSimpleDisp i ≠ -1
  /-- What comes out is not the value for an unknown address. -/
  address : sampleAddress sample insn i ≠ -1

/-- The map a direction looks at. -/
def RegMaps.Marks (maps : RegMaps) (marked : List (Option RegEntry)) : Direction → Prop
  | .backward => maps.backward.Marks marked
  | .forward => maps.forward.Marks marked
  | .update => marked = []

section Known

variable {maps : RegMaps} {sample : PebsCoreSmplEntry} {insn : InstructionEntry} {i : ℕ}
  {marked : List (Option RegEntry)} {direction : Direction}

theorem getValueFromRegister_eq (h : maps.Marks marked direction) (reg : Option RegEntry) :
    getValueFromRegister maps sample reg direction
      = if reg ∈ marked then -1 else sample.value reg := by
  cases direction with
  | backward =>
    rw [getValueFromRegister]
    exact if_congr h.eq_neg_one_iff rfl rfl
  | forward =>
    rw [getValueFromRegister]
    exact if_congr h.eq_neg_one_iff rfl rfl
  | update =>
    rw [show marked = [] from h, if_neg List.not_mem_nil, getValueFromRegister]

variable (sample) in
private theorem getValueFromRegister_ne_iff (h : maps.Marks marked direction)
    (reg : Option RegEntry) :
    getValueFromRegister maps sample reg direction ≠ -1
      ↔ reg ∉ marked ∧ sample.value reg ≠ -1 := by
  rw [getValueFromRegister_eq h]
  split_ifs with hmem
  · simp [hmem]
  · simp [hmem]

variable (sample) in
/-- `ComputeMemory` yields the address if it is known, and `-1` if not. -/
theorem computeMemory_eq (h : maps.Marks marked direction) (insn : InstructionEntry) (i : ℕ) :
    (AddressKnown sample insn i marked
        ∧ computeMemory maps sample insn i direction = sampleAddress sample insn i)
      ∨ (¬AddressKnown sample insn i marked
        ∧ computeMemory maps sample insn i direction = -1) := by
  rw [computeMemory]
  dsimp only
  by_cases hlocal : insn.baseRegister = some (.r64 .rbp) ∨ insn.baseRegister = some (.r64 .rsp)
  · rw [if_pos hlocal]
    refine Or.inr ⟨?_, rfl⟩
    intro hknown
    exact hlocal.elim hknown.notLocal.1 hknown.notLocal.2
  rw [if_neg hlocal]
  -- the index register as far as there is one
  generalize hidx : (insn.indexRegister.elim 0
    fun r ↦ getValueFromRegister maps sample (some r) direction) = indexValue
  have hindex : (indexValue ≠ -1
      ↔ ∀ r, insn.indexRegister = some r → some r ∉ marked ∧ sample.value (some r) ≠ -1)
      ∧ (indexValue ≠ -1 →
        indexValue = insn.indexRegister.elim 0 fun r ↦ sample.value (some r)) := by
    rw [← hidx]
    cases insn.indexRegister with
    | none =>
      have hzero : (0 : BitVec 64) ≠ -1 := by decide
      exact ⟨iff_of_true hzero (by simp), fun _ ↦ rfl⟩
    | some r =>
      refine ⟨(getValueFromRegister_ne_iff sample h (some r)).trans (by simp), ?_⟩
      intro hne
      rw [Option.elim_some] at hne ⊢
      have hfree := ((getValueFromRegister_ne_iff sample h (some r)).mp hne).1
      rw [getValueFromRegister_eq h, if_neg hfree]
      rfl
  have hbase := getValueFromRegister_ne_iff sample h insn.baseRegister
  by_cases hparts : indexValue ≠ -1
      ∧ getValueFromRegister maps sample insn.baseRegister direction ≠ -1
      ∧ insn.getSimpleDisp i ≠ -1
  · rw [if_pos hparts, hindex.2 hparts.1, getValueFromRegister_eq h,
      if_neg (hbase.mp hparts.2.1).1, ← sampleAddress]
    by_cases haddress : sampleAddress sample insn i = -1
    · exact Or.inr ⟨fun hknown ↦ hknown.address haddress, haddress⟩
    · exact Or.inl ⟨⟨not_or.mp hlocal, hbase.mp hparts.2.1, hindex.1.mp hparts.1, hparts.2.2,
        haddress⟩, rfl⟩
  · rw [if_neg hparts]
    refine Or.inr ⟨?_, rfl⟩
    intro hknown
    exact hparts ⟨hindex.1.mpr hknown.index, hbase.mpr hknown.base, hknown.disp⟩

end Known

/-! ## One instruction -/

/-- The operand in memory; with two of them the first one counts. -/
def InstructionEntry.memIndex (insn : InstructionEntry) : Option ℕ :=
  if insn.isMemOperand 0 then some 0 else if insn.isMemOperand 1 then some 1 else none

/-- A walk goes on after the instruction. -/
def InstructionEntry.Passes (insn : InstructionEntry) : Prop :=
  insn.insnCanHandle = true ∧ (insn.combines = true → insn.operands.length = 2
    ∧ (insn.memIndex = none → insn.isRegisterOperand 1 = true))

/-- The entries an instruction marks when a walk passes it. A store marks nothing. -/
def InstructionEntry.marks (stray : InstructionEntry → ℕ → Option RegEntry)
    (insn : InstructionEntry) : List (Option RegEntry) :=
  if insn.combines = true ∧ insn.memIndex ≠ some 1 then
    invalidated (insn.getRegisterOperand stray 1)
  else []

/-- The entries that are marked when the address of an instruction is computed. -/
def markedAt (stray : InstructionEntry → ℕ → Option RegEntry) (direction : Direction)
    (marked : List (Option RegEntry)) (insn : InstructionEntry) : List (Option RegEntry) :=
  if direction = .forward then marked else marked ++ insn.marks stray

section Step

variable {stray : InstructionEntry → ℕ → Option RegEntry} {raw : Record} {maps : RegMaps}
  {insn : InstructionEntry} {marked : List (Option RegEntry)} {direction : Direction} {offset : ℤ}

private theorem memIndex_eq_none_iff :
    insn.memIndex = none ↔ insn.isMemOperand 0 = false ∧ insn.isMemOperand 1 = false := by
  rw [InstructionEntry.memIndex]
  split_ifs with h₀ h₁
  · simp [h₀]
  · simp [h₁]
  · simp [h₀, h₁]

private theorem computeNewSampleWhole_of_not_passes (h : ¬insn.Passes) :
    computeNewSampleWhole stray raw maps insn offset direction
      = if insn.insnCanHandle = false then .stop else .abort := by
  rw [computeNewSampleWhole]
  dsimp only
  by_cases hhandle : insn.insnCanHandle = false
  · rw [if_pos hhandle, if_pos hhandle]
  rw [if_neg hhandle, if_neg hhandle]
  rw [Bool.not_eq_false] at hhandle
  by_cases hcombines : insn.combines = true
  · rw [if_pos hcombines]
    by_cases hlength : insn.operands.length = 2
    · -- two operands, none of them in memory, and the second no register
      have hrest : insn.memIndex = none ∧ ¬insn.isRegisterOperand 1 = true := by
        rw [← Classical.not_imp]
        exact fun hreg ↦ h ⟨hhandle, fun _ ↦ ⟨hlength, hreg⟩⟩
      obtain ⟨h₀, h₁⟩ := memIndex_eq_none_iff.mp hrest.1
      rw [← Bool.not_eq_true] at h₀ h₁
      rw [if_neg (not_not.mpr hlength), if_neg h₀, if_neg h₁, if_neg hrest.2, if_neg h₀, if_neg h₁,
        ite_self]
    · rw [if_pos hlength]
  · exact absurd ⟨hhandle, fun hc ↦ absurd hc hcombines⟩ h

private theorem recordUnlessUnknown_eq_some_iff (h : maps.Marks marked direction) {i : ℕ}
    {isWrite : ℤ} {ip : BitVec 64} {record : Record} :
    recordUnlessUnknown raw isWrite ip
        (computeMemory maps raw.memoryAccess.memOp insn i direction) = some record
      ↔ AddressKnown raw.memoryAccess.memOp insn i marked
        ∧ record = newRecord raw isWrite ip (sampleAddress raw.memoryAccess.memOp insn i) := by
  rw [recordUnlessUnknown]
  rcases computeMemory_eq raw.memoryAccess.memOp h insn i
    with ⟨hknown, heq⟩ | ⟨hunknown, heq⟩
  · rw [heq, if_neg hknown.address, Option.some_inj, eq_comm]
    exact (and_iff_right hknown).symm
  · rw [heq, if_pos rfl]
    exact iff_of_false nofun fun hknown ↦ hunknown hknown.1

theorem RegMaps.Marks.clobber (h : maps.Marks marked direction) (hupdate : direction ≠ .update) :
    (maps.clobber stray insn direction).Marks
      (marked ++ invalidated (insn.getRegisterOperand stray 1)) direction := by
  cases direction with
  | backward => exact RegMap.Marks.invalidateRegister h _
  | forward => exact RegMap.Marks.invalidateRegister h _
  | update => exact absurd rfl hupdate

/-- What a walk does at an instruction it passes: it marks entries, and finds a record if the
address is known. -/
structure PassedBy (stray : InstructionEntry → ℕ → Option RegEntry) (raw : Record)
    (direction : Direction) (marked : List (Option RegEntry)) (insn : InstructionEntry)
    (ip : BitVec 64) (maps maps' : RegMaps) (record : Option Record) : Prop where
  /-- The entries of the instruction are marked in addition. -/
  marks : maps'.Marks (marked ++ insn.marks stray) direction
  /-- The walk to the start of the block leaves the marks of the other one alone. -/
  other : direction = .backward → maps'.forward = maps.forward
  /-- There is a record if the instruction has one and its address is known. -/
  record_iff : ∀ r, record = some r ↔ insn.combines = true ∧ ∃ i : ℕ, insn.memIndex = some i
    ∧ AddressKnown raw.memoryAccess.memOp insn i (markedAt stray direction marked insn)
    ∧ r = newRecord raw i ip (sampleAddress raw.memoryAccess.memOp insn i)

private theorem marks_of_store (h : insn.memIndex = some 1) : insn.marks stray = [] := by
  rw [InstructionEntry.marks, if_neg fun hc ↦ hc.2 h]

theorem marks_of_combines (hc : insn.combines = true) (h : insn.memIndex ≠ some 1) :
    insn.marks stray = invalidated (insn.getRegisterOperand stray 1) := by
  rw [InstructionEntry.marks, if_pos ⟨hc, h⟩]

private theorem PassedBy.of_not_combines (h : insn.combines ≠ true)
    (hmarks : maps.Marks marked direction)
    (ip : BitVec 64) : PassedBy stray raw direction marked insn ip maps maps none where
  marks := by rwa [InstructionEntry.marks, if_neg fun hc ↦ h hc.1, List.append_nil]
  other _ := rfl
  record_iff r := by simp [h]

theorem PassedBy.store (hcombines : insn.combines = true) (hindex : insn.memIndex = some 1)
    (hmarks : maps.Marks marked direction) (ip : BitVec 64) :
    PassedBy stray raw direction marked insn ip maps maps
      (recordUnlessUnknown raw 1 ip (computeMemory maps raw.memoryAccess.memOp insn 1 direction))
    where
  marks := by rwa [marks_of_store hindex, List.append_nil]
  other _ := rfl
  record_iff r := by
    rw [recordUnlessUnknown_eq_some_iff hmarks]
    simp [hcombines, hindex, markedAt, marks_of_store hindex]

private theorem RegMaps.Marks.clobber_marks (hcombines : insn.combines = true)
    (hindex : insn.memIndex ≠ some 1) (hmarks : maps.Marks marked direction)
    (hupdate : direction ≠ .update) :
    (maps.clobber stray insn direction).Marks (marked ++ insn.marks stray) direction := by
  rw [marks_of_combines hcombines hindex]
  exact hmarks.clobber hupdate

private theorem forward_clobber (h : direction = .backward) :
    (maps.clobber stray insn direction).forward = maps.forward := by
  subst h
  rfl

theorem PassedBy.register (hcombines : insn.combines = true) (hindex : insn.memIndex = none)
    (hmarks : maps.Marks marked direction) (hupdate : direction ≠ .update) (ip : BitVec 64) :
    PassedBy stray raw direction marked insn ip maps (maps.clobber stray insn direction) none where
  marks := hmarks.clobber_marks hcombines (by simp [hindex]) hupdate
  other := forward_clobber
  record_iff r := by simp [hindex]

/-- A load on the way forward: the address is computed first. -/
theorem PassedBy.load_forward (hcombines : insn.combines = true) (hindex : insn.memIndex = some 0)
    (hmarks : maps.Marks marked .forward) (ip : BitVec 64) :
    PassedBy stray raw .forward marked insn ip maps (maps.clobber stray insn .forward)
      (recordUnlessUnknown raw 0 ip (computeMemory maps raw.memoryAccess.memOp insn 0 .forward))
    where
  marks := hmarks.clobber_marks hcombines (by simp [hindex]) nofun
  other := forward_clobber
  record_iff r := by
    rw [recordUnlessUnknown_eq_some_iff hmarks]
    simp [hcombines, hindex, markedAt]

/-- A load on the way back: its register is marked first. -/
theorem PassedBy.load_backward (hcombines : insn.combines = true) (hindex : insn.memIndex = some 0)
    (hmarks : maps.Marks marked .backward) (ip : BitVec 64) :
    PassedBy stray raw .backward marked insn ip maps (maps.clobber stray insn .backward)
      (recordUnlessUnknown raw 0 ip (computeMemory (maps.clobber stray insn .backward)
        raw.memoryAccess.memOp insn 0 .backward)) where
  marks := hmarks.clobber_marks hcombines (by simp [hindex]) nofun
  other := forward_clobber
  record_iff r := by
    rw [recordUnlessUnknown_eq_some_iff
      (hmarks.clobber_marks hcombines (by simp [hindex]) nofun)]
    simp [hcombines, hindex, markedAt]

/-- The address a direction computes from the distance to the sampled instruction. -/
def addressAt (raw : Record) (offset : ℤ) (direction : Direction) : BitVec 64 :=
  if direction = .forward then raw.memoryAccess.memOp.ip + BitVec.ofInt 64 offset
  else raw.memoryAccess.memOp.ip - BitVec.ofInt 64 offset

private theorem computeNewSampleWhole_of_passes (h : insn.Passes)
    (hmarks : maps.Marks marked direction) (hupdate : direction ≠ .update) :
    ∃ maps' record, computeNewSampleWhole stray raw maps insn offset direction
        = .next maps' record
      ∧ PassedBy stray raw direction marked insn (addressAt raw offset direction) maps maps'
        record := by
  obtain ⟨hhandle, hpasses⟩ := h
  rw [computeNewSampleWhole]
  dsimp only
  rw [if_neg (by simp [hhandle])]
  by_cases hcombines : insn.combines = true
  · obtain ⟨hlength, hreg⟩ := hpasses hcombines
    rw [if_pos hcombines, if_neg (by simp [hlength])]
    by_cases h₀ : insn.isMemOperand 0 = true
    · -- a load: the directions differ in when the register is marked
      have hindex : insn.memIndex = some 0 := if_pos h₀
      rw [if_pos h₀, if_pos h₀]
      cases direction with
      | forward => exact ⟨_, _, rfl, .load_forward hcombines hindex hmarks _⟩
      | backward => exact ⟨_, _, rfl, .load_backward hcombines hindex hmarks _⟩
      | update => exact absurd rfl hupdate
    rw [if_neg h₀, if_neg h₀]
    by_cases h₁ : insn.isMemOperand 1 = true
    · have hindex : insn.memIndex = some 1 := (if_neg h₀).trans (if_pos h₁)
      rw [if_pos h₁, if_pos h₁]
      refine ⟨_, _, ?_, .store hcombines hindex hmarks _⟩
      rw [addressAt]
      split_ifs <;> rfl
    · have hindex : insn.memIndex = none := (if_neg h₀).trans (if_neg h₁)
      rw [if_neg h₁, if_neg h₁, if_pos (hreg hindex), ite_self]
      exact ⟨_, _, rfl, .register hcombines hindex hmarks hupdate _⟩
  · rw [if_neg hcombines]
    exact ⟨_, _, rfl, .of_not_combines hcombines hmarks _⟩

end Step

/-! ## Walks -/

/-- The address of an instruction, from the one of the sampled instruction at `origin`. -/
def instructionAddress (raw : Record) (origin : ℤ) (x : PlacedInsn) : BitVec 64 :=
  raw.memoryAccess.memOp.ip + BitVec.ofInt 64 (x.offset - origin)

/-- After the instructions `near` a walk gets to an instruction with a known address. -/
structure FoundAfter (stray : InstructionEntry → ℕ → Option RegEntry) (raw : Record) (origin : ℤ)
    (direction : Direction) (marked : List (Option RegEntry)) (near : List PlacedInsn)
    (s : NewSample) : Prop where
  /-- The walk passes the instructions in front of it. -/
  reached : ∀ y ∈ near, y.insn.Passes
  /-- It does not end at the instruction itself. -/
  passes : s.placed.insn.Passes
  /-- A record is made for it. -/
  combines : s.placed.insn.combines = true
  /-- The record has the address that is computed there. -/
  record : ∃ i : ℕ, s.placed.insn.memIndex = some i
    ∧ AddressKnown raw.memoryAccess.memOp s.placed.insn i (markedAt stray direction
        (marked ++ near.flatMap fun y ↦ y.insn.marks stray) s.placed.insn)
    ∧ s.record = newRecord raw i (instructionAddress raw origin s.placed)
        (sampleAddress raw.memoryAccess.memOp s.placed.insn i)

/-- An assertion fails at some instruction. -/
def Aborts (l : List PlacedInsn) : Prop :=
  ∃ near x far, l = near ++ x :: far ∧ (∀ y ∈ near, y.insn.Passes)
    ∧ x.insn.insnCanHandle = true ∧ ¬x.insn.Passes

section Walk

variable {stray : InstructionEntry → ℕ → Option RegEntry} {raw : Record} {origin : ℤ}
  {direction : Direction} {maps : RegMaps} {marked : List (Option RegEntry)} {x : PlacedInsn}
  {l : List PlacedInsn} {s : NewSample}

/-- The distance a walk hands on in a direction. -/
def distance (origin : ℤ) (direction : Direction) (x : PlacedInsn) : ℤ :=
  if direction = .forward then x.offset - origin else origin - x.offset

@[simp] theorem addressAt_distance (raw : Record) (origin : ℤ) (direction : Direction)
    (x : PlacedInsn) :
    addressAt raw (distance origin direction x) direction = instructionAddress raw origin x := by
  rw [addressAt, distance]
  split_ifs with hforward
  · rfl
  · rw [instructionAddress, ← neg_sub origin x.offset, BitVec.ofInt_neg, BitVec.sub_eq_add_neg]

variable (stray raw origin) in
private theorem exists_passedBy (h : x.insn.Passes) (hmarks : maps.Marks marked direction)
    (hupdate : direction ≠ .update) :
    ∃ maps' record, computeNewSampleWhole stray raw maps x.insn (distance origin direction x)
        direction = .next maps' record
      ∧ PassedBy stray raw direction marked x.insn (instructionAddress raw origin x) maps maps'
        record := by
  rw [← addressAt_distance raw origin direction x]
  exact computeNewSampleWhole_of_passes h hmarks hupdate

@[simp] theorem walk_nil : walk stray raw origin direction maps [] = ⟨[], maps, false⟩ := rfl

theorem walk_cons (x : PlacedInsn) (l : List PlacedInsn) :
    walk stray raw origin direction maps (x :: l)
      = match computeNewSampleWhole stray raw maps x.insn (distance origin direction x) direction
        with
        | .stop => ⟨[], maps, false⟩
        | .abort => ⟨[], maps, true⟩
        | .next maps record =>
          { walk stray raw origin direction maps l with
            samples := record.toList.map (⟨x, ·⟩)
              ++ (walk stray raw origin direction maps l).samples } :=
  rfl

private theorem walk_cons_of_not_passes (h : ¬x.insn.Passes) :
    walk stray raw origin direction maps (x :: l) = ⟨[], maps, x.insn.insnCanHandle⟩ := by
  rw [walk_cons, computeNewSampleWhole_of_not_passes h]
  cases x.insn.insnCanHandle with
  | false => rfl
  | true => rfl

private theorem exists_cons_eq_append_iff {α : Type*} {a y : α} {l : List α}
    {P : List α → List α → Prop} :
    (∃ near far, a :: l = near ++ y :: far ∧ P near far)
      ↔ (a = y ∧ P [] l) ∨ ∃ near far, l = near ++ y :: far ∧ P (a :: near) far := by
  constructor
  · rintro ⟨near, far, heq, hP⟩
    cases near with
    | nil =>
      obtain ⟨rfl, rfl⟩ := List.cons.inj heq
      exact Or.inl ⟨rfl, hP⟩
    | cons z near =>
      obtain ⟨rfl, rfl⟩ := List.cons.inj heq
      exact Or.inr ⟨near, far, rfl, hP⟩
  · rintro (⟨rfl, hP⟩ | ⟨near, far, rfl, hP⟩)
    · exact ⟨[], l, rfl, hP⟩
    · exact ⟨a :: near, far, rfl, hP⟩

private theorem foundAfter_cons_iff {near : List PlacedInsn} :
    FoundAfter stray raw origin direction marked (x :: near) s
      ↔ x.insn.Passes
        ∧ FoundAfter stray raw origin direction (marked ++ x.insn.marks stray) near s := by
  constructor
  · rintro ⟨hnear, hpass, hcombines, hrecord⟩
    rw [List.forall_mem_cons] at hnear
    rw [List.flatMap_cons, ← List.append_assoc] at hrecord
    exact ⟨hnear.1, hnear.2, hpass, hcombines, hrecord⟩
  · rintro ⟨hx, hnear, hpass, hcombines, hrecord⟩
    refine ⟨List.forall_mem_cons.mpr ⟨hx, hnear⟩, hpass, hcombines, ?_⟩
    rwa [List.flatMap_cons, ← List.append_assoc]

/-- At the instruction itself a walk finds what `PassedBy` says. -/
theorem PassedBy.mem_iff {maps' : RegMaps} {record : Option Record} (hpasses : x.insn.Passes)
    (h : PassedBy stray raw direction marked x.insn (instructionAddress raw origin x) maps maps'
      record) :
    s ∈ record.toList.map (⟨x, ·⟩)
      ↔ x = s.placed ∧ FoundAfter stray raw origin direction marked [] s := by
  rw [List.mem_map]
  constructor
  · rintro ⟨r, hr, rfl⟩
    obtain ⟨hcombines, hrecord⟩ := (h.record_iff r).mp (Option.mem_toList.mp hr)
    exact ⟨rfl, by simp, hpasses, hcombines, by simpa using hrecord⟩
  · rintro ⟨rfl, -, -, hcombines, hrecord⟩
    refine ⟨s.record, ?_, rfl⟩
    rw [Option.mem_toList]
    exact (h.record_iff s.record).mpr ⟨hcombines, by simpa using hrecord⟩

/-- **What a walk finds.** -/
theorem mem_samples_walk_iff (hmarks : maps.Marks marked direction)
    (hupdate : direction ≠ .update) :
    s ∈ (walk stray raw origin direction maps l).samples
      ↔ ∃ near far, l = near ++ s.placed :: far
        ∧ FoundAfter stray raw origin direction marked near s := by
  -- the marks grow along the walk
  induction l generalizing maps marked with
  | nil => simp
  | cons x l ih =>
    rw [exists_cons_eq_append_iff]
    by_cases hpasses : x.insn.Passes
    · obtain ⟨maps', record, hstep, hby⟩ := exists_passedBy stray raw origin hpasses hmarks hupdate
      rw [walk_cons, hstep]
      dsimp only
      rw [List.mem_append, ih hby.marks, hby.mem_iff hpasses]
      simp only [foundAfter_cons_iff, hpasses, true_and]
    · rw [walk_cons_of_not_passes hpasses]
      refine iff_of_false List.not_mem_nil ?_
      rintro (⟨rfl, hfound⟩ | ⟨near, far, -, hfound⟩)
      · exact hpasses hfound.passes
      · exact hpasses (foundAfter_cons_iff.mp hfound).1

private theorem aborts_cons_iff : Aborts (x :: l)
    ↔ (x.insn.insnCanHandle = true ∧ ¬x.insn.Passes) ∨ (x.insn.Passes ∧ Aborts l) := by
  constructor
  · rintro ⟨near, y, far, heq, hnear, hy⟩
    rcases (exists_cons_eq_append_iff (P := fun near _ ↦ ∀ z ∈ near, z.insn.Passes)).mp
      ⟨near, far, heq, hnear⟩ with ⟨rfl, -⟩ | ⟨near, far, rfl, hnear⟩
    · exact Or.inl hy
    · rw [List.forall_mem_cons] at hnear
      exact Or.inr ⟨hnear.1, near, y, far, rfl, hnear.2, hy⟩
  · rintro (hx | ⟨hx, near, y, far, rfl, hnear, hy⟩)
    · exact ⟨[], x, l, rfl, by simp, hx⟩
    · exact ⟨x :: near, y, far, rfl, List.forall_mem_cons.mpr ⟨hx, hnear⟩, hy⟩

private theorem aborted_walk_iff (hmarks : maps.Marks marked direction)
    (hupdate : direction ≠ .update) :
    (walk stray raw origin direction maps l).aborted = true ↔ Aborts l := by
  induction l generalizing maps marked with
  | nil => simp [Aborts]
  | cons x l ih =>
    rw [aborts_cons_iff]
    by_cases hpasses : x.insn.Passes
    · obtain ⟨maps', record, hstep, hby⟩ := exists_passedBy stray raw origin hpasses hmarks hupdate
      rw [walk_cons, hstep]
      dsimp only
      rw [ih hby.marks]
      simp [hpasses]
    · rw [walk_cons_of_not_passes hpasses]
      simp [hpasses]

theorem marks_walk_of_passes (hl : ∀ y ∈ l, y.insn.Passes) (hmarks : maps.Marks marked direction)
    (hupdate : direction ≠ .update) :
    (walk stray raw origin direction maps l).maps.Marks
      (marked ++ l.flatMap fun y ↦ y.insn.marks stray) direction := by
  induction l generalizing maps marked with
  | nil => rwa [List.flatMap_nil, List.append_nil]
  | cons x l ih =>
    rw [List.forall_mem_cons] at hl
    obtain ⟨maps', record, hstep, hby⟩ := exists_passedBy stray raw origin hl.1 hmarks hupdate
    rw [walk_cons, hstep, List.flatMap_cons, ← List.append_assoc]
    exact ih hl.2 hby.marks

/-- A walk back does not touch the map of the way forward. -/
theorem forward_walk_backward (hmarks : maps.Marks marked .backward) :
    (walk stray raw origin .backward maps l).maps.forward = maps.forward := by
  induction l generalizing maps marked with
  | nil => rfl
  | cons x l ih =>
    by_cases hpasses : x.insn.Passes
    · obtain ⟨maps', record, hstep, hby⟩ := exists_passedBy stray raw origin hpasses hmarks nofun
      rw [walk_cons, hstep]
      dsimp only
      rw [ih hby.marks, hby.other rfl]
    · rw [walk_cons_of_not_passes hpasses]

end Walk

/-! ## The pass -/

/-- The entries that are marked for the sampled instruction itself, before the way forward. -/
def InstructionEntry.sampleMarks (stray : InstructionEntry → ℕ → Option RegEntry)
    (insn : InstructionEntry) : List (Option RegEntry) :=
  if insn.combines = true then invalidated (insn.getRegisterOperand stray 1) else []

section Pass

variable {stray : InstructionEntry → ℕ → Option RegEntry} {raw : Record}
  {pre post : List PlacedInsn} {x : PlacedInsn} {s : NewSample}

variable (stray raw pre x) in
/-- The maps before the way forward from `x`. -/
def forwardMaps : RegMaps :=
  let back := walk stray raw x.offset .backward .empty pre.reverse
  let maps := { back.maps with backward := .empty }
  if x.insn.combines then maps.clobber stray x.insn .forward else maps

private theorem executeSimWhole_eq : executeSimWhole stray raw pre x post
    = if x.insn.insnCanHandle = false then ([], false)
      else
        let back := walk stray raw x.offset .backward .empty pre.reverse
        if back.aborted then (back.samples, true)
        else
          let fore := walk stray raw x.offset .forward (forwardMaps stray raw pre x) post
          (back.samples ++ fore.samples, fore.aborted) :=
  rfl

theorem marks_forwardMaps :
    (forwardMaps stray raw pre x).Marks (x.insn.sampleMarks stray) .forward := by
  have hempty : RegMaps.empty.Marks [] .backward := marks_empty
  have hkept := @forward_walk_backward stray raw x.offset .empty [] pre.reverse hempty
  rw [forwardMaps, InstructionEntry.sampleMarks]
  dsimp only
  split_ifs with hcombines
  · rw [RegMaps.Marks, RegMaps.clobber]
    dsimp only
    rw [hkept]
    exact marks_empty.invalidateRegister _
  · rw [RegMaps.Marks]
    dsimp only
    rw [hkept]
    exact marks_empty

/-- **What the pass finds**, on the way back and on the way forward. -/
theorem mem_executeSimWhole_iff :
    s ∈ (executeSimWhole stray raw pre x post).1 ↔ x.insn.insnCanHandle = true
      ∧ ((∃ near far, pre.reverse = near ++ s.placed :: far
          ∧ FoundAfter stray raw x.offset .backward [] near s)
        ∨ (¬Aborts pre.reverse ∧ ∃ near far, post = near ++ s.placed :: far
          ∧ FoundAfter stray raw x.offset .forward (x.insn.sampleMarks stray) near s)) := by
  have hempty : RegMaps.empty.Marks [] .backward := marks_empty
  rw [executeSimWhole_eq]
  by_cases hhandle : x.insn.insnCanHandle = false
  · rw [if_pos hhandle]
    exact iff_of_false List.not_mem_nil fun h ↦ by simp [hhandle] at h
  rw [if_neg hhandle, and_iff_right (by simpa using hhandle)]
  dsimp only
  have hback := @mem_samples_walk_iff stray raw x.offset .backward .empty [] pre.reverse s hempty
    nofun
  have haborted := @aborted_walk_iff stray raw x.offset .backward .empty [] pre.reverse hempty nofun
  by_cases habort : (walk stray raw x.offset .backward .empty pre.reverse).aborted = true
  · rw [if_pos habort, hback]
    exact (or_iff_left fun h ↦ h.1 (haborted.mp habort)).symm
  · rw [if_neg habort, List.mem_append, hback, mem_samples_walk_iff marks_forwardMaps nofun,
      and_iff_right (mt haborted.mpr habort)]

end Pass

theorem updateMemoryOperand_spec (raw : Record) (insn : InstructionEntry) (i : ℕ) (isWrite : ℤ) :
    (updateMemoryOperand raw insn i isWrite).memoryAccess.memOp = raw.memoryAccess.memOp
      ∧ ((updateMemoryOperand raw insn i isWrite).memoryAccess.memoryAddress
          = raw.memoryAccess.memoryAddress
        ∨ (insn.isMemOperand i = true ∧ AddressKnown raw.memoryAccess.memOp insn i []
          ∧ (updateMemoryOperand raw insn i isWrite).memoryAccess.memoryAddress
            = sampleAddress raw.memoryAccess.memOp insn i)) := by
  rw [updateMemoryOperand]
  split_ifs with hmem
  · dsimp only
    rcases @computeMemory_eq .empty raw.memoryAccess.memOp [] .update rfl insn i
      with ⟨hknown, heq⟩ | ⟨-, heq⟩
    · rw [heq, if_neg hknown.address]
      simp only [Record.memoryAccess_setIsWrite, Record.memoryAccess_setMemoryAddress]
      exact ⟨trivial, Or.inr ⟨hmem, hknown, trivial⟩⟩
    · rw [heq, if_pos rfl]
      exact ⟨rfl, Or.inl rfl⟩
  · exact ⟨rfl, Or.inl rfl⟩

end Racez
