import Racez.Buffer.Basic
import Racez.Transition.Tickets

/-!
# Concurrent writers

`WriteRecord` is called by all threads and by signal handlers that interrupt them. Only the advance
of the cursor is atomic; the fields are copied one after the other, and other calls may run in
between. Here the statements of a call are the steps of a machine, and calls interleave in any
order. What a thread or a handler can do is a restriction of that.

All stores of a call go through the entry it has reserved, so the calls are processes that draw a
ticket and then work on the cell it names. By `Tickets.run_invariant` each of them does what it
would do alone, and alone the machine computes `Record.copyTo`. That links the machine to
`writeRecord`, and gives the result on the file.

## What one call does

`copyStep` is one statement of `WriteRecord` behind the advance of the cursor. It reads the type and
the trace depth back from the entry, as the code does, which is safe only because nobody else writes
to that entry. `Reaches` is the run of one call on its own entry, and its lemmas follow the code:
the fields in front of the branch, the two arms with their loops, and the trace loop behind it. From
`reaches_done` and the fact that a call can end in one way only it follows that a call leaves what
`writeRecord` leaves.

## What all calls do

`writers` runs the calls by a schedule, and `Ended` says that a call has drawn a number and got to
its end. By `Tickets.run_invariant` the numbers are distinct and each entry is what its call would
have made of it alone, so every call that has ended has its record in the entry with its number
(`writers_spec`), field by field as far as the type makes the field live (`Record.Carries`). Stores
past the arrays inside of a record are faults of the machine, and `Record.CountsFit` is what rules
them out.
-/

namespace Racez

/-! ## The statements of a call -/

/-- The next statement of a call that has reserved an entry. -/
inductive CopyPc
  | guard
  | recordNo
  | threadId
  | type
  | branch
  | memoryAddress
  | memOp
  | pip
  | sip
  | isWrite
  | lockCount
  | lockset (i : ℕ)
  | startAddress
  | size
  | isAlloc
  | traceDepth
  | stackTrace (i : ℕ)
  | done
  /-- A store outside the arrays of the entry. -/
  | outOfBounds
  deriving DecidableEq

/-- One statement of a call for `record`, on the entry it has reserved. The type and the trace depth
are read back from the entry, as in the source. -/
def copyStep (record : Record) (number : ℤ) : CopyPc × Record → CopyPc × Record
  | (.guard, entry) => if number > bufferSize then (.done, entry) else (.recordNo, entry)
  | (.recordNo, entry) => (.threadId, { entry with recordNo := number })
  | (.threadId, entry) => (.type, { entry with threadId := record.threadId })
  | (.type, entry) => (.branch, { entry with type := record.type })
  | (.branch, entry) =>
    if entry.type = .memoryOp then (.memoryAddress, entry)
    else if entry.type = .memoryAlloc then (.startAddress, entry)
    else (.traceDepth, entry)
  | (.memoryAddress, entry) => (.memOp, { entry with memoryAccess :=
      { entry.memoryAccess with memoryAddress := record.memoryAccess.memoryAddress } })
  | (.memOp, entry) => (.pip, { entry with memoryAccess :=
      { entry.memoryAccess with memOp := record.memoryAccess.memOp } })
  | (.pip, entry) => (.sip, { entry with memoryAccess :=
      { entry.memoryAccess with pip := record.memoryAccess.pip } })
  | (.sip, entry) => (.isWrite, { entry with memoryAccess :=
      { entry.memoryAccess with sip := record.memoryAccess.sip } })
  | (.isWrite, entry) => (.lockCount, { entry with memoryAccess :=
      { entry.memoryAccess with isWrite := record.memoryAccess.isWrite } })
  | (.lockCount, entry) => (.lockset 0, { entry with memoryAccess :=
      { entry.memoryAccess with lockCount := record.memoryAccess.lockCount } })
  | (.lockset i, entry) =>
    if (i : ℤ) < record.memoryAccess.lockCount then
      if h : i < 10 then
        (.lockset (i + 1), { entry with memoryAccess :=
          { entry.memoryAccess with
            lockset := entry.memoryAccess.lockset.set i record.memoryAccess.lockset[i] } })
      else (.outOfBounds, entry)
    else (.traceDepth, entry)
  | (.startAddress, entry) => (.size, { entry with memAllocOp :=
      { entry.memAllocOp with startAddress := record.memAllocOp.startAddress } })
  | (.size, entry) => (.isAlloc, { entry with memAllocOp :=
      { entry.memAllocOp with size := record.memAllocOp.size } })
  | (.isAlloc, entry) => (.traceDepth, { entry with memAllocOp :=
      { entry.memAllocOp with isAlloc := record.memAllocOp.isAlloc } })
  | (.traceDepth, entry) => (.stackTrace 0, { entry with traceDepth := record.traceDepth })
  | (.stackTrace i, entry) =>
    if (i : ℤ) < entry.traceDepth then
      if h : i < 10 then
        (.stackTrace (i + 1), { entry with
          stackTrace := entry.stackTrace.set i record.stackTrace[i] })
      else (.outOfBounds, entry)
    else (.done, entry)
  | (.done, entry) => (.done, entry)
  | (.outOfBounds, entry) => (.outOfBounds, entry)

/-- The arrays of a record are long enough for its counts. -/
structure Record.CountsFit (record : Record) : Prop where
  /-- The locks of an access fit into its array. -/
  locks : record.type = .memoryOp → record.memoryAccess.lockCount ≤ 10
  /-- So do the return addresses. -/
  trace : record.traceDepth ≤ 10

/-! ## A call alone -/

section Alone

variable {record entry : Record} {number : ℤ}

/-- The machine gets from one state to another. -/
def Reaches (record : Record) (number : ℤ) (x y : CopyPc × Record) : Prop :=
  ∃ n, (copyStep record number)^[n] x = y

theorem Reaches.refl (x : CopyPc × Record) : Reaches record number x x := ⟨0, rfl⟩

theorem Reaches.head {x y : CopyPc × Record}
    (h : Reaches record number (copyStep record number x) y) : Reaches record number x y := by
  obtain ⟨n, h⟩ := h
  exact ⟨n + 1, h⟩

theorem getElem_copyPrefix {i : ℕ} (hi : i < 10) (count : ℤ) (source target : Vector Address 10) :
    (copyPrefix count source target)[i] = if (i : ℤ) < count then source[i] else target[i] := by
  rw [copyPrefix, Vector.getElem_ofFn]
  rfl

private theorem copyPrefix_eq_of_le {i : ℕ} {count : ℤ} (hge : count ≤ i) (hle : i ≤ max count 0)
    (source target : Vector Address 10) :
    copyPrefix i source target = copyPrefix count source target := by
  refine Vector.ext ?_
  intro j hj
  rw [getElem_copyPrefix hj, getElem_copyPrefix hj]
  exact if_congr (by omega) rfl rfl

private theorem set_copyPrefix {i : ℕ} (hi : i < 10) (source target : Vector Address 10) :
    (copyPrefix i source target).set i source[i] = copyPrefix (i + 1 : ℕ) source target := by
  refine Vector.ext ?_
  intro j hj
  rw [Vector.getElem_set, getElem_copyPrefix hj, getElem_copyPrefix hj]
  by_cases hij : i = j
  · subst hij
    rw [if_pos rfl, if_pos (by omega)]
  · rw [if_neg hij]
    exact if_congr (by omega) rfl rfl

/-- The copying loops. The loop counter is part of the state `pc`, and `put` says where the target
array is kept. -/
theorem reaches_loop {pc : ℕ → CopyPc} {exit : CopyPc} {put : Vector Address 10 → Record}
    {count : ℤ} {source : Vector Address 10} (hcount : count ≤ 10)
    (hbody : ∀ (i : ℕ) (hi : i < 10), i < count → ∀ v,
      copyStep record number (pc i, put v) = (pc (i + 1), put (v.set i source[i])))
    (hexit : ∀ i : ℕ, count ≤ i → ∀ v, copyStep record number (pc i, put v) = (exit, put v))
    (target : Vector Address 10) :
    Reaches record number (pc 0, put target) (exit, put (copyPrefix count source target)) := by
  -- the induction is on the iterations left, with a prefix copied so far
  have hloop : ∀ n i : ℕ, count ≤ i + n → (i : ℤ) ≤ max count 0 →
      Reaches record number (pc i, put (copyPrefix i source target))
        (exit, put (copyPrefix count source target)) := by
    intro n
    induction n with
    | zero =>
      intro i hge hle
      refine Reaches.head ?_
      rw [hexit i (by omega), copyPrefix_eq_of_le (by omega) hle]
      exact Reaches.refl _
    | succ n ih =>
      intro i hge hle
      refine Reaches.head ?_
      by_cases hi : (i : ℤ) < count
      · have hi' : i < 10 := by omega
        rw [hbody i hi' hi, set_copyPrefix hi']
        exact ih (i + 1) (by omega) (by omega)
      · rw [hexit i (by omega), copyPrefix_eq_of_le (by omega) hle]
        exact Reaches.refl _
  have hzero : copyPrefix ((0 : ℕ) : ℤ) source target = target := by
    refine Vector.ext ?_
    intro j hj
    rw [getElem_copyPrefix hj, if_neg (by omega)]
  have hstart := hloop count.toNat 0 (by omega) (by omega)
  rwa [hzero] at hstart

theorem Reaches.trans {x y z : CopyPc × Record} (h : Reaches record number x y)
    (h' : Reaches record number y z) : Reaches record number x z := by
  obtain ⟨n, rfl⟩ := h
  obtain ⟨n', rfl⟩ := h'
  exact ⟨n' + n, Function.iterate_add_apply _ n' n x⟩

private theorem reaches_lockset (h : record.memoryAccess.lockCount ≤ 10) (entry : Record) :
    Reaches record number (.lockset 0, entry)
      (.traceDepth, { entry with memoryAccess := { entry.memoryAccess with
        lockset := copyPrefix record.memoryAccess.lockCount record.memoryAccess.lockset
          entry.memoryAccess.lockset } }) := by
  refine @reaches_loop record number .lockset .traceDepth (fun v ↦ { entry with
    memoryAccess := { entry.memoryAccess with lockset := v } }) _ _ h ?_ ?_
    entry.memoryAccess.lockset
  · intro i hi hlt v
    simp only [copyStep]
    rw [if_pos hlt, dif_pos hi]
  · intro i hge v
    simp only [copyStep]
    rw [if_neg (not_lt.mpr hge)]

/-- The trace loop, which reads its bound from the entry. -/
theorem reaches_stackTrace (h : record.traceDepth ≤ 10) (entry : Record) :
    Reaches record number (.traceDepth, entry)
      (.done, { entry with
        traceDepth := record.traceDepth
        stackTrace := copyPrefix record.traceDepth record.stackTrace entry.stackTrace }) := by
  refine Reaches.head ?_
  refine @reaches_loop record number .stackTrace .done (fun v ↦ { entry with
    traceDepth := record.traceDepth, stackTrace := v }) _ _ h ?_ ?_ entry.stackTrace
  · intro i hi hlt v
    simp only [copyStep]
    rw [if_pos hlt, dif_pos hi]
  · intro i hge v
    simp only [copyStep]
    rw [if_neg (not_lt.mpr hge)]

private theorem reaches_branch (entry : Record) :
    Reaches record number (.recordNo, entry)
      (.branch, { entry with
        recordNo := number
        threadId := record.threadId
        type := record.type }) :=
  ⟨3, rfl⟩

private theorem reaches_lockset_zero (entry : Record) :
    Reaches record number (.memoryAddress, entry)
      (.lockset 0, { entry with memoryAccess := { record.memoryAccess with
        lockset := entry.memoryAccess.lockset } }) :=
  ⟨6, rfl⟩

private theorem reaches_isAlloc (entry : Record) :
    Reaches record number (.startAddress, entry)
      (.traceDepth, { entry with memAllocOp := record.memAllocOp }) :=
  ⟨3, rfl⟩

private theorem reaches_traceDepth (hfit : record.CountsFit) (entry : Record)
    (htype : entry.type = record.type) :
    Reaches record number (.branch, entry)
      (.traceDepth, { entry with
        memoryAccess := if record.type = .memoryOp
          then record.memoryAccess.copyTo entry.memoryAccess else entry.memoryAccess
        memAllocOp := if record.type = .memoryAlloc
          then record.memAllocOp else entry.memAllocOp }) := by
  refine Reaches.head ?_
  simp only [copyStep]
  by_cases hop : record.type = .memoryOp
  · have halloc : record.type ≠ .memoryAlloc := by
      rw [hop]
      nofun
    rw [if_pos (htype.trans hop), if_pos hop, if_neg halloc]
    exact (reaches_lockset_zero entry).trans (reaches_lockset (hfit.locks hop) _)
  · rw [if_neg (htype ▸ hop), if_neg hop]
    by_cases halloc : record.type = .memoryAlloc
    · rw [if_pos (htype.trans halloc), if_pos halloc]
      exact reaches_isAlloc entry
    · rw [if_neg (htype ▸ halloc), if_neg halloc]
      exact Reaches.refl _

/-- Alone, a call leaves in its entry what `writeRecord` does. -/
theorem reaches_done (hfit : record.CountsFit) (hnumber : ¬number > bufferSize) (entry : Record) :
    Reaches record number (.guard, entry) (.done, record.copyTo number entry) := by
  refine Reaches.head ?_
  simp only [copyStep]
  rw [if_neg hnumber]
  exact ((reaches_branch entry).trans (reaches_traceDepth hfit _ rfl)).trans
    (reaches_stackTrace hfit.trace _)

@[simp] theorem iterate_done (n : ℕ) (entry : Record) :
    (copyStep record number)^[n] (.done, entry) = (.done, entry) :=
  Function.iterate_fixed rfl n

/-- A call can end in one way only. -/
theorem Reaches.done_unique {x : CopyPc × Record} {e e' : Record}
    (h : Reaches record number x (.done, e)) (h' : Reaches record number x (.done, e')) :
    e = e' := by
  obtain ⟨n, h⟩ := h
  obtain ⟨n', h'⟩ := h'
  have hsum : (copyStep record number)^[n' + n] x = (.done, e) := by
    rw [Function.iterate_add_apply, h, iterate_done]
  have hsum' : (copyStep record number)^[n' + n] x = (.done, e') := by
    rw [Nat.add_comm, Function.iterate_add_apply, h', iterate_done]
  exact (Prod.mk.inj (hsum.symm.trans hsum')).2

end Alone

/-! ## What an entry carries -/

/-- The first `trace_depth_` entries of the stack trace. -/
def Record.trace (r : Record) : List Address := r.stackTrace.toList.take r.traceDepth.toNat

/-- The fields of a memory access, with the locks as far as they are counted. -/
structure MemoryAccess.Agrees (a b : MemoryAccess) : Prop where
  /-- The address accessed. -/
  memoryAddress : a.memoryAddress = b.memoryAddress
  /-- The instruction. -/
  pip : a.pip = b.pip
  /-- Where the thread was interrupted. -/
  sip : a.sip = b.sip
  /-- The kind of access. -/
  isWrite : a.isWrite = b.isWrite
  /-- The sampled registers. -/
  memOp : a.memOp = b.memOp
  /-- The number of locks. -/
  lockCount : a.lockCount = b.lockCount
  /-- The locks up to that number. -/
  locks : a.locks = b.locks

/-- The live member of the payload. -/
def Record.SamePayload (entry record : Record) : Prop :=
  match record.type with
  | .memoryOp => entry.memoryAccess.Agrees record.memoryAccess
  | .memoryAlloc => entry.memAllocOp = record.memAllocOp
  | .syncSignal => entry.signalOp = record.signalOp
  | .syncWait => entry.waitOp = record.waitOp
  | _ => True

/-- An entry carries a record: everything but the number. -/
structure Record.Carries (entry record : Record) : Prop where
  /-- The thread. -/
  threadId : entry.threadId = record.threadId
  /-- The type. -/
  type : entry.type = record.type
  /-- The member of the union that the type selects. -/
  payload : entry.SamePayload record
  /-- The number of return addresses. -/
  traceDepth : entry.traceDepth = record.traceDepth
  /-- The return addresses up to that number. -/
  trace : entry.trace = record.trace

theorem take_copyPrefix (count : ℤ) (source target : Vector Address 10) :
    (copyPrefix count source target).toList.take count.toNat = source.toList.take count.toNat := by
  refine List.ext_getElem (by simp) ?_
  intro i h₁ h₂
  rw [List.length_take, Vector.length_toList] at h₁
  rw [List.getElem_take, List.getElem_take, Vector.getElem_toList, Vector.getElem_toList,
    getElem_copyPrefix (by omega), if_pos (by omega)]

theorem MemoryAccess.copyTo_agrees (access entry : MemoryAccess) :
    (access.copyTo entry).Agrees access where
  memoryAddress := rfl
  pip := rfl
  sip := rfl
  isWrite := rfl
  memOp := rfl
  lockCount := rfl
  locks := take_copyPrefix access.lockCount access.lockset entry.lockset

@[simp] theorem Record.recordNo_copyTo (number : ℤ) (record entry : Record) :
    (record.copyTo number entry).recordNo = number := rfl

theorem Record.copyTo_carries {record : Record}
    (htype : record.type = .memoryOp ∨ record.type = .memoryAlloc) (number : ℤ) (entry : Record) :
    (record.copyTo number entry).Carries record where
  threadId := rfl
  type := rfl
  payload := by
    rcases htype with htype | htype
    · rw [SamePayload, htype]
      simp only [copyTo, htype, if_true]
      exact record.memoryAccess.copyTo_agrees entry.memoryAccess
    · rw [SamePayload, htype]
      simp only [copyTo, htype, if_true]
  traceDepth := rfl
  trace := take_copyPrefix record.traceDepth record.stackTrace entry.stackTrace

/-! ## Any interleaving -/

section Writers

variable {ι : Type*} [DecidableEq ι] {records : ι → Record} {memory : ℕ → Record}
  {schedule : List ι}

/-- The calls in `records`, interleaved as the schedule says, from a fresh buffer. -/
def writers (records : ι → Record) (memory : ℕ → Record) (schedule : List ι) :
    Tickets.State ι CopyPc Record :=
  Tickets.run .guard (fun c k ↦ copyStep (records c) (toInt32 k)) memory schedule

/-- The buffer the calls have written to. -/
def buffer (s : Tickets.State ι CopyPc Record) : BufferData := ⟨s.counter, s.cells⟩

/-- Call `c` has drawn number `k` and ended. -/
def Ended (s : Tickets.State ι CopyPc Record) (c : ι) (k : ℕ) : Prop := s.procs c = some (k, .done)

instance (s : Tickets.State ι CopyPc Record) (c : ι) (k : ℕ) : Decidable (Ended s c k) :=
  inferInstanceAs (Decidable (_ = _))

variable [Fintype ι]

/-- **No lost or mixed records.** However the calls interleave, once all of them have ended they
have drawn the numbers from one to the number of calls, each once, and the file entry at the
position of a number carries the record of the call that drew it. -/
theorem writers_spec (hcard : Fintype.card ι < bufferSize)
    (htype : ∀ c, (records c).type = .memoryOp ∨ (records c).type = .memoryAlloc)
    (hfit : ∀ c, (records c).CountsFit) {number : ι → ℕ}
    (hended : ∀ c, Ended (writers records memory schedule) c (number c)) :
    Function.Injective number
      ∧ (∀ i, (∃ c, number c = i) ↔ 1 ≤ i ∧ i ≤ Fintype.card ι)
      ∧ ∀ c, ∃ entry,
        (stopBuffer (buffer (writers records memory schedule)))[number c]? = some entry
        ∧ entry.recordNo = number c ∧ entry.Carries (records c) := by
  have hinv : Tickets.Invariant _ _ memory schedule (writers records memory schedule) :=
    Tickets.run_invariant memory schedule
  obtain ⟨hcounter, hinj, hrange⟩ := hinv.tickets fun c ↦ ⟨_, hended c⟩
  refine ⟨hinj, hrange, ?_⟩
  intro c
  obtain ⟨hpos, hle⟩ := (hrange (number c)).mp ⟨c, rfl⟩
  have hint : toInt32 (number c) = number c := by
    rw [bufferSize] at hcard
    exact toInt32_of_lt (by omega)
  have hguard : ¬toInt32 (number c) > bufferSize := accepted_of_le (by omega)
  have hentry : (writers records memory schedule).cells (number c)
      = (records c).copyTo (toInt32 (number c)) (memory (number c)) :=
    Reaches.done_unique ⟨_, (hinv.alone c (number c) .done (hended c)).symm⟩
      (reaches_done (hfit c) hguard _)
  refine ⟨(writers records memory schedule).cells (number c), ?_, ?_, ?_⟩
  · rw [stopBuffer, BufferData.dumped, List.getElem?_map, List.getElem?_range]
    · rfl
    · have hglobal : (buffer (writers records memory schedule)).global = Fintype.card ι := hcounter
      rw [hglobal]
      exact Nat.lt_succ_of_le hle
  · rw [hentry, Record.recordNo_copyTo, hint]
  · rw [hentry]
    exact Record.copyTo_carries (htype c) _ _

theorem exists_ended (hcard : Fintype.card ι < bufferSize) (hfit : ∀ c, (records c).CountsFit)
    (memory : ℕ → Record) :
    ∃ n, ∀ schedule : List ι, (∀ c, n < schedule.count c) →
      ∀ c, ∃ k, Ended (writers records memory schedule) c k := by
  -- alone, a call with a given number ends after so many steps
  have hsteps : ∀ (c : ι) (k : ℕ), ∃ n, k ≤ Fintype.card ι → ∀ n' ≥ n,
      ((copyStep (records c) (toInt32 k))^[n'] (.guard, memory k)).1 = .done := by
    intro c k
    by_cases hk : k ≤ Fintype.card ι
    · obtain ⟨n, hn⟩ := reaches_done (hfit c) (accepted_of_le (hk.trans hcard.le)) (memory k)
      refine ⟨n, ?_⟩
      intro _ n' hn'
      rw [← Nat.sub_add_cancel hn', Function.iterate_add_apply, hn, iterate_done]
    · exact ⟨0, fun h ↦ absurd h hk⟩
  choose steps hsteps using hsteps
  refine ⟨Finset.univ.sup fun c ↦ (Finset.range (Fintype.card ι + 1)).sup (steps c), ?_⟩
  intro schedule hoften c
  have hinv : Tickets.Invariant _ _ memory schedule (writers records memory schedule) :=
    Tickets.run_invariant memory schedule
  rcases hp : (writers records memory schedule).procs c with _ | ⟨k, l⟩
  · exact absurd (List.count_pos_iff.mp (Nat.zero_lt_of_lt (hoften c))) ((hinv.started c).mp hp)
  · have hk : k ≤ Fintype.card ι := by
      refine (hinv.range c k l hp).2.trans ?_
      rw [hinv.counter_eq]
      exact Finset.card_le_univ _
    have hle : steps c k ≤ schedule.count c - 1 := by
      have hinner : steps c k ≤ (Finset.range (Fintype.card ι + 1)).sup (steps c) :=
        Finset.le_sup (f := steps c) (Finset.mem_range.mpr (Nat.lt_succ_of_le hk))
      have houter := Finset.le_sup (f := fun c ↦ (Finset.range (Fintype.card ι + 1)).sup (steps c))
        (Finset.mem_univ c)
      have hlt := hoften c
      omega
    have hdone := hsteps c k hk _ hle
    rw [← hinv.alone c k l hp] at hdone
    have hl : l = .done := hdone
    exact ⟨k, by rw [Ended, hp, hl]⟩

end Writers

/-- A memory access and an allocation. -/
def twoCalls : Fin 2 → Record
  | 0 => { Record.zeroed with
      threadId := 7
      type := .memoryOp
      memoryAccess := { Record.zeroed.memoryAccess with
        memoryAddress := 64
        lockCount := 1
        lockset := Vector.replicate 10 8 } }
  | 1 => { Record.zeroed with
      threadId := 8
      type := .memoryAlloc
      memAllocOp := ⟨64, 16, 1⟩ }

/-- The calls take turns, the allocation first. -/
def takeTurns : List (Fin 2) := (List.replicate 20 [1, 0]).flatten

theorem writers_spec_twoCalls :
    ∃ entry, (stopBuffer (buffer (writers twoCalls (fun _ ↦ .zeroed) takeTurns)))[2]? = some entry
      ∧ entry.recordNo = 2 ∧ entry.Carries (twoCalls 0) := by
  have hfit : ∀ c, (twoCalls c).CountsFit := fun
    | 0 => ⟨by decide, by decide⟩
    | 1 => ⟨by decide, by decide⟩
  exact (@writers_spec _ _ twoCalls (fun _ ↦ .zeroed) takeTurns _ (by decide) (by decide) hfit
    (fun c ↦ 2 - c) (by decide)).2.2 0

end Racez
