import Racez.Hooks.Calls

/-!
# Stopping the profiler under load

A hook tests `racez_enable` and then writes to the buffer. Nothing keeps `racez_stop` from running
in between, and then the hook writes to a buffer that is gone, or to one that has already been
dumped. What is missing is that `StopBuffer` waits for the calls that are past their test. If it
happens to begin at a moment at which there is none, all is well: `writes_before_free`.

## Two conditions on a moment

Before `StopBuffer` begins all memory is there, and nothing can go wrong. Behind its beginning no
call may be between its test and the end of `WriteRecord`. Since `racez_enable` is cleared first, no
call gets past its test later, so it is enough that there is none at the moment at which
`StopBuffer` begins (`StopsIdle`). `StopInvariant` carries this to the end, together with what has
been written to the file: the dump is what was in the buffer at that moment.
-/

namespace Racez

section Stop

variable {ι : Type*} [DecidableEq ι] {flags : LogFlags} {calls : ι → HookCall}
  {memory : ℕ → Record} {s : CallState ι} {c : ι}

/-- A call is between its test and the end of `WriteRecord`. -/
def InFlight (flags : LogFlags) (s : CallState ι) (c : ι) : Prop :=
  s.phase c = .writing ∧ flags.racezWriteRecord = true
    ∧ (s.tickets.procs c).map Prod.snd ≠ some (.copy .done)

/-- `StopBuffer` begins while no call is in flight. -/
def StopsIdle (flags : LogFlags) (s : CallState ι) (e : Option ι) : Prop :=
  e = none → s.stop = .disabled → ∀ c, ¬InFlight flags s c

instance [Fintype ι] (flags : LogFlags) (s : CallState ι) (e : Option ι) :
    Decidable (StopsIdle flags s e) :=
  have : ∀ c, Decidable (InFlight flags s c) := fun _ ↦ inferInstanceAs (Decidable (_ ∧ _ ∧ _))
  inferInstanceAs (Decidable (_ → _ → ∀ _, _))

/-- `StopBuffer` has begun. -/
def StopPc.Entered : StopPc → Prop
  | .running => False
  | .disabled => False
  | _ => True

/-- The loop of `StopBuffer` is over. -/
def StopPc.Dumped : StopPc → Prop
  | .running => False
  | .disabled => False
  | .dumping _ => False
  | _ => True

theorem StopPc.Dumped.entered {pc : StopPc} (h : pc.Dumped) : pc.Entered := by
  cases pc <;> first | exact h | exact trivial

/-- What has been written to the file. -/
def FileIs (b : BufferData) (file : List Record) : StopPc → Prop
  | .running => file = []
  | .disabled => file = []
  | .dumping i => i ≤ b.global + 1 ∧ file = (List.range i).map b.entries
  | _ => file = stopBuffer b

private theorem StopPc.Dumped.fileIs_iff {pc : StopPc} (h : pc.Dumped) {b : BufferData}
    {file : List Record} : FileIs b file pc ↔ file = stopBuffer b := by
  cases pc <;> first | exact Iff.rfl | exact h.elim

/-- From the moment `StopBuffer` begins nothing is written to the buffer. -/
structure StopInvariant (flags : LogFlags) (calls : ι → HookCall) (memory : ℕ → Record)
    (s : CallState ι) : Prop extends WriteInvariant flags calls memory s where
  /-- The flag is set until `racez_stop` clears it. -/
  enabled : s.racezEnable = true ↔ s.stop = .running
  /-- Once `StopBuffer` begins no call is under way. -/
  quiet : s.stop.Entered → ∀ c, ¬InFlight flags s c
  /-- The file is what is in the buffer as soon as it is written. -/
  file : FileIs ⟨s.tickets.counter, s.tickets.cells⟩ s.file s.stop

theorem stopInvariant_init : StopInvariant flags calls memory (.init ι memory) where
  toWriteInvariant := writeInvariant_init
  enabled := iff_of_true rfl rfl
  quiet h := h.elim
  file := rfl

private theorem StopInvariant.of_not_entered (h : StopInvariant flags calls memory s)
    (hstop : ¬s.stop.Entered) : (∀ region, s.stop.live region = true) ∧ s.file = []
      ∧ ∀ b, FileIs b [] s.stop := by
  have hfile := h.file
  cases hpc : s.stop with
  | running =>
    rw [hpc] at hfile
    exact ⟨fun _ ↦ rfl, hfile, fun _ ↦ rfl⟩
  | disabled =>
    rw [hpc] at hfile
    exact ⟨fun _ ↦ rfl, hfile, fun _ ↦ rfl⟩
  | _ =>
    rw [hpc] at hstop
    exact absurd trivial hstop

private theorem advanceWrite_of_done {t : Tickets.State ι WritePc Record} {k : ℕ}
    (h : t.procs c = some (k, .copy .done)) : advanceWrite calls t c = t := by
  rw [advanceWrite, Tickets.advance_of_some h]
  have hstep : writeStep (calls c).record k (.copy .done, t.cells k)
      = (.copy .done, t.cells k) := rfl
  rw [hstep, Function.update_eq_self, ← h, Function.update_eq_self]

theorem StopInvariant.phase (h : StopInvariant flags calls memory s) {phase : CallPhase}
    {live : Address → Bool} {history : List ι} (hold : s.phase c ≠ .writing)
    (hnew : phase = .writing → ¬s.stop.Entered) :
    StopInvariant flags calls memory
      { s with live, history, phase := Function.update s.phase c phase } where
  toWriteInvariant := h.toWriteInvariant.phase hold
  enabled := h.enabled
  quiet hentered c' hflight := by
    by_cases hc : c' = c
    · subst hc
      have hphase := hflight.1
      dsimp only at hphase
      rw [Function.update_self] at hphase
      exact hnew hphase hentered
    · refine h.quiet hentered c' ⟨?_, hflight.2⟩
      have hphase := hflight.1
      dsimp only at hphase
      rwa [Function.update_of_ne hc] at hphase
  file := h.file

theorem StopInvariant.callStep (h : StopInvariant flags calls memory s) (c : ι) :
    ∃ s', callStep flags calls s c = .ok s' ∧ StopInvariant flags calls memory s' := by
  rw [Racez.callStep]
  cases hphase : s.phase c with
  | entered => exact ⟨_, rfl, h.phase (by simp [hphase]) (by simp)⟩
  | returned =>
    refine ⟨_, rfl, h.phase (by simp [hphase]) ?_⟩
    -- the test succeeds only as long as `racez_enable` is set
    intro hwriting hentered
    split_ifs at hwriting with htest
    rw [Bool.and_eq_true, h.enabled] at htest
    rw [htest.2] at hentered
    exact hentered
  | skipped => exact ⟨s, rfl, h⟩
  | writing =>
    dsimp only
    by_cases hwrite : flags.racezWriteRecord = false
    · rw [if_pos hwrite]
      exact ⟨s, rfl, h⟩
    rw [if_neg hwrite]
    have hwrite' : flags.racezWriteRecord = true := by simpa using hwrite
    by_cases hentered : s.stop.Entered
    · -- the call is not in flight, so it has ended
      have hdone : ∃ k, s.tickets.procs c = some (k, .copy .done) := by
        by_contra hnone
        refine h.quiet hentered c ⟨hphase, hwrite', ?_⟩
        intro hdone
        obtain ⟨⟨k, l⟩, hk, rfl⟩ := Option.map_eq_some_iff.mp hdone
        exact hnone ⟨k, hk⟩
      obtain ⟨k, hk⟩ := hdone
      rw [hk, advanceWrite_of_done hk]
      exact ⟨s, rfl, h⟩
    · obtain ⟨hlive, hfile, hnil⟩ := h.of_not_entered hentered
      have hall : (regionUsed (s.tickets.procs c)).all s.stop.live = true := by
        cases regionUsed (s.tickets.procs c) with
        | none => rfl
        | some region => exact hlive region
      rw [if_pos hall]
      refine ⟨_, rfl, h.advanceWrite hphase hwrite', h.enabled, fun h' ↦ absurd h' hentered, ?_⟩
      dsimp only
      rw [hfile]
      exact hnil _

private theorem StopInvariant.of_dumped (h : StopInvariant flags calls memory s)
    (hdumped : s.stop.Dumped) {pc : StopPc} (hpc : pc.Dumped) :
    StopInvariant flags calls memory { s with stop := pc } where
  tickets := h.tickets
  writing := h.writing
  enabled := by
    have hrunning : ∀ q : StopPc, q.Dumped → q ≠ .running := by
      rintro q hq rfl
      exact hq
    exact iff_of_false (mt h.enabled.mp (hrunning s.stop hdumped)) (hrunning pc hpc)
  quiet _ := h.quiet hdumped.entered
  file := hpc.fileIs_iff.mpr (hdumped.fileIs_iff.mp h.file)

theorem StopInvariant.stopStep (h : StopInvariant flags calls memory s)
    (hidle : s.stop = .disabled → ∀ c, ¬InFlight flags s c) :
    ∃ s', stopStep s = .ok s' ∧ StopInvariant flags calls memory s' := by
  have hfile := h.file
  have hquiet := h.quiet
  rw [Racez.stopStep]
  cases hstop : s.stop with
  | running =>
    rw [hstop] at hfile
    dsimp only
    rw [if_pos (h.enabled.mpr hstop)]
    exact ⟨_, rfl, ⟨h.tickets, h.writing⟩, by simp, fun h' ↦ h'.elim, hfile⟩
  | disabled =>
    rw [hstop] at hfile
    -- the dump begins, and from here on nobody may be in flight
    have henabled : s.racezEnable = true ↔ StopPc.dumping 0 = .running := by
      rw [h.enabled, hstop]
      simp
    exact ⟨_, rfl, ⟨h.tickets, h.writing⟩, henabled, fun _ ↦ hidle hstop, Nat.zero_le _, hfile⟩
  | dumping i =>
    rw [hstop] at hfile hquiet
    have henabled : ∀ pc, pc ≠ StopPc.running → (s.racezEnable = true ↔ pc = .running) := by
      intro pc hpc
      rw [h.enabled, hstop]
      simp [hpc]
    dsimp only
    split_ifs with hi
    · refine ⟨_, rfl, ⟨h.tickets, h.writing⟩, henabled _ (by simp), fun _ ↦ hquiet trivial, ?_, ?_⟩
      · exact Nat.succ_le_succ hi
      · rw [hfile.2, List.range_succ, List.map_append]
        rfl
    · refine ⟨_, rfl, ⟨h.tickets, h.writing⟩, henabled _ (by simp), fun _ ↦ hquiet trivial, ?_⟩
      have hend : i = s.tickets.counter + 1 := by
        have hle : i ≤ s.tickets.counter + 1 := hfile.1
        omega
      have hdump : s.file = (List.range (s.tickets.counter + 1)).map s.tickets.cells := by
        rw [hfile.2, hend]
      exact hdump
  | freeArray =>
    have hdumped : s.stop.Dumped := hstop ▸ trivial
    exact ⟨_, rfl, h.of_dumped hdumped trivial⟩
  | freeBuffer =>
    have hdumped : s.stop.Dumped := hstop ▸ trivial
    exact ⟨_, rfl, h.of_dumped hdumped trivial⟩
  | clearPointer =>
    have hdumped : s.stop.Dumped := hstop ▸ trivial
    exact ⟨_, rfl, h.of_dumped hdumped trivial⟩
  | stopped => exact ⟨s, rfl, h⟩

/-- The dump is complete. -/
theorem StopInvariant.file_getElem? (h : StopInvariant flags calls memory s)
    (hdumped : s.stop.Dumped) {k : ℕ} {l : WritePc} (hc : s.tickets.procs c = some (k, l))
    (hk : Accepted k) :
    s.file[k]? = some ((calls c).record.copyTo (toInt32 k) (memory k)) := by
  have hdone : l = .copy .done := by
    by_contra hne
    obtain ⟨hphase, hwrite⟩ := h.writing c _ hc
    refine h.quiet hdumped.entered c ⟨hphase, hwrite, ?_⟩
    rw [hc]
    exact fun hl ↦ hne (Option.some.inj hl)
  subst hdone
  have hfile : s.file = stopBuffer ⟨s.tickets.counter, s.tickets.cells⟩ := by
    have hfile := h.file
    cases hstop : s.stop with
    | running => rw [hstop] at hdumped; exact hdumped.elim
    | disabled => rw [hstop] at hdumped; exact hdumped.elim
    | dumping i => rw [hstop] at hdumped; exact hdumped.elim
    | _ => rwa [hstop] at hfile
  obtain ⟨schedule, hinv⟩ := h.tickets
  rw [hfile, stopBuffer, BufferData.dumped, List.getElem?_map, List.getElem?_range,
    Option.map_some]
  · exact congrArg some (h.cells_eq hc hk)
  · exact Nat.lt_succ_of_le (hinv.range c k _ hc).2

/-- **Stopping while no call is in flight.** If `StopBuffer` begins at such a moment, then no
statement of `WriteRecord` ever uses memory that has been freed, and once the buffer is dumped every
record accepted is in the file. -/
theorem writes_before_free {schedule : List (Option ι)}
    (hidle : Run.Along (processStep flags calls) (StopsIdle flags) (.init ι memory) schedule) :
    ∃ s, processRun flags calls memory schedule = .ok s
      ∧ (s.stop.Dumped → ∀ c k l, s.tickets.procs c = some (k, l) → Accepted k →
        s.file[k]? = some ((calls c).record.copyTo (toInt32 k) (memory k))) := by
  have hstep : ∀ s e, StopInvariant flags calls memory s → StopsIdle flags s e →
      (∃ s', processStep flags calls s e = .ok s' ∧ StopInvariant flags calls memory s')
        ∨ ∃ f, processStep flags calls s e = .error f ∧ False := by
    intro s e h he
    cases e with
    | none => exact Or.inl (h.stopStep (he rfl))
    | some c => exact Or.inl (h.callStep c)
  rcases hidle.progress stopInvariant_init hstep with ⟨s, hrun, hinv⟩ | ⟨-, -, hfalse⟩
  · exact ⟨s, hrun, fun hdumped c k l ↦ hinv.file_getElem? hdumped⟩
  · exact hfalse.elim

end Stop

/-- All hooks log. -/
def LogFlags.all : LogFlags := ⟨true, true, true⟩

/-- One call of `malloc`. -/
def oneMalloc : Fin 1 → HookCall := fun _ ↦ ⟨7, .malloc 16 64⟩

/-- The call ends, and then the profiler is stopped. -/
def mallocThenStop : List (Option (Fin 1)) :=
  List.replicate 14 (some 0) ++ List.replicate 8 none

theorem writes_before_free_mallocThenStop :
    ∃ s, processRun .all oneMalloc (fun _ ↦ .zeroed) mallocThenStop = .ok s ∧ s.stop = .stopped
      ∧ s.file[1]? = some ((mallocRecord 7 64 16).copyTo (toInt32 (1 : ℕ)) .zeroed) := by
  obtain ⟨s, hrun, hfile⟩ := @writes_before_free (Fin 1) _ .all oneMalloc (fun _ ↦ .zeroed)
    mallocThenStop (by decide)
  refine ⟨s, hrun, ?_⟩
  obtain rfl := Except.ok.inj hrun
  exact ⟨rfl, hfile trivial 0 1 (.copy .done) rfl (by decide)⟩

/-- The profiler is stopped between the test and the first statement of `WriteRecord`; or the call
gets in between the dump and the release of the memory, and its record is lost. -/
theorem not_writes_before_free_oneMalloc :
    processRun .all oneMalloc (fun _ ↦ .zeroed)
        (List.replicate 2 (some 0) ++ List.replicate 7 none ++ [some 0]) = .error .useAfterFree
      ∧ ∃ s, processRun .all oneMalloc (fun _ ↦ .zeroed)
          (List.replicate 2 (some 0) ++ List.replicate 4 none ++ List.replicate 12 (some 0)
            ++ List.replicate 3 none) = .ok s
        ∧ s.stop = .stopped ∧ s.tickets.procs 0 = some (1, .copy .done) ∧ Accepted 1
        ∧ s.file[1]? = none :=
  ⟨rfl, _, rfl, rfl, rfl, by decide, rfl⟩

end Racez
