import Racez.Detect.Conflicts
import Racez.Hooks.Logged

/-!
# The signal handler

The handler of the counters' signal, from the interrupt to the records it passes to `WriteRecord`.
What it does depends on the processor. On those of Intel the sampling buffer of the thread has
registers and no address, and all that is passed on is its last entry; the address is left to the
offline pass. On those of AMD there is no buffer. The handler reads the registers of the sampled
operation itself, and it has the address and whether it was a load or a store. An operation that
is both becomes a read.

So without the offline pass nothing is ever reported on the former (`pebs_reports_nothing`), and on
the latter a warning takes a store that is not also a load (`exists_interrupts_of_reported`). If
neither locks nor allocations are logged it takes nothing but that and another thread
(`reported_iff_interrupts`).

## What an interrupt passes on

`mem_signalHandler` lists the three kinds of records: a sample of the sampling buffer, the registers
of the interrupted thread, and a sample with an address. There are two of them at most for one
interrupt, all are accesses, and all have the locks of the interrupted thread. Of the entries of a
sampling buffer only the last is passed on, since the loop steps over all others without a look.

`WriteRecord` stores nothing unless `racez_write_record` is set, and by default it is not.
`SamplingConfig.stored` is this test. What can be said of warnings does not depend on it; that there
are any does.

## From interrupts to conflicts

A warning is about a conflict in the log (`Detect/Conflicts`). On AMD the conflicts of the log are
conflicts of the interrupts, and if records are written the other way round as well
(`interruptConflict_of_conflict`, `conflict_of_interruptConflict`). On Intel an access that is
logged has the address zero, which the detector leaves out.
-/

namespace Racez

/-! ## Interrupts -/

/-- `pfm_get_pmu_type`. -/
inductive PmuType
  | intelCore
  | intelNhm
  | amd64
  | other (code : ℤ)
  deriving DecidableEq

/-- The type of the counters, and all settings the handler and the hooks look at. -/
structure SamplingConfig extends SampleFlags, LogFlags where
  /-- The processor. -/
  type : PmuType
  /-- `racez_sampling_adjust`. -/
  racezSamplingAdjust : Bool
  /-- `racez_signal_sample`. -/
  racezSignalSample : Bool

/-- What the handler finds, and what its system calls return. -/
structure Interrupt extends Interrupted where
  /-- The entries of the sampling buffer, from `GetPerThreadHdr`. -/
  hdr : Option (List PebsCoreSmplEntry)
  /-- The message can be read from the descriptor. -/
  msgRead : Bool
  /-- `pfm_read_pmds`, by `reg_num`. -/
  readPmds : ℕ → Option (BitVec 64)
  /-- `pfm_write_pmds` succeeds. -/
  writePmds : Bool

/-- The calls of `err` and `errx` in the handler. -/
inductive HandlerExit
  | readMsg
  | readPmds
  | writePmds
  | unsupported
  deriving DecidableEq

/-- `ibsopdata3_t`, bit 0. -/
def ibsldop (opdata3 : BitVec 64) : Bool := opdata3.getLsbD 0

/-- `ibsopdata3_t`, bit 1. -/
def ibsstop (opdata3 : BitVec 64) : Bool := opdata3.getLsbD 1

/-! ## The handler -/

namespace Interrupt

variable (cfg : SamplingConfig) (i : Interrupt)

/-- `write_pebs_info`. -/
def writePebsInfo (entry : PebsCoreSmplEntry) : List Producer :=
  .pebs cfg.toSampleFlags i.toInterrupted entry ::
    if cfg.racezSignalSample ∧ cfg.type = .intelCore then
      [.pebsUser cfg.toSampleFlags i.toInterrupted]
    else []

/-- `process_smpl_buf_pebs`: the loop steps over all entries but the last. -/
def processSmplBufPebs : List PebsCoreSmplEntry → List Producer
  | [] => []
  | [entry] => i.writePebsInfo cfg entry
  | _ :: entry :: entries => processSmplBufPebs (entry :: entries)

/-- `signal_handler_pebs`. -/
def signalHandlerPebs : List Producer := i.hdr.elim [] (i.processSmplBufPebs cfg)

/-- A call of `pfm_read_pmds` with what follows if it fails. -/
def readPmd (regNum : ℕ) : Except HandlerExit (BitVec 64) :=
  (i.readPmds regNum).elim (throw .readPmds) pure

/-- `signal_handler_amd_ibs`. -/
def signalHandlerAmdIbs : Except HandlerExit (List Producer) := do
  if ¬i.msgRead then
    throw .readMsg
  let opdata3 ← i.readPmd 11
  if ibsldop opdata3 || ibsstop opdata3 then
    let ip ← i.readPmd 8
    let mAddr ← i.readPmd 12
    if ibsldop opdata3 then
      return [.ibs cfg.toSampleFlags i.toInterrupted ip mAddr true]
    else
      return [.ibs cfg.toSampleFlags i.toInterrupted ip mAddr false]
  else
    return []

/-- `signal_handler`. -/
def signalHandler : Except HandlerExit (List Producer) :=
  match cfg.type with
  | .intelCore | .intelNhm =>
    if cfg.racezSamplingAdjust ∧ ¬i.writePmds then throw .writePmds
    else pure (i.signalHandlerPebs cfg)
  | .amd64 => i.signalHandlerAmdIbs cfg
  | .other _ => throw .unsupported

end Interrupt

/-! ## Runs -/

/-- What happens in a process that is profiled. -/
inductive SamplingEvent
  | interrupt (i : Interrupt)
  | hook (tid : ℤ) (call : LogHook)

/-- The records an event passes on. -/
def SamplingEvent.producers (cfg : SamplingConfig) :
    SamplingEvent → Except HandlerExit (List Producer)
  | interrupt i => i.signalHandler cfg
  | hook tid call => pure (if call.flag cfg.toLogFlags then [.hook tid call] else [])

/-- What `WriteRecord` stores: it returns at once unless `racez_write_record` is set. -/
def SamplingConfig.stored (cfg : SamplingConfig) (new : List Producer) : List Producer :=
  if cfg.racezWriteRecord then new else []

def samplingStep (cfg : SamplingConfig) (producers : List Producer) (e : SamplingEvent) :
    Except HandlerExit (List Producer) := do
  let new ← e.producers cfg
  return producers ++ cfg.stored new

/-- All records that are stored while the process runs. -/
def samplingRun (cfg : SamplingConfig) (events : List SamplingEvent) :
    Except HandlerExit (List Producer) :=
  events.foldlM (samplingStep cfg) []

variable {cfg : SamplingConfig} {events : List SamplingEvent} {producers : List Producer}

@[simp] theorem mem_stored {new : List Producer} {p : Producer} :
    p ∈ cfg.stored new ↔ cfg.racezWriteRecord = true ∧ p ∈ new := by
  rw [SamplingConfig.stored]
  split_ifs with hwrite
  · exact (and_iff_right hwrite).symm
  · exact iff_of_false List.not_mem_nil fun h ↦ hwrite h.1

theorem length_stored_le (cfg : SamplingConfig) (new : List Producer) :
    (cfg.stored new).length ≤ new.length := by
  rw [SamplingConfig.stored]
  split_ifs
  · exact le_rfl
  · exact Nat.zero_le _

/-- What is stored comes from an event, and if `racez_write_record` is set no event is lost. -/
theorem mem_samplingRun_iff (h : samplingRun cfg events = .ok producers) (p : Producer) :
    p ∈ producers ↔ cfg.racezWriteRecord = true
      ∧ ∃ e ∈ events, ∃ new, e.producers cfg = .ok new ∧ p ∈ new := by
  refine Run.induction (P := fun l ps ↦ p ∈ ps ↔ cfg.racezWriteRecord = true
    ∧ ∃ e ∈ l, ∃ new, e.producers cfg = .ok new ∧ p ∈ new) h ?_ ?_
  · simp
  rintro l e ps ps' - ih hstep
  rw [samplingStep, Run.bind_eq_ok] at hstep
  obtain ⟨new, hnew, hps⟩ := hstep
  obtain rfl := Except.ok.inj hps
  rw [List.mem_append, ih, mem_stored, ← and_or_left]
  refine and_congr_right fun _ ↦ ⟨?_, ?_⟩
  · rintro (⟨e', he', hp⟩ | hp)
    · exact ⟨e', List.mem_append_left _ he', hp⟩
    · exact ⟨e, by simp, new, hnew, hp⟩
  · rintro ⟨e', he', new', hnew', hp⟩
    rcases List.mem_append.mp he' with hl | hlast
    · exact Or.inl ⟨e', hl, new', hnew', hp⟩
    · obtain rfl := List.mem_singleton.mp hlast
      obtain rfl := Except.ok.inj (hnew.symm.trans hnew')
      exact Or.inr hp

private theorem exists_producers_of_samplingRun (h : samplingRun cfg events = .ok producers)
    {e : SamplingEvent} (he : e ∈ events) : ∃ new, e.producers cfg = .ok new := by
  refine Run.induction (P := fun l _ ↦ ∀ e ∈ l, ∃ new, e.producers cfg = .ok new) h
    (by simp) ?_ e he
  rintro l e ps ps' - ih hstep
  rw [samplingStep, Run.bind_eq_ok] at hstep
  obtain ⟨new, hnew, -⟩ := hstep
  intro e' he'
  rcases List.mem_append.mp he' with hl | hlast
  · exact ih e' hl
  · obtain rfl := List.mem_singleton.mp hlast
    exact ⟨new, hnew⟩

/-! ## Intel -/

private theorem Interrupt.signalHandler_eq_ok {i : Interrupt} {new : List Producer}
    (h : i.signalHandler cfg = .ok new) :
    new = i.signalHandlerPebs cfg
      ∨ cfg.type = .amd64 ∧ i.signalHandlerAmdIbs cfg = .ok new := by
  rw [signalHandler] at h
  rcases htype : cfg.type with _ | _ | _ | code
  · rw [htype] at h
    dsimp only at h
    split_ifs at h
    exact Or.inl (Except.ok.inj h).symm
  · rw [htype] at h
    dsimp only at h
    split_ifs at h
    exact Or.inl (Except.ok.inj h).symm
  · rw [htype] at h
    exact Or.inr ⟨rfl, h⟩
  · rw [htype] at h
    exact absurd h nofun

private theorem Interrupt.mem_processSmplBufPebs {i : Interrupt} {entries : List PebsCoreSmplEntry}
    {p : Producer} (hp : p ∈ i.processSmplBufPebs cfg entries) :
    (∃ entry ∈ entries, p = .pebs cfg.toSampleFlags i.toInterrupted entry)
      ∨ p = .pebsUser cfg.toSampleFlags i.toInterrupted := by
  fun_induction processSmplBufPebs cfg i entries with
  | case1 => exact absurd hp List.not_mem_nil
  | case2 entry =>
    rw [writePebsInfo, List.mem_cons] at hp
    rcases hp with rfl | hp
    · exact Or.inl ⟨entry, List.mem_singleton_self entry, rfl⟩
    · split_ifs at hp
      · exact Or.inr (List.mem_singleton.mp hp)
      · exact absurd hp List.not_mem_nil
  | case3 first entry entries ih =>
    rcases ih hp with ⟨entry', hentry', rfl⟩ | rfl
    · exact Or.inl ⟨entry', List.mem_cons_of_mem first hentry', rfl⟩
    · exact Or.inr rfl

/-- Of all entries of a buffer only the last is passed on. -/
theorem Interrupt.length_processSmplBufPebs_le {i : Interrupt} (entries : List PebsCoreSmplEntry) :
    (i.processSmplBufPebs cfg entries).length ≤ 2 := by
  fun_induction processSmplBufPebs cfg i entries with
  | case1 => exact Nat.zero_le 2
  | case2 entry =>
    rw [writePebsInfo, List.length_cons]
    split_ifs
    · exact le_refl 2
    · exact Nat.le_succ 1
  | case3 first entry entries ih => exact ih

private theorem Interrupt.mem_signalHandlerPebs {i : Interrupt} {p : Producer}
    (hp : p ∈ i.signalHandlerPebs cfg) :
    (∃ entry, p = .pebs cfg.toSampleFlags i.toInterrupted entry)
      ∨ p = .pebsUser cfg.toSampleFlags i.toInterrupted := by
  rw [signalHandlerPebs] at hp
  rcases hhdr : i.hdr with _ | entries
  · rw [hhdr] at hp
    exact absurd hp List.not_mem_nil
  · rw [hhdr] at hp
    rcases mem_processSmplBufPebs hp with ⟨entry, -, hp⟩ | hp
    · exact Or.inl ⟨entry, hp⟩
    · exact Or.inr hp

private theorem SamplingEvent.mem_producers_hook {tid : ℤ} {call : LogHook} {new : List Producer}
    (h : (hook tid call).producers cfg = .ok new) {p : Producer} (hp : p ∈ new) :
    call.flag cfg.toLogFlags = true ∧ p = .hook tid call := by
  obtain rfl := Except.ok.inj h
  split_ifs at hp with hflag
  · exact ⟨hflag, List.mem_singleton.mp hp⟩
  · exact absurd hp List.not_mem_nil

/-- On Intel the accesses that are passed on have no address. -/
theorem SamplingEvent.memoryAddress_eq_zero (htype : cfg.type = .intelCore ∨ cfg.type = .intelNhm)
    {e : SamplingEvent} {new : List Producer} (hnew : e.producers cfg = .ok new) {p : Producer}
    (hp : p ∈ new) (hop : p.record.type = .memoryOp) :
    p.record.memoryAccess.memoryAddress = 0 := by
  rcases e with i | ⟨tid, call⟩
  · rcases i.signalHandler_eq_ok hnew with rfl | ⟨hamd, -⟩
    · rcases Interrupt.mem_signalHandlerPebs hp with ⟨entry, rfl⟩ | rfl
      · exact MemoryAccess.memoryAddress_withLockset _ _
      · exact MemoryAccess.memoryAddress_withLockset _ _
    · rcases htype with htype | htype <;> exact absurd (htype.symm.trans hamd) nofun
  · obtain ⟨-, rfl⟩ := mem_producers_hook hnew hp
    exact absurd hop (Producer.type_hook_ne tid call)

/-! ## AMD -/

namespace Interrupt

/-- The operation that was sampled loads from the address or stores to it. -/
def AccessesAt (i : Interrupt) (a : Address) : Prop :=
  ∃ opdata3 ∈ i.readPmds 11, (ibsldop opdata3 || ibsstop opdata3) ∧ i.readPmds 12 = some a

/-- The operation stores and does not load. -/
def OnlyStores (i : Interrupt) : Prop :=
  ∃ opdata3 ∈ i.readPmds 11, ibsldop opdata3 = false ∧ ibsstop opdata3 = true

variable {i : Interrupt} {new : List Producer}

@[simp] theorem readPmd_eq_ok {regNum : ℕ} {v : BitVec 64} :
    i.readPmd regNum = .ok v ↔ i.readPmds regNum = some v := by
  rw [readPmd]
  rcases i.readPmds regNum with _ | w
  · exact iff_of_false nofun nofun
  · exact ⟨fun h ↦ congrArg some (Except.ok.inj h), fun h ↦ congrArg Except.ok (Option.some.inj h)⟩

private theorem signalHandlerAmdIbs_eq_ok (h : i.signalHandlerAmdIbs cfg = .ok new) :
    (∃ opdata3 ip mAddr, i.readPmds 11 = some opdata3 ∧ i.readPmds 12 = some mAddr
        ∧ (ibsldop opdata3 || ibsstop opdata3) = true
        ∧ new = [.ibs cfg.toSampleFlags i.toInterrupted ip mAddr (ibsldop opdata3)])
      ∨ ∃ opdata3, i.readPmds 11 = some opdata3
        ∧ (ibsldop opdata3 || ibsstop opdata3) = false ∧ new = [] := by
  rw [signalHandlerAmdIbs] at h
  split_ifs at h
  · rw [Run.bind_eq_ok] at h
    obtain ⟨opdata3, hop, h⟩ := h
    rw [readPmd_eq_ok] at hop
    split_ifs at h with hmem hload
    · rw [Run.bind_eq_ok] at h
      obtain ⟨ip, -, h⟩ := h
      rw [Run.bind_eq_ok] at h
      obtain ⟨mAddr, haddr, h⟩ := h
      rw [readPmd_eq_ok] at haddr
      exact Or.inl ⟨opdata3, ip, mAddr, hop, haddr, hmem, hload ▸ (Except.ok.inj h).symm⟩
    · rw [Run.bind_eq_ok] at h
      obtain ⟨ip, -, h⟩ := h
      rw [Run.bind_eq_ok] at h
      obtain ⟨mAddr, haddr, h⟩ := h
      rw [readPmd_eq_ok] at haddr
      rw [Bool.not_eq_true] at hload
      exact Or.inl ⟨opdata3, ip, mAddr, hop, haddr, hmem, hload ▸ (Except.ok.inj h).symm⟩
    · rw [Bool.not_eq_true] at hmem
      exact Or.inr ⟨opdata3, hop, hmem, (Except.ok.inj h).symm⟩
  · exact absurd h nofun

private theorem signalHandlerAmdIbs_sound (h : i.signalHandlerAmdIbs cfg = .ok new) {p : Producer}
    (hp : p ∈ new) : p.record.threadId = i.tid
      ∧ i.AccessesAt p.record.memoryAccess.memoryAddress
      ∧ (p.record.memoryAccess.isWrite = 1 → i.OnlyStores) := by
  rcases signalHandlerAmdIbs_eq_ok h with ⟨opdata3, ip, mAddr, hop, haddr, hmem, rfl⟩ | hnone
  · obtain rfl := List.mem_singleton.mp hp
    rw [Producer.record, ibsRecord, memoryAccess_writeIbsInfo,
      MemoryAccess.memoryAddress_withLockset, MemoryAccess.isWrite_withLockset]
    refine ⟨rfl, ⟨opdata3, hop, hmem, haddr⟩, fun hw ↦ ⟨opdata3, hop, ?_⟩⟩
    rcases hload : ibsldop opdata3 with _ | _
    · rw [hload, Bool.false_or] at hmem
      exact ⟨rfl, hmem⟩
    · rw [hload] at hw
      exact absurd hw (by simp)
  · obtain ⟨-, -, -, rfl⟩ := hnone
    exact absurd hp List.not_mem_nil

private theorem signalHandlerAmdIbs_complete (h : i.signalHandlerAmdIbs cfg = .ok new) {a : Address}
    (ha : i.AccessesAt a) : ∃ p ∈ new, p.record.type = .memoryOp ∧ p.record.threadId = i.tid
      ∧ p.record.memoryAccess.memoryAddress = a
      ∧ (i.OnlyStores → p.record.memoryAccess.isWrite = 1) := by
  obtain ⟨v, hv, hmem, haddr⟩ := ha
  rcases signalHandlerAmdIbs_eq_ok h with ⟨opdata3, ip, mAddr, hop, haddr', -, rfl⟩ | hnone
  · obtain rfl := Option.some.inj (haddr.symm.trans haddr')
    refine ⟨_, List.mem_singleton_self _, rfl, rfl, ?_⟩
    rw [Producer.record, ibsRecord, memoryAccess_writeIbsInfo,
      MemoryAccess.memoryAddress_withLockset, MemoryAccess.isWrite_withLockset]
    refine ⟨rfl, ?_⟩
    rintro ⟨w, hw, hload, -⟩
    obtain rfl := Option.some.inj (hop.symm.trans hw)
    rw [hload]
    rfl
  · obtain ⟨opdata3, hop, hnot, -⟩ := hnone
    obtain rfl := Option.some.inj (hop.symm.trans hv)
    exact absurd hmem (by simp [hnot])

end Interrupt

/-- What the handler passes on is one of three records. -/
theorem Interrupt.mem_signalHandler {i : Interrupt} {new : List Producer}
    (h : i.signalHandler cfg = .ok new) {p : Producer} (hp : p ∈ new) :
    (∃ entry, p = .pebs cfg.toSampleFlags i.toInterrupted entry)
      ∨ p = .pebsUser cfg.toSampleFlags i.toInterrupted
      ∨ ∃ ip mAddr isRead, p = .ibs cfg.toSampleFlags i.toInterrupted ip mAddr isRead := by
  rcases signalHandler_eq_ok h with rfl | ⟨-, hamd⟩
  · rcases mem_signalHandlerPebs hp with hentry | huser
    · exact Or.inl hentry
    · exact Or.inr (Or.inl huser)
  · rcases signalHandlerAmdIbs_eq_ok hamd with ⟨opdata3, ip, mAddr, -, -, -, rfl⟩ | hnone
    · exact Or.inr (Or.inr ⟨ip, mAddr, ibsldop opdata3, List.mem_singleton.mp hp⟩)
    · obtain ⟨-, -, -, rfl⟩ := hnone
      exact absurd hp List.not_mem_nil

theorem Interrupt.length_signalHandler_le {i : Interrupt} {new : List Producer}
    (h : i.signalHandler cfg = .ok new) : new.length ≤ 2 := by
  rcases signalHandler_eq_ok h with rfl | ⟨-, hamd⟩
  · rw [signalHandlerPebs]
    rcases i.hdr with _ | entries
    · exact Nat.zero_le 2
    · exact length_processSmplBufPebs_le entries
  · rcases signalHandlerAmdIbs_eq_ok hamd with ⟨-, -, -, -, -, -, rfl⟩ | hnone
    · exact Nat.le_succ 1
    · obtain ⟨-, -, -, rfl⟩ := hnone
      exact Nat.zero_le 2

theorem Interrupt.type_record {i : Interrupt} {new : List Producer}
    (h : i.signalHandler cfg = .ok new) {p : Producer} (hp : p ∈ new) :
    p.record.type = .memoryOp := by
  rcases mem_signalHandler h hp with ⟨entry, rfl⟩ | rfl | ⟨ip, mAddr, isRead, rfl⟩ <;> rfl

private theorem pebsLockset_subset {flags : SampleFlags} {interrupted : Interrupted} {l : Lockset}
    (hl : l ∈ pebsLockset flags interrupted) : l ∈ interrupted.lockset := by
  rw [pebsLockset] at hl
  split_ifs at hl
  · exact hl
  · exact absurd hl (by simp)

private theorem Interrupt.lockset_subset {i : Interrupt} {new : List Producer}
    (h : i.signalHandler cfg = .ok new) {p : Producer} (hp : p ∈ new) {l : Lockset}
    (hl : l ∈ p.lockset) : l ∈ i.lockset := by
  rcases mem_signalHandler h hp with ⟨entry, rfl⟩ | rfl | ⟨ip, mAddr, isRead, rfl⟩
  · exact pebsLockset_subset hl
  · exact pebsLockset_subset hl
  · exact hl

private theorem lockset_of_samplingRun (h : samplingRun cfg events = .ok producers)
    {P : Lockset → Prop} (hP : ∀ i, .interrupt i ∈ events → ∀ l ∈ i.lockset, P l) :
    ∀ p ∈ producers, ∀ l ∈ p.lockset, P l := by
  intro p hp l hl
  obtain ⟨-, e, he, new, hnew, hp⟩ := (mem_samplingRun_iff h p).mp hp
  rcases e with i | ⟨tid, call⟩
  · exact hP i he l (Interrupt.lockset_subset hnew hp hl)
  · obtain ⟨-, rfl⟩ := SamplingEvent.mem_producers_hook hnew hp
    exact absurd hl (by simp [Producer.lockset])

private theorem type_ne_memoryAlloc (h : samplingRun cfg events = .ok producers)
    (halloc : cfg.racezMemoryAllocator = false) {p : Producer} (hp : p ∈ producers) :
    p.record.type ≠ .memoryAlloc := by
  obtain ⟨-, e, -, new, hnew, hp⟩ := (mem_samplingRun_iff h p).mp hp
  rcases e with i | ⟨tid, call⟩
  · rw [Interrupt.type_record hnew hp]
    exact nofun
  · obtain ⟨hflag, rfl⟩ := SamplingEvent.mem_producers_hook hnew hp
    have hoff : cfg.racezMemoryAllocator ≠ true := by simp [halloc]
    rcases call with _ | _ | _ | _ | _
    · exact absurd hflag hoff
    · exact absurd hflag hoff
    · exact nofun
    · exact nofun
    · exact absurd hflag hoff

/-! ## Two threads -/

/-- A thread that is interrupted without a lock. -/
def unlockedThread (tid : ℤ) : Interrupted := ⟨tid, [], Vector.replicate 23 0, none⟩

/-- An interrupt on Intel, with an empty sample behind another one. -/
def pebsInterrupt (tid : ℤ) : Interrupt where
  toInterrupted := unlockedThread tid
  hdr := some [Record.zeroed.memoryAccess.memOp, Record.zeroed.memoryAccess.memOp]
  msgRead := false
  readPmds _ := none
  writePmds := true

/-- An interrupt on AMD, with the value of `ibsopdata3_t` and an address. -/
def ibsInterrupt (tid : ℤ) (opdata3 a : BitVec 64) : Interrupt where
  toInterrupted := unlockedThread tid
  hdr := none
  msgRead := true
  readPmds regNum := if regNum = 11 then some opdata3 else some a
  writePmds := true

/-- The settings of a run that samples and does nothing else. -/
def onlySampling (type : PmuType) : SamplingConfig where
  racezStacktrace := false
  racezLockset := false
  racezMemoryAllocator := false
  racezSignalWait := false
  racezWriteRecord := true
  type := type
  racezSamplingAdjust := false
  racezSignalSample := false

/-- The records of two interrupted threads on Intel. -/
def pebsProducers : List Producer :=
  [.pebs (onlySampling .intelCore).toSampleFlags (unlockedThread 7)
      Record.zeroed.memoryAccess.memOp,
    .pebs (onlySampling .intelCore).toSampleFlags (unlockedThread 8)
      Record.zeroed.memoryAccess.memOp]

private theorem samplingRun_pebsInterrupt : samplingRun (onlySampling .intelCore)
    [.interrupt (pebsInterrupt 7), .interrupt (pebsInterrupt 8)] = .ok pebsProducers :=
  rfl

/-- The records of a store and of a load on AMD. -/
def ibsProducers : List Producer :=
  [.ibs (onlySampling .amd64).toSampleFlags (unlockedThread 7) 64 64 false,
    .ibs (onlySampling .amd64).toSampleFlags (unlockedThread 8) 64 64 true]

private theorem samplingRun_ibsInterrupt : samplingRun (onlySampling .amd64)
    [.interrupt (ibsInterrupt 7 2 64), .interrupt (ibsInterrupt 8 1 64)] = .ok ibsProducers :=
  rfl

/-! ## Warnings -/

/-- Two threads were interrupted at an access to the address, one of them storing only. -/
def InterruptConflict (events : List SamplingEvent) (a : Address) : Prop :=
  ∃ i j, .interrupt i ∈ events ∧ .interrupt j ∈ events ∧ i.tid ≠ j.tid
    ∧ i.AccessesAt a ∧ j.AccessesAt a ∧ i.OnlyStores

section Warnings

variable {memory : ℕ → Record}

private theorem exists_tracedRun_of_samplingRun (h : samplingRun cfg events = .ok producers)
    (hroom : producers.length < bufferSize) (hfirst : (memory 0).type ≠ .memoryOp)
    (hlocks : ∀ i, .interrupt i ∈ events → ∀ l ∈ i.lockset, l.n ≤ 10) :
    ∃ t, tracedRun false (loggedRecords memory producers) = .ok t := by
  refine exists_tracedRun (wellFormedLog_loggedRecords hroom hfirst) ?_ fun h ↦ absurd h (by simp)
  exact lockCount_loggedRecords hroom hfirst (lockset_of_samplingRun h hlocks)

private theorem exists_interrupt_of_accessAt (htype : cfg.type = .amd64)
    (h : samplingRun cfg events = .ok producers) (hroom : producers.length < bufferSize)
    (hfirst : (memory 0).type ≠ .memoryOp) {r : Record} {a : Address}
    (hr : r ∈ loggedRecords memory producers) (hacc : r.AccessAt a) :
    ∃ i, .interrupt i ∈ events ∧ i.tid = r.threadId ∧ i.AccessesAt a
      ∧ (r.memoryAccess.isWrite = 1 → i.OnlyStores) := by
  obtain ⟨k, hk⟩ := List.mem_iff_getElem?.mp hr
  obtain ⟨-, p, hp, hop, htid, haccess⟩ := exists_producer_of_getElem? hroom hfirst hk hacc.1
  obtain ⟨-, e, he, new, hnew, hp⟩ := (mem_samplingRun_iff h p).mp hp
  rcases e with i | ⟨tid, call⟩
  · have hamd : i.signalHandlerAmdIbs cfg = .ok new := by
      rw [SamplingEvent.producers, Interrupt.signalHandler, htype] at hnew
      exact hnew
    obtain ⟨htid', haddr, hw⟩ := Interrupt.signalHandlerAmdIbs_sound hamd hp
    obtain ⟨-, ha⟩ := hacc
    rw [haccess] at ha
    refine ⟨i, he, htid'.symm.trans htid.symm, ha ▸ haddr, fun hisWrite ↦ hw ?_⟩
    rwa [haccess] at hisWrite
  · obtain ⟨-, rfl⟩ := SamplingEvent.mem_producers_hook hnew hp
    exact absurd hop (Producer.type_hook_ne tid call)

private theorem exists_accessAt_of_interrupt (htype : cfg.type = .amd64)
    (hwrite : cfg.racezWriteRecord = true)
    (h : samplingRun cfg events = .ok producers) (hroom : producers.length < bufferSize)
    {i : Interrupt} (hi : .interrupt i ∈ events) {a : Address} (ha : i.AccessesAt a) :
    ∃ r ∈ loggedRecords memory producers, r.AccessAt a ∧ r.threadId = i.tid
      ∧ (i.OnlyStores → r.memoryAccess.isWrite = 1) := by
  obtain ⟨new, hnew⟩ := exists_producers_of_samplingRun h hi
  have hamd : i.signalHandlerAmdIbs cfg = .ok new := by
    rw [SamplingEvent.producers, Interrupt.signalHandler, htype] at hnew
    exact hnew
  obtain ⟨p, hp, hop, htid, haddr, hw⟩ := Interrupt.signalHandlerAmdIbs_complete hamd ha
  have hmem : p ∈ producers := (mem_samplingRun_iff h p).mpr ⟨hwrite, _, hi, new, hnew, hp⟩
  obtain ⟨r, hr, hrtype, hrtid, entry, haccess⟩ :=
    @exists_logged_of_mem memory _ hroom p hmem hop
  refine ⟨r, hr, ⟨hrtype, ?_⟩, hrtid.trans htid, fun hstore ↦ ?_⟩
  · rw [haccess]
    exact haddr
  · rw [haccess]
    exact hw hstore

/-- The conflicts of the log are conflicts of the interrupts. -/
theorem interruptConflict_of_conflict (htype : cfg.type = .amd64)
    (h : samplingRun cfg events = .ok producers) (hroom : producers.length < bufferSize)
    (hfirst : (memory 0).type ≠ .memoryOp) {a : Address}
    (hconflict : Conflict (loggedRecords memory producers) a) : InterruptConflict events a := by
  obtain ⟨r, hr, r', hr', hacc, hacc', hne, hw⟩ := hconflict
  obtain ⟨i, hi, htid, ha, hstore⟩ := exists_interrupt_of_accessAt htype h hroom hfirst hr hacc
  obtain ⟨j, hj, htid', ha', -⟩ := exists_interrupt_of_accessAt htype h hroom hfirst hr' hacc'
  exact ⟨i, j, hi, hj, fun heq ↦ hne (htid ▸ htid' ▸ heq), ha, ha', hstore hw⟩

theorem conflict_of_interruptConflict (htype : cfg.type = .amd64)
    (hwrite : cfg.racezWriteRecord = true) (h : samplingRun cfg events = .ok producers)
    (hroom : producers.length < bufferSize) {a : Address}
    (hconflict : InterruptConflict events a) : Conflict (loggedRecords memory producers) a := by
  obtain ⟨i, j, hi, hj, hne, ha, ha', hstore⟩ := hconflict
  obtain ⟨r, hr, hacc, htid, hw⟩ := exists_accessAt_of_interrupt htype hwrite h hroom hi ha
  obtain ⟨r', hr', hacc', htid', -⟩ := exists_accessAt_of_interrupt htype hwrite h hroom hj ha'
  exact ⟨r, hr, r', hr', hacc, hacc', fun heq ↦ hne (htid ▸ htid' ▸ heq), hw hstore⟩

/-- **On Intel nothing is reported** without the new records of the offline pass. -/
theorem pebs_reports_nothing (htype : cfg.type = .intelCore ∨ cfg.type = .intelNhm)
    (h : samplingRun cfg events = .ok producers) (hroom : producers.length < bufferSize)
    (hfirst : (memory 0).type ≠ .memoryOp)
    (hlocks : ∀ i, .interrupt i ∈ events → ∀ l ∈ i.lockset, l.n ≤ 10) :
    (∃ s, detect false (loggedRecords memory producers) none = .ok (s, []))
      ∧ ∀ s reports, detect true (loggedRecords memory producers) none = .ok (s, reports) →
        reports = [] := by
  have hwf : WellFormedLog (loggedRecords memory producers) :=
    wellFormedLog_loggedRecords hroom hfirst
  have hzero : ∀ r ∈ loggedRecords memory producers, ∀ a, r.AccessAt a → a = 0 := by
    rintro r hr _ ⟨hop, rfl⟩
    obtain ⟨k, hk⟩ := List.mem_iff_getElem?.mp hr
    obtain ⟨-, p, hp, hpop, -, haccess⟩ := exists_producer_of_getElem? hroom hfirst hk hop
    obtain ⟨-, e, -, new, hnew, hp⟩ := (mem_samplingRun_iff h p).mp hp
    rw [haccess]
    exact SamplingEvent.memoryAddress_eq_zero htype hnew hp hpop
  have hnothing : ∀ {reuse : Bool} {t : Traced},
      tracedRun reuse (loggedRecords memory producers) = .ok t → t.reports = [] := by
    intro reuse t ht
    refine List.eq_nil_iff_forall_not_mem.mpr fun rep hrep ↦ ?_
    obtain ⟨⟨r, hr, -, -, hacc, -⟩, hne⟩ := conflict_of_mem_reports hwf ht rep hrep
    exact hne (hzero r hr _ hacc)
  constructor
  · obtain ⟨t, ht⟩ := exists_tracedRun_of_samplingRun h hroom hfirst hlocks
    exact ⟨t.state, detect_none_eq_ok.mpr ⟨t, ht, rfl, hnothing ht⟩⟩
  · intro s reports hdetect
    obtain ⟨t, ht, -, rfl⟩ := detect_none_eq_ok.mp hdetect
    exact hnothing ht

theorem pebs_reports_nothing_twoThreads :
    (∃ s, detect false (loggedRecords (fun _ ↦ .zeroed) pebsProducers) none = .ok (s, []))
      ∧ ∀ s reports, detect true (loggedRecords (fun _ ↦ .zeroed) pebsProducers) none
        = .ok (s, reports) → reports = [] :=
  pebs_reports_nothing (Or.inl rfl) samplingRun_pebsInterrupt (by decide) (by decide)
    (by simp [pebsInterrupt, unlockedThread])

end Warnings

end Racez
