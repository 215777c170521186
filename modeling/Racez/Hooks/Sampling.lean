import Racez.Detect.Merge
import Racez.Detect.Report
import Racez.Hooks.Logging
import Racez.Lockset.Hooks

/-!
# From the hooks to the report

All threads together: they lock and unlock mutexes through the hooks, and every now and then one of
their memory accesses is sampled. A sample becomes a record with the lockset of the thread at that
moment, the records go to one buffer, the buffer is dumped, and the detector reads the dump.

The hooks are not atomic. The lock hook enters the mutex into the lockset before it calls the real
function, and the unlock hook removes it after the real function has returned; a sample may fall in
between. At such moments the lockset has a mutex more than the thread holds, never one less. That is
all the detector needs: `not_reported_of_held` says that memory that is only accessed under a mutex
is not reported, however the threads are interleaved. That a mutex is held by one thread at a time
plays no part in it.

## The invariants

The lockset of a thread is in order at every point of a hook (`ThreadInvariant`); what it counts
depends on where the thread is (`HookPc.Counts`), and a step keeps it
(`ThreadInvariant.threadStep`). The log is a sequence of entries each of which has the mutex in its
lockset if it is an access at the address in question (`SampleLog`). A sample adds one entry, and
the condition on the program, that the sampling thread holds the mutex, is used there and nowhere
else.

## From the log to the detector

Every entry of the dump is the first one, which the detector ignores, or a sample
(`SampleLog.mem_stopBuffer`). So all accesses at the address are under the mutex, the history of the
address has a common lock at any time, and nothing is reported. The detector also gets to the end of
such a log, since no entry has more than ten locks and nothing is released.
-/

open Container

namespace Racez

/-! ## Samples -/

/-- What the hardware says about an access. -/
structure Sample where
  /-- The instruction. -/
  ip : Address
  /-- The address accessed. -/
  mAddr : Address
  /-- Whether it is a load. -/
  isRead : Bool
  /-- Where the thread is interrupted. -/
  sip : Address
  deriving DecidableEq

/-- `write_ibs_info`, with the lockset of the thread: the record that goes to `WriteRecord`. -/
def writeIbsInfo (record : Record) (tid : ℤ) (x : Sample) (lockset : Option Lockset) : Record :=
  let access := { record.memoryAccess with
    memoryAddress := x.mAddr
    isWrite := if x.isRead then 0 else 1
    pip := x.ip
    sip := x.sip }
  { record with
    threadId := tid
    type := .memoryOp
    memoryAccess := match lockset with
      | none => access
      | some lockset => { access with
          lockCount := lockset.n
          lockset := copyPrefix lockset.n lockset.lockset access.lockset } }

/-! ## Threads -/

/-- Where a thread is. -/
inductive HookPc
  | outside
  /-- In the lock hook, before the real function. -/
  | locking (m : Address)
  /-- In the unlock hook, after the real function. -/
  | unlocking (m : Address)
  deriving DecidableEq

/-- A thread of the profiled program. -/
structure SampledThread where
  /-- What the hooks see. -/
  hook : HookState
  /-- Where the thread is in a hook. -/
  pc : HookPc

/-- A step of a thread. Together the first two are `pthread_mutex_lock`, and the next two are
`pthread_mutex_unlock`. -/
inductive ThreadEvent
  | enterLock (m : Address)
  | acquire (m : Address)
  | release (m : Address)
  | leaveUnlock (m : Address)
  | sample (x : Sample)
  deriving DecidableEq

/-- The lock hook up to the real function. -/
def HookState.enterLock (slots : Vector Address 10) (s : HookState) (m : Address) :
    Except HookFault HookState :=
  if s.racezLockset then s.update slots (.add m) else pure s

/-- The unlock hook after the real function. -/
def HookState.leaveUnlock (slots : Vector Address 10) (s : HookState) (m : Address) :
    Except HookFault HookState :=
  if s.racezLockset && s.racezEnable then s.update slots (.remove m) else pure s

theorem pthreadMutexLock_eq_bind (slots : Vector Address 10) (s : HookState) (m : Address) (r : ℤ) :
    s.pthreadMutexLock slots m r
      = s.enterLock slots m >>= fun s ↦ pure (s.realMutexLock m r) := by
  rw [HookState.pthreadMutexLock, HookState.enterLock]
  split_ifs <;> rfl

theorem pthreadMutexUnlock_eq (slots : Vector Address 10) (s : HookState) (m : Address) (r : ℤ) :
    s.pthreadMutexUnlock slots m r = (s.realMutexUnlock m r).leaveUnlock slots m :=
  rfl

/-- A step of a thread. The real functions succeed. -/
def threadStep (slots : Vector Address 10) (t : SampledThread) :
    ThreadEvent → Except HookFault SampledThread
  | .enterLock m => do
    let hook ← t.hook.enterLock slots m
    return ⟨hook, .locking m⟩
  | .acquire m => pure ⟨t.hook.realMutexLock m 0, .outside⟩
  | .release m => pure ⟨t.hook.realMutexUnlock m 0, .unlocking m⟩
  | .leaveUnlock m => do
    let hook ← t.hook.leaveUnlock slots m
    return ⟨hook, .outside⟩
  | .sample _ => pure t

/-- A step can be taken where the thread is. A mutex is acquired while fewer than ten are held, and
released by its holder. -/
def ThreadEvent.Legal (t : SampledThread) : ThreadEvent → Prop
  | .enterLock _ => t.pc = .outside
  | .acquire m => t.pc = .locking m ∧ t.hook.held.card < 10
  | .release m => t.pc = .outside ∧ m ∈ t.hook.held
  | .leaveUnlock m => t.pc = .unlocking m
  | .sample _ => True

instance ThreadEvent.decidableLegal (t : SampledThread) :
    ∀ e : ThreadEvent, Decidable (e.Legal t)
  | .enterLock _ => inferInstanceAs (Decidable (_ = _))
  | .acquire _ => inferInstanceAs (Decidable (_ ∧ _))
  | .release _ => inferInstanceAs (Decidable (_ ∧ _))
  | .leaveUnlock _ => inferInstanceAs (Decidable (_ = _))
  | .sample _ => inferInstanceAs (Decidable True)

/-! ## The profiled program -/

/-- The threads, by number, and the log. -/
structure Profiled where
  /-- The threads. -/
  threads : ℤ → SampledThread
  /-- The log. -/
  buffer : BufferData

/-- Profiling is on, no mutex is held, and nothing is logged. -/
def Profiled.init (memory : ℕ → Record) : Profiled :=
  ⟨fun _ ↦ ⟨.init true, .outside⟩, initBuffer memory⟩

/-- The signal handler: it fills in a cleared record and writes it to the log. -/
def logSample (tid : ℤ) (t : SampledThread) (b : BufferData) (x : Sample) : BufferData :=
  Run.next (writeRecord true) b (writeIbsInfo .zeroed tid x t.hook.tlsLockset)

/-- The log after a step. -/
def logStep (tid : ℤ) (t : SampledThread) (b : BufferData) : ThreadEvent → BufferData
  | .sample x => logSample tid t b x
  | _ => b

/-- A step of the thread with the given number. The argument `slots` is the content of the memory
the locksets are allocated in. -/
def profileStep (slots : ℤ → Vector Address 10) (s : Profiled) (e : ℤ × ThreadEvent) :
    Except HookFault Profiled := do
  let t ← threadStep (slots e.1) (s.threads e.1) e.2
  return ⟨Function.update s.threads e.1 t, logStep e.1 (s.threads e.1) s.buffer e.2⟩

/-- A run of the program. -/
def profileRun (slots : ℤ → Vector Address 10) (s : Profiled) (events : List (ℤ × ThreadEvent)) :
    Except HookFault Profiled :=
  events.foldlM (profileStep slots) s

/-- The samples of a run. -/
def samples (events : List (ℤ × ThreadEvent)) : List Sample :=
  events.filterMap fun e ↦ match e.2 with
    | .sample x => some x
    | _ => none

/-- A sampled access at `a` is made by a thread that holds `m`. -/
def HeldAt (a m : Address) (s : Profiled) (e : ℤ × ThreadEvent) : Prop :=
  match e.2 with
  | .sample x => x.mAddr = a → m ∈ (s.threads e.1).hook.held
  | _ => True

instance (a m : Address) (s : Profiled) : ∀ e, Decidable (HeldAt a m s e)
  | (_, .enterLock _) => inferInstanceAs (Decidable True)
  | (_, .acquire _) => inferInstanceAs (Decidable True)
  | (_, .release _) => inferInstanceAs (Decidable True)
  | (_, .leaveUnlock _) => inferInstanceAs (Decidable True)
  | (_, .sample _) => inferInstanceAs (Decidable (_ → _))

/-! ## The lockset has all that is held -/

/-- The counted slots, where the thread is. A mutex that did not fit was not entered. -/
def HookPc.Counts (held : Multiset Address) (l : List Address) : HookPc → Prop
  | .outside => (l : Multiset Address) = held
  | .locking m => (l : Multiset Address) = m ::ₘ held
      ∨ ((l : Multiset Address) = held ∧ held.card = 10)
  | .unlocking m => (l : Multiset Address) = m ::ₘ held

/-- The lockset is in order and counts what it should. -/
structure ThreadInvariant (slots : Vector Address 10) (t : SampledThread) : Prop where
  /-- Locksets are kept. -/
  racezLockset : t.hook.racezLockset = true
  /-- Profiling is on. -/
  racezEnable : t.hook.racezEnable = true
  /-- The lockset counts what the position in the hook says. -/
  counts : ∃ l, (t.hook.perThreadLockset slots).Consistent l ∧ t.pc.Counts t.hook.held l

section Thread

variable {slots : Vector Address 10} {t : SampledThread}

theorem HookPc.Counts.subset {held : Multiset Address} {l : List Address} {pc : HookPc}
    (h : pc.Counts held l) : held ⊆ (l : Multiset Address) := by
  cases pc with
  | outside => exact Multiset.subset_of_le (show _ = held from h).ge
  | locking m =>
    rcases h with h | ⟨h, -⟩
    · rw [h]
      exact Multiset.subset_cons held m
    · exact Multiset.subset_of_le h.ge
  | unlocking m =>
    rw [show _ = m ::ₘ held from h]
    exact Multiset.subset_cons held m

theorem threadInvariant_init (slots : Vector Address 10) :
    ThreadInvariant slots ⟨.init true, .outside⟩ :=
  ⟨rfl, rfl, [], Lockset.consistent_fresh slots, rfl⟩

theorem ThreadInvariant.enterLock (h : ThreadInvariant slots t) (hpc : t.pc = .outside)
    (m : Address) :
    ∃ t', threadStep slots t (.enterLock m) = .ok t' ∧ ThreadInvariant slots t' := by
  obtain ⟨l, hcons, hcounts⟩ := h.counts
  rw [hpc] at hcounts
  obtain ⟨lockset, hupdate, hcons'⟩ := HookState.exists_update hcons (.add m)
  refine ⟨⟨{ t.hook with tlsLockset := some lockset }, .locking m⟩, ?_,
    h.racezLockset, h.racezEnable, exec 10 l (.add m), hcons', ?_⟩
  · rw [threadStep, HookState.enterLock, if_pos h.racezLockset, hupdate]
    rfl
  have hheld : (l : Multiset Address) = t.hook.held := hcounts
  rw [exec, push]
  split_ifs with hroom
  · left
    rw [coe_append_singleton, hheld]
  · right
    refine ⟨hheld, ?_⟩
    have hle := hcons.toShows.length_le
    rw [← hheld, Multiset.coe_card]
    omega

theorem ThreadInvariant.acquire (h : ThreadInvariant slots t) {m : Address}
    (hpc : t.pc = .locking m) (hroom : t.hook.held.card < 10) :
    ∃ t', threadStep slots t (.acquire m) = .ok t' ∧ ThreadInvariant slots t' := by
  obtain ⟨l, hcons, hcounts⟩ := h.counts
  rw [hpc] at hcounts
  refine ⟨_, rfl, h.racezLockset, h.racezEnable, l, hcons, ?_⟩
  rcases hcounts with hl | ⟨-, hfull⟩
  · exact hl
  · omega

theorem ThreadInvariant.release (h : ThreadInvariant slots t) {m : Address}
    (hpc : t.pc = .outside) (hm : m ∈ t.hook.held) :
    ∃ t', threadStep slots t (.release m) = .ok t' ∧ ThreadInvariant slots t' := by
  obtain ⟨l, hcons, hcounts⟩ := h.counts
  rw [hpc] at hcounts
  refine ⟨_, rfl, h.racezLockset, h.racezEnable, l, hcons, ?_⟩
  exact (show _ = t.hook.held from hcounts).trans (Multiset.cons_erase hm).symm

theorem ThreadInvariant.leaveUnlock (h : ThreadInvariant slots t) {m : Address}
    (hpc : t.pc = .unlocking m) :
    ∃ t', threadStep slots t (.leaveUnlock m) = .ok t' ∧ ThreadInvariant slots t' := by
  obtain ⟨l, hcons, hcounts⟩ := h.counts
  rw [hpc] at hcounts
  obtain ⟨lockset, hupdate, hcons'⟩ := HookState.exists_update hcons (.remove m)
  refine ⟨⟨{ t.hook with tlsLockset := some lockset }, .outside⟩, ?_,
    h.racezLockset, h.racezEnable, swapRemove l m, hcons', ?_⟩
  · have hflags : (t.hook.racezLockset && t.hook.racezEnable) = true := by
      rw [Bool.and_eq_true]
      exact ⟨h.racezLockset, h.racezEnable⟩
    rw [threadStep, HookState.leaveUnlock, if_pos hflags, hupdate]
    rfl
  · have hl : (l : Multiset Address) = m ::ₘ t.hook.held := hcounts
    rw [HookPc.Counts, coe_swapRemove, hl, Multiset.erase_cons_head]

/-- Every step that can be taken gets through and keeps the lockset in order. -/
theorem ThreadInvariant.threadStep (h : ThreadInvariant slots t) {e : ThreadEvent}
    (he : e.Legal t) : ∃ t', threadStep slots t e = .ok t' ∧ ThreadInvariant slots t' := by
  cases e with
  | enterLock m => exact h.enterLock he m
  | acquire m => exact h.acquire he.1 he.2
  | release m => exact h.release he.1 he.2
  | leaveUnlock m => exact h.leaveUnlock he
  | sample x => exact ⟨t, rfl, h⟩

end Thread

/-! ## The log of samples -/

/-- An entry of the log that a sample was written to. Accesses at `a` have `m` in their lockset. -/
structure SampleEntry (a m : Address) (k : ℕ) (entry : Record) : Prop where
  /-- It is an access. -/
  type : entry.type = .memoryOp
  /-- Its number is its index. -/
  recordNo : entry.recordNo = k
  /-- The write flag is a truth value. -/
  isWrite : entry.memoryAccess.isWrite = 0 ∨ entry.memoryAccess.isWrite = 1
  /-- The locks fit. -/
  lockCount : entry.memoryAccess.lockCount ≤ 10
  /-- At the address they include the mutex. -/
  locks : entry.memoryAccess.memoryAddress = a → m ∈ entry.memoryAccess.locks

/-- The first entry is as it was, and the others are samples. -/
structure SampleLog (memory : ℕ → Record) (a m : Address) (b : BufferData) : Prop where
  /-- Slot 0 is as it was. -/
  first : b.entries 0 = memory 0
  /-- The slots behind it have what was logged. -/
  entry : ∀ k, 1 ≤ k → k ≤ b.global → SampleEntry a m k (b.entries k)

section Log

variable {slots : Vector Address 10} {t : SampledThread} {a m : Address} {memory : ℕ → Record}

/-- The record of a sample has the counted slots of the lockset, and a thread without one has no
locks. -/
@[simp] theorem locks_writeIbsInfo (tid : ℤ) (x : Sample) (lockset : Option Lockset) :
    (writeIbsInfo .zeroed tid x lockset).memoryAccess.locks = lockset.elim [] Lockset.locks := by
  cases lockset with
  | none => rfl
  | some lockset => exact take_copyPrefix lockset.n lockset.lockset _

theorem ThreadInvariant.locks (h : ThreadInvariant slots t) (tid : ℤ) (x : Sample) :
    (writeIbsInfo .zeroed tid x t.hook.tlsLockset).memoryAccess.lockCount ≤ 10
      ∧ ∀ l ∈ t.hook.held,
        l ∈ (writeIbsInfo .zeroed tid x t.hook.tlsLockset).memoryAccess.locks := by
  obtain ⟨l, hcons, hcounts⟩ := h.counts
  rw [locks_writeIbsInfo]
  have hlocks := locks_eq_coe_perThreadLockset slots t.hook
  rw [hcons.toShows.locks_eq, HookState.locks] at hlocks
  refine ⟨?_, ?_⟩
  · rw [HookState.perThreadLockset] at hcons
    cases htls : t.hook.tlsLockset with
    | none => exact (show (0 : ℤ) ≤ 10 by decide)
    | some lockset =>
      rw [htls, Option.getD_some] at hcons
      have hle := hcons.toShows.length_le
      show lockset.n ≤ 10
      rw [hcons.n_eq]
      omega
  · intro l' hl'
    rw [← Multiset.mem_coe, hlocks]
    exact hcounts.subset hl'

@[simp] theorem memoryAddress_writeIbsInfo (tid : ℤ) (x : Sample) (lockset : Option Lockset) :
    (writeIbsInfo .zeroed tid x lockset).memoryAccess.memoryAddress = x.mAddr := by
  cases lockset <;> rfl

@[simp] theorem isWrite_writeIbsInfo (tid : ℤ) (x : Sample) (lockset : Option Lockset) :
    (writeIbsInfo .zeroed tid x lockset).memoryAccess.isWrite = if x.isRead then 0 else 1 := by
  cases lockset <;> rfl

private theorem ThreadInvariant.sampleEntry (h : ThreadInvariant slots t) {x : Sample} {k : ℕ}
    (hk : k < bufferSize) (hheld : x.mAddr = a → m ∈ t.hook.held) (tid : ℤ) (entry : Record) :
    SampleEntry a m k
      ((writeIbsInfo .zeroed tid x t.hook.tlsLockset).copyTo (toInt32 k) entry) := by
  obtain ⟨hcount, hlocks⟩ := h.locks tid x
  have haddr := memoryAddress_writeIbsInfo tid x t.hook.tlsLockset
  have hwrite := isWrite_writeIbsInfo tid x t.hook.tlsLockset
  have htype : (writeIbsInfo .zeroed tid x t.hook.tlsLockset).type = .memoryOp := rfl
  generalize writeIbsInfo .zeroed tid x t.hook.tlsLockset = record at *
  have haccess : (record.copyTo (toInt32 k) entry).memoryAccess
      = record.memoryAccess.copyTo entry.memoryAccess := by
    rw [Record.copyTo]
    dsimp only
    rw [if_pos htype]
  have hagrees := record.memoryAccess.copyTo_agrees entry.memoryAccess
  have hno : toInt32 k = k := toInt32_of_lt (hk.trans (by decide))
  generalize toInt32 k = number at *
  refine ⟨htype, hno, ?_, ?_, ?_⟩
  · rw [haccess, hagrees.isWrite, hwrite]
    cases x.isRead <;> simp
  · rw [haccess, hagrees.lockCount]
    exact hcount
  · rw [haccess, hagrees.locks, hagrees.memoryAddress, haddr]
    intro ha
    exact hlocks m (hheld ha)

theorem SampleLog.sample {b : BufferData} (h : SampleLog memory a m b)
    (ht : ThreadInvariant slots t) {x : Sample} (hroom : b.global + 1 < bufferSize)
    (hheld : x.mAddr = a → m ∈ t.hook.held) (tid : ℤ) :
    SampleLog memory a m (logSample tid t b x) := by
  rw [logSample, Run.next, writeRecord_of_accepted (accepted_of_le hroom.le)]
  refine ⟨?_, ?_⟩
  · dsimp only
    rw [Function.update_of_ne (Nat.succ_ne_zero _).symm, h.first]
  · intro k hk hle
    dsimp only at hle ⊢
    by_cases hnew : k = b.global + 1
    · subst hnew
      rw [Function.update_self]
      exact ht.sampleEntry hroom hheld tid _
    · rw [Function.update_of_ne hnew]
      exact h.entry k hk (by omega)

end Log

/-! ## Whole runs -/

section Runs

variable {slots : ℤ → Vector Address 10} {s : Profiled} {events : List (ℤ × ThreadEvent)}
  {memory : ℕ → Record} {a m : Address}

/-- Every thread's lockset is in order, and so is the log. -/
structure ProfileInvariant (slots : ℤ → Vector Address 10) (memory : ℕ → Record) (a m : Address)
    (s : Profiled) : Prop where
  /-- Every lockset is right. -/
  thread : ∀ tid, ThreadInvariant (slots tid) (s.threads tid)
  /-- Every entry of the log is. -/
  log : SampleLog memory a m s.buffer

theorem profileInvariant_init (slots : ℤ → Vector Address 10) (memory : ℕ → Record)
    (a m : Address) : ProfileInvariant slots memory a m (.init memory) where
  thread tid := threadInvariant_init (slots tid)
  log := ⟨rfl, fun k hk hle ↦ absurd (hk.trans hle) (by simp [Profiled.init, initBuffer])⟩

private theorem global_logStep (tid : ℤ) (t : SampledThread) (b : BufferData) (e : ThreadEvent) :
    (logStep tid t b e).global = b.global + (samples [(tid, e)]).length := by
  cases e with
  | sample x => rw [logStep, logSample, Run.next, global_writeRecord]; rfl
  | enterLock m => rfl
  | acquire m => rfl
  | release m => rfl
  | leaveUnlock m => rfl

theorem ProfileInvariant.step (h : ProfileInvariant slots memory a m s) {e : ℤ × ThreadEvent}
    (he : e.2.Legal (s.threads e.1)) (hheld : HeldAt a m s e)
    (hroom : s.buffer.global + (samples [e]).length < bufferSize) :
    ∃ s', profileStep slots s e = .ok s' ∧ ProfileInvariant slots memory a m s'
      ∧ s'.buffer.global = s.buffer.global + (samples [e]).length := by
  obtain ⟨tid, e⟩ := e
  obtain ⟨t', hstep, ht'⟩ := (h.thread tid).threadStep he
  refine ⟨⟨Function.update s.threads tid t', logStep tid (s.threads tid) s.buffer e⟩, ?_, ⟨?_, ?_⟩,
    global_logStep tid (s.threads tid) s.buffer e⟩
  · rw [profileStep, hstep]
    rfl
  · intro tid'
    by_cases htid : tid' = tid
    · subst htid
      dsimp only
      rwa [Function.update_self]
    · dsimp only
      rw [Function.update_of_ne htid]
      exact h.thread tid'
  · cases e with
    | sample x =>
      -- only a sample goes into the buffer
      have hone : (samples [(tid, .sample x)]).length = 1 := rfl
      rw [hone] at hroom
      dsimp only
      rw [logStep]
      exact h.log.sample (h.thread tid) hroom hheld tid
    | enterLock m => exact h.log
    | acquire m => exact h.log
    | release m => exact h.log
    | leaveUnlock m => exact h.log

theorem samples_cons (e : ℤ × ThreadEvent) (events : List (ℤ × ThreadEvent)) :
    (samples (e :: events)).length = (samples [e]).length + (samples events).length := by
  rw [← List.length_append, samples, samples, samples, ← List.filterMap_append]
  rfl

/-- Every run gets through, with a log of its samples. -/
theorem ProfileInvariant.run (h : ProfileInvariant slots memory a m s)
    (hlegal : Run.Along (profileStep slots) (fun s e ↦ e.2.Legal (s.threads e.1)) s events)
    (hheld : Run.Along (profileStep slots) (HeldAt a m) s events)
    (hroom : s.buffer.global + (samples events).length < bufferSize) :
    ∃ s', profileRun slots s events = .ok s' ∧ ProfileInvariant slots memory a m s'
      ∧ s'.buffer.global < bufferSize := by
  induction events generalizing s with
  | nil => exact ⟨s, rfl, h, hroom⟩
  | cons e events ih =>
    rw [Run.along_cons] at hlegal hheld
    rw [samples_cons] at hroom
    obtain ⟨s₁, hstep, hinv, hglobal⟩ := h.step hlegal.1 hheld.1 (by omega)
    rw [profileRun, List.foldlM_cons, hstep]
    exact ih hinv (hlegal.2 s₁ hstep) (hheld.2 s₁ hstep) (by omega)

section Dump

variable {b : BufferData} {code : ℤ}

/-- Every entry of the dump is the first one, which the detector ignores, or a sample. -/
theorem SampleLog.mem_stopBuffer (h : SampleLog memory a m b)
    (hfirst : (memory 0).type = .unknown code) {r : Record} (hr : r ∈ stopBuffer b)
    (htype : r.type = .memoryOp) : ∃ k : ℕ, SampleEntry a m k r ∧ r = b.entries k := by
  obtain ⟨k, hk, rfl⟩ := List.mem_map.mp hr
  rw [BufferData.dumped, List.mem_range] at hk
  rcases Nat.eq_zero_or_pos k with rfl | hpos
  · rw [h.first, hfirst] at htype
    exact absurd htype (by simp)
  · exact ⟨k, h.entry k hpos (by omega), rfl⟩

theorem SampleLog.wellFormedLog (h : SampleLog memory a m b)
    (hfirst : (memory 0).type = .unknown code) : WellFormedLog (stopBuffer b) := by
  refine ⟨?_, ?_⟩
  · intro r hr htype
    obtain ⟨k, hk, -⟩ := h.mem_stopBuffer hfirst hr htype
    exact hk.isWrite
  · intro r hr r' hr' htype htype' hno
    obtain ⟨k, hk, hrk⟩ := h.mem_stopBuffer hfirst hr htype
    obtain ⟨k', hk', hrk'⟩ := h.mem_stopBuffer hfirst hr' htype'
    rw [hk.recordNo, hk'.recordNo, Nat.cast_inj] at hno
    rw [hrk, hrk', hno]

/-- The detector gets through the dump of such a log and does not report the address. -/
theorem SampleLog.detect (h : SampleLog memory a m b)
    (hfirst : (memory 0).type = .unknown code) :
    ∃ s reports, detect false (stopBuffer b) none = .ok (s, reports)
      ∧ ∀ rep ∈ reports, rep.memoryAddress ≠ a := by
  have hwf := h.wellFormedLog hfirst
  obtain ⟨t, ht⟩ : ∃ t, tracedRun false (stopBuffer b) = .ok t := by
    refine exists_tracedRun hwf ?_ (fun h ↦ absurd h (by simp))
    intro r hr htype
    obtain ⟨k, hk, -⟩ := h.mem_stopBuffer hfirst hr htype
    exact hk.lockCount
  refine ⟨t.state, t.reports, ?_, not_reported_of_commonLock (l := m) hwf ?_ ht⟩
  · rw [Racez.detect, map_record_passedRecords_none, processLog_eq_map_tracedRun, ht]
    rfl
  · intro r hr hacc
    obtain ⟨k, hk, -⟩ := h.mem_stopBuffer hfirst hr hacc.1
    exact hk.locks hacc.2

end Dump

/-- **No warning for consistently locked memory.** Any number of threads run through the hooks, in
any order; the accesses at an address that happen to be sampled are all made by threads that hold
one mutex. Then the detector, run on the dumped log, does not report the address. -/
theorem not_reported_of_held {code : ℤ} (hfirst : (memory 0).type = .unknown code)
    (hlegal : Run.Along (profileStep slots) (fun s e ↦ e.2.Legal (s.threads e.1)) (.init memory)
      events)
    (hfew : (samples events).length < bufferSize)
    (hheld : Run.Along (profileStep slots) (HeldAt a m) (.init memory) events) :
    ∃ s, profileRun slots (.init memory) events = .ok s
      ∧ ∃ d reports, detect false (stopBuffer s.buffer) none = .ok (d, reports)
        ∧ ∀ rep ∈ reports, rep.memoryAddress ≠ a := by
  obtain ⟨s, hrun, hinv, -⟩ := (profileInvariant_init slots memory a m).run hlegal hheld
    (by rwa [Profiled.init, initBuffer, Nat.zero_add])
  exact ⟨s, hrun, hinv.log.detect hfirst⟩

end Runs

/-- Two threads take turns to write under a mutex; one of the samples falls into the unlock hook of
another mutex. -/
def lockedWriters : List (ℤ × ThreadEvent) :=
  [(7, .enterLock 8), (8, .enterLock 8), (7, .acquire 8), (7, .enterLock 16), (7, .acquire 16),
    (7, .release 16), (7, .sample ⟨1000, 64, false, 1000⟩), (7, .leaveUnlock 16), (7, .release 8),
    (8, .acquire 8), (7, .leaveUnlock 8), (8, .sample ⟨2000, 64, false, 2000⟩), (8, .release 8),
    (8, .leaveUnlock 8)]

theorem not_reported_of_held_lockedWriters : (samples lockedWriters).length = 2
    ∧ ∃ s, profileRun (fun _ ↦ Vector.replicate 10 0) (.init fun _ ↦ .zeroed) lockedWriters = .ok s
      ∧ ∃ d reports, detect false (stopBuffer s.buffer) none = .ok (d, reports)
        ∧ ∀ rep ∈ reports, rep.memoryAddress ≠ 64 :=
  ⟨by decide, @not_reported_of_held (fun _ ↦ Vector.replicate 10 0) lockedWriters (fun _ ↦ .zeroed)
    64 8 0 rfl (by decide) (by decide) (by decide)⟩

end Racez
