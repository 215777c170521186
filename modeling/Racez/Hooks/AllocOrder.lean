import Racez.Hooks.Calls

/-!
# The order of allocations in the log

The memory-reuse filter takes the records of an address for an allocation, the release of the same
block, the next allocation, and so on. The hooks log after the real function has returned, and
nothing keeps another thread from calling the real functions in between. So a block that is released
and handed out again may have its second allocation logged before its release.

`loggedInOrder` is what holds as long as that does not happen: no real function touches an address
while another call at the address has not drawn its number yet.

## The invariant

A record gets its place in the log when its call draws a number, and a block changes hands when the
real function runs. Under the condition at most one call at a block is between the two.
`AddressInvariant` says so for one block: of the calls whose real functions have returned, all but
the last have drawn their numbers, in this order; allocations and releases take turns, as the
allocator and the program see to; and the last one decides whether the block is in use. The step
lemmas follow the parts of a call: the real function, the test of `racez_enable`, which a call
passes as long as profiling is on, and the statements of `WriteRecord`, of which the first draws the
number.

The blocks are followed one by one. A call at one address leaves the numbers at all others alone, so
the invariant of an address is not affected by them.
-/

namespace Racez

/-! ## Calls at an address -/

/-- The block a call of `malloc` or `free` is about. -/
def LogHook.block : LogHook → Option Address
  | .malloc _ result => some result
  | .free p => some p
  | _ => none

/-- Whether a call allocates. -/
def LogHook.allocates : LogHook → Bool
  | .malloc _ _ => true
  | _ => false

/-- Allocations and releases in turn, an allocation first. -/
def Alternates (ops : List Bool) : Prop := (false :: ops).IsChain (· ≠ ·)

section Alternates

variable {ops ops' : List Bool}

private theorem alternates_append_singleton {op : Bool} (h : Alternates ops)
    (hop : op = !ops.getLastD false) : Alternates (ops ++ [op]) := by
  rw [Alternates, ← List.cons_append]
  refine List.IsChain.append h (List.isChain_singleton op) ?_
  intro x hx y hy
  rw [List.getLast?_cons, Option.mem_some_iff] at hx
  rw [List.head?_singleton, Option.mem_some_iff] at hy
  subst hx hy
  rw [hop, List.getLastD_eq_getLast?]
  exact (Bool.not_ne_self _).symm

theorem Alternates.of_isPrefix (h : Alternates ops) (hpre : ops' <+: ops) : Alternates ops' := by
  obtain ⟨rest, rfl⟩ := hpre
  rw [Alternates, ← List.cons_append] at h
  exact h.left_of_append

end Alternates

section Order

variable {ι : Type*} {flags : LogFlags} {calls : ι → HookCall}
  {memory : ℕ → Record} {s : CallState ι} {c : ι} {p : Address}

/-- The calls at an address, in the order of the real functions. -/
def callsAt (calls : ι → HookCall) (s : CallState ι) (p : Address) : List ι :=
  s.history.filter fun c ↦ (calls c).hook.block = some p

/-- The number a call has drawn. -/
def numberOf (s : CallState ι) (c : ι) : Option ℕ := (s.tickets.procs c).map Prod.fst

/-- The calls at an address that have drawn a number. -/
def loggedAt (calls : ι → HookCall) (s : CallState ι) (p : Address) : List ι :=
  (callsAt calls s p).filter fun c ↦ (numberOf s c).isSome

/-- `record_no_` of the record of a call. -/
def recordNoOf (s : CallState ι) (c : ι) : ℤ := toInt32 ((numberOf s c).getD 0 : ℕ)

/-- The records at an address have the order of the real calls, and are allocations and releases in
turn. -/
structure LoggedInOrder (calls : ι → HookCall) (s : CallState ι) (p : Address) : Prop where
  /-- The numbers increase in the order of the real calls. -/
  increasing : (loggedAt calls s p).Pairwise fun c c' ↦ recordNoOf s c < recordNoOf s c'
  /-- Allocations and releases take turns. -/
  alternates : Alternates ((loggedAt calls s p).map fun c ↦ (calls c).hook.allocates)

/-! ## Conditions on a step -/

/-- The allocator hands out a block that is not in use, and the program releases a block that is. -/
def LogHook.Respects (live : Address → Bool) : LogHook → Prop
  | .malloc _ result => result ≠ 0 → live result = false
  | .free p => p ≠ 0 → live p = true
  | _ => True

instance LogHook.decidableRespects (live : Address → Bool) :
    ∀ hook : LogHook, Decidable (hook.Respects live)
  | .malloc _ result => decidable_of_iff (result ≠ 0 → live result = false) Iff.rfl
  | .free p => decidable_of_iff (p ≠ 0 → live p = true) Iff.rfl
  | .condWait _ _ => decidable_of_iff True Iff.rfl
  | .condSignal _ => decidable_of_iff True Iff.rfl
  | .logMemoryAllocation _ _ _ => decidable_of_iff True Iff.rfl

/-- The profiler is not stopped, and a real function that is called respects the blocks in use. -/
def AllocLegal (calls : ι → HookCall) (s : CallState ι) : Option ι → Prop
  | none => False
  | some c => s.phase c = .entered → (calls c).hook.Respects s.live

instance AllocLegal.decidable (calls : ι → HookCall) (s : CallState ι) :
    ∀ e, Decidable (AllocLegal calls s e)
  | none => decidable_of_iff False Iff.rfl
  | some c => decidable_of_iff (s.phase c = .entered → (calls c).hook.Respects s.live) Iff.rfl

/-- A real function is called at an address only after every call at the address has drawn its
number; and the numbers do not overflow. -/
def InTurn (calls : ι → HookCall) (s : CallState ι) : Option ι → Prop
  | none => True
  | some c =>
    (s.phase c = .entered → ∀ c' ∈ s.history, (calls c').hook.block = (calls c).hook.block →
      (numberOf s c').isSome)
    ∧ (s.phase c = .writing → numberOf s c = none → s.tickets.counter + 1 < 2 ^ 31)

instance (calls : ι → HookCall) (s : CallState ι) : ∀ e, Decidable (InTurn calls s e)
  | none => inferInstanceAs (Decidable True)
  | some _ => inferInstanceAs (Decidable (_ ∧ _))

/-! ## The real function -/

theorem callsAt_append (history : List ι) (phase : ι → CallPhase) (live : Address → Bool) :
    callsAt calls { s with live, history := history ++ [c], phase } p
      = callsAt calls { s with live, history, phase } p
        ++ if (calls c).hook.block = some p then [c] else [] := by
  rw [callsAt, callsAt, List.filter_append, List.filter_singleton]
  simp

private theorem update_block {live : Address → Bool} (hp : p ≠ 0) (q : Address) (b : Bool) :
    (if q = 0 then live else Function.update live q b) p
      = if some q = some p then b else live p := by
  by_cases h : q = p
  · subst h
    rw [if_neg hp, if_pos rfl, Function.update_self]
  · have hne : some q ≠ some p := fun heq ↦ h (Option.some.inj heq)
    rw [if_neg hne]
    split_ifs
    · rfl
    · rw [Function.update_of_ne (Ne.symm h)]

/-- The real function does to a block what the record of the call will say. -/
theorem LogHook.real_block {hook : LogHook} {live : Address → Bool} (hp : p ≠ 0) :
    hook.real live p = if hook.block = some p then hook.allocates else live p := by
  cases hook with
  | malloc size result => exact update_block hp result true
  | free q => exact update_block hp q false
  | condWait cond mutex => rfl
  | condSignal cond => rfl
  | logMemoryAllocation startAddress size isAlloc => rfl

theorem AllocLegal.allocates (h : AllocLegal calls s (some c)) (hphase : s.phase c = .entered)
    (hblock : (calls c).hook.block = some p) (hp : p ≠ 0) :
    (calls c).hook.allocates = !s.live p := by
  have hlegal := h hphase
  cases hhook : (calls c).hook with
  | malloc size result =>
    rw [hhook] at hlegal hblock
    obtain rfl := Option.some.inj hblock
    rw [hlegal hp]
    rfl
  | free q =>
    rw [hhook] at hlegal hblock
    obtain rfl := Option.some.inj hblock
    rw [hlegal hp]
    rfl
  | condWait cond mutex => simp [hhook, LogHook.block] at hblock
  | condSignal cond => simp [hhook, LogHook.block] at hblock
  | logMemoryAllocation startAddress size isAlloc => simp [hhook, LogHook.block] at hblock

/-! ## The invariant -/

variable [DecidableEq ι]

/-- Of the calls at a block all but the last have drawn their numbers, in order; the operations
alternate, and the last one decides whether the block is in use. -/
structure AddressInvariant (calls : ι → HookCall) (s : CallState ι) (p : Address) : Prop where
  /-- All calls but the last have a number, and a smaller one than those behind them. -/
  numbers : (callsAt calls s p).Pairwise fun c c' ↦ ∃ k, numberOf s c = some k
    ∧ ∀ k', numberOf s c' = some k' → k < k'
  /-- Allocations and releases take turns. -/
  alternates : Alternates ((callsAt calls s p).map fun c ↦ (calls c).hook.allocates)
  /-- The block is in use if the last call was an allocation. -/
  live : s.live p = ((callsAt calls s p).map fun c ↦ (calls c).hook.allocates).getLastD false

/-- What holds while the profiler runs and the calls take their turns. -/
structure OrderInvariant (flags : LogFlags) (calls : ι → HookCall) (memory : ℕ → Record)
    (s : CallState ι) : Prop extends WriteInvariant flags calls memory s where
  /-- A call is in the history once its real function has returned. -/
  history : ∀ c, c ∈ s.history ↔ s.phase c ≠ .entered
  /-- Profiling is not being stopped. -/
  running : s.stop = .running
  /-- The counter has not gone past the numbers of type `int`. -/
  counter : s.tickets.counter < 2 ^ 31
  /-- At every block the calls are in order. -/
  address : ∀ p, p ≠ 0 → AddressInvariant calls s p

theorem orderInvariant_init : OrderInvariant flags calls memory (.init ι memory) where
  toWriteInvariant := writeInvariant_init
  history _ := iff_of_false List.not_mem_nil (fun h ↦ h rfl)
  running := rfl
  counter := Nat.two_pow_pos 31
  address _ _ := ⟨List.Pairwise.nil, List.isChain_singleton _, rfl⟩

private theorem WriteInvariant.numberOf_eq_none (h : WriteInvariant flags calls memory s)
    (hphase : s.phase c ≠ .writing) : numberOf s c = none := by
  rw [numberOf]
  cases hp : s.tickets.procs c with
  | none => rfl
  | some x => exact absurd (h.writing c x hp).1 hphase

/-- The real function at an address: a call at the address comes after calls that have their
numbers, and has none itself. -/
theorem AddressInvariant.real (h : AddressInvariant calls s p) (hp : p ≠ 0)
    (hphase : s.phase c = .entered) (hnone : numberOf s c = none)
    (hlegal : AllocLegal calls s (some c)) (hturn : InTurn calls s (some c)) :
    AddressInvariant calls { s with
      live := (calls c).hook.real s.live
      history := s.history ++ [c]
      phase := Function.update s.phase c .returned } p := by
  obtain ⟨hnumbers, halt, hlive⟩ := h
  have hcalls : callsAt calls { s with
      live := (calls c).hook.real s.live
      history := s.history ++ [c]
      phase := Function.update s.phase c .returned } p
      = callsAt calls s p ++ if (calls c).hook.block = some p then [c] else [] :=
    callsAt_append s.history _ _
  by_cases hblock : (calls c).hook.block = some p
  · rw [if_pos hblock] at hcalls
    refine ⟨?_, ?_, ?_⟩
    · rw [hcalls]
      refine List.pairwise_append.mpr ⟨hnumbers, List.pairwise_singleton _ _, ?_⟩
      intro c₁ hc₁ c₂ hc₂
      obtain rfl := List.mem_singleton.mp hc₂
      rw [callsAt, List.mem_filter, decide_eq_true_iff] at hc₁
      -- calls on a block take turns: the earlier ones have drawn their numbers
      obtain ⟨k, hk⟩ := Option.isSome_iff_exists.mp
        (hturn.1 hphase c₁ hc₁.1 (hc₁.2.trans hblock.symm))
      exact ⟨k, hk, fun k' hk' ↦ absurd (hnone.symm.trans hk') (by simp)⟩
    · rw [hcalls, List.map_append]
      refine alternates_append_singleton halt ?_
      rw [← hlive]
      exact hlegal.allocates hphase hblock hp
    · rw [hcalls, List.map_append, List.map_singleton, List.getLastD_concat]
      dsimp only
      rw [LogHook.real_block hp, if_pos hblock]
  · rw [if_neg hblock, List.append_nil] at hcalls
    refine ⟨by rw [hcalls]; exact hnumbers, by rw [hcalls]; exact halt, ?_⟩
    -- a call on another block does not matter here
    rw [hcalls, ← hlive]
    dsimp only
    rw [LogHook.real_block hp, if_neg hblock]

theorem OrderInvariant.real (h : OrderInvariant flags calls memory s)
    (hphase : s.phase c = .entered) (hlegal : AllocLegal calls s (some c))
    (hturn : InTurn calls s (some c)) :
    OrderInvariant flags calls memory { s with
      live := (calls c).hook.real s.live
      history := s.history ++ [c]
      phase := Function.update s.phase c .returned } where
  toWriteInvariant := h.toWriteInvariant.phase (by simp [hphase])
  history c' := by
    rw [List.mem_append, List.mem_singleton, h.history]
    dsimp only
    by_cases hc : c' = c
    · subst hc
      simp
    · rw [Function.update_of_ne hc]
      simp [hc]
  running := h.running
  counter := h.counter
  address p hp := (h.address p hp).real hp hphase
    (h.toWriteInvariant.numberOf_eq_none (by simp [hphase])) hlegal hturn

/-! ## The other steps -/

theorem OrderInvariant.test (h : OrderInvariant flags calls memory s)
    (hphase : s.phase c = .returned) {phase : CallPhase} (hnew : phase ≠ .entered) :
    OrderInvariant flags calls memory
      { s with phase := Function.update s.phase c phase } where
  toWriteInvariant := h.toWriteInvariant.phase (by simp [hphase])
  history c' := by
    rw [h.history]
    dsimp only
    by_cases hc : c' = c
    · subst hc
      simp [hphase, hnew]
    · rw [Function.update_of_ne hc]
  running := h.running
  counter := h.counter
  address p hp := ⟨(h.address p hp).numbers, (h.address p hp).alternates, (h.address p hp).live⟩

private theorem numberOf_advanceWrite (s : CallState ι) (c c' : ι) :
    numberOf { s with tickets := advanceWrite calls s.tickets c } c'
      = if c' = c then some ((numberOf s c).getD (s.tickets.counter + 1)) else numberOf s c' := by
  rw [numberOf, numberOf, numberOf, advanceWrite]
  cases hp : s.tickets.procs c with
  | none =>
    rw [Tickets.advance_of_none hp]
    dsimp only
    split_ifs with hc
    · rw [hc, Function.update_self]
      rfl
    · rw [Function.update_of_ne hc]
  | some x =>
    obtain ⟨k, l⟩ := x
    rw [Tickets.advance_of_some hp]
    dsimp only
    split_ifs with hc
    · rw [hc, Function.update_self]
      rfl
    · rw [Function.update_of_ne hc]

@[simp] theorem counter_advanceWrite (t : Tickets.State ι WritePc Record) (c : ι) :
    (advanceWrite calls t c).counter
      = if t.procs c = none then t.counter + 1 else t.counter := by
  rw [advanceWrite]
  cases hp : t.procs c with
  | none =>
    rw [Tickets.advance_of_none hp]
    rfl
  | some x =>
    rw [Tickets.advance_of_some hp]
    rfl

private theorem WriteInvariant.numberOf_le (h : WriteInvariant flags calls memory s) {k : ℕ}
    (hk : numberOf s c = some k) : k ≤ s.tickets.counter := by
  obtain ⟨schedule, hinv⟩ := h.tickets
  obtain ⟨⟨k', l⟩, hp, rfl⟩ := Option.map_eq_some_iff.mp hk
  exact (hinv.range c k' l hp).2

/-- A statement of `WriteRecord` keeps the numbers at an address in order: a number drawn now is
larger than all others. -/
theorem AddressInvariant.write (h : AddressInvariant calls s p)
    (hle : ∀ c' k, numberOf s c' = some k → k ≤ s.tickets.counter) :
    AddressInvariant calls { s with tickets := advanceWrite calls s.tickets c } p := by
  refine ⟨?_, h.alternates, h.live⟩
  refine h.numbers.imp ?_
  rintro c₁ c₂ ⟨k, hk, hless⟩
  refine ⟨k, ?_, ?_⟩
  · rw [numberOf_advanceWrite]
    split_ifs with hc
    · rw [← hc, hk, Option.getD_some]
    · exact hk
  · intro k' hk'
    rw [numberOf_advanceWrite] at hk'
    split_ifs at hk' with hc
    · subst hc
      cases hnum : numberOf s c₂ with
      | none =>
        -- a number that is drawn now is above the counter, and so above all others
        rw [hnum, Option.getD_none] at hk'
        have heq := Option.some.inj hk'
        have hk := hle c₁ k hk
        omega
      | some k₂ =>
        rw [hnum, Option.getD_some] at hk'
        obtain rfl := Option.some.inj hk'
        exact hless k₂ hnum
    · exact hless k' hk'

theorem OrderInvariant.write (h : OrderInvariant flags calls memory s)
    (hphase : s.phase c = .writing) (hwrite : flags.racezWriteRecord = true)
    (hturn : InTurn calls s (some c)) :
    OrderInvariant flags calls memory
      { s with tickets := Racez.advanceWrite calls s.tickets c } where
  toWriteInvariant := h.toWriteInvariant.advanceWrite hphase hwrite
  history := h.history
  running := h.running
  counter := by
    dsimp only
    rw [counter_advanceWrite]
    split_ifs with hnone
    · exact hturn.2 hphase (by rw [numberOf, hnone, Option.map_none])
    · exact h.counter
  address p hp := (h.address p hp).write fun _ _ ↦ h.toWriteInvariant.numberOf_le

theorem OrderInvariant.callStep (h : OrderInvariant flags calls memory s)
    (hlegal : AllocLegal calls s (some c)) (hturn : InTurn calls s (some c)) :
    ∃ s', callStep flags calls s c = .ok s' ∧ OrderInvariant flags calls memory s' := by
  rw [Racez.callStep]
  cases hphase : s.phase c with
  | entered => exact ⟨_, rfl, h.real hphase hlegal hturn⟩
  | returned =>
    refine ⟨_, rfl, h.test hphase ?_⟩
    split_ifs <;> simp
  | skipped => exact ⟨s, rfl, h⟩
  | writing =>
    dsimp only
    split_ifs with hwrite hlive
    · exact ⟨s, rfl, h⟩
    · exact ⟨_, rfl, h.write hphase (by simpa using hwrite) hturn⟩
    · rw [h.running] at hlive
      cases hregion : regionUsed (s.tickets.procs c) with
      | none => exact absurd (by rw [hregion]; rfl) hlive
      | some region => exact absurd (by rw [hregion]; rfl) hlive

/-! ## Whole runs -/

/-- If all but the last element have a property, those that have it come first. -/
theorem filter_isPrefix {α : Type*} {q : α → Bool} {l : List α} (h : l.Pairwise fun x _ ↦ q x) :
    l.filter q <+: l := by
  induction l with
  | nil => exact List.prefix_refl _
  | cons x l ih =>
    obtain ⟨hx, hl⟩ := List.pairwise_cons.mp h
    cases l with
    | nil =>
      rw [List.filter_singleton]
      cases q x with
      | true => exact List.prefix_refl _
      | false => exact List.nil_prefix
    | cons y l =>
      rw [List.filter_cons_of_pos (hx y List.mem_cons_self)]
      exact (List.cons_prefix_cons).mpr ⟨rfl, ih hl⟩

theorem OrderInvariant.numbered (h : OrderInvariant flags calls memory s) (hp : p ≠ 0) :
    LoggedInOrder calls s p := by
  obtain ⟨hnumbers, halt, -⟩ := h.address p hp
  refine ⟨?_, ?_⟩
  · rw [loggedAt]
    refine (hnumbers.filter _).imp_of_mem ?_
    rintro c c' hc hc' ⟨k, hk, hless⟩
    obtain ⟨k', hk'⟩ := Option.isSome_iff_exists.mp (List.mem_filter.mp hc').2
    have hcounter := h.counter
    have hle := h.toWriteInvariant.numberOf_le hk'
    have hlt := hless k' hk'
    rw [recordNoOf, recordNoOf, hk, hk', Option.getD_some, Option.getD_some,
      toInt32_of_lt (by omega), toInt32_of_lt (by omega)]
    exact_mod_cast hlt
  · refine halt.of_isPrefix ?_
    rw [loggedAt]
    refine (filter_isPrefix ?_).map _
    refine hnumbers.imp ?_
    rintro c c' ⟨k, hk, -⟩
    rw [hk]
    rfl

/-- **The log has the order of the allocator**, as long as no real function is called at an address
at which a call has still to draw its number: the records at the address are numbered in the order
of the real calls, an allocation, its release, the next allocation and so on. The log has no other
records than those of the calls, each at its number. -/
theorem loggedInOrder {schedule : List (Option ι)}
    (hlegal : Run.Along (processStep flags calls) (AllocLegal calls) (.init ι memory) schedule)
    (hturn : Run.Along (processStep flags calls) (InTurn calls) (.init ι memory) schedule) :
    ∃ s, processRun flags calls memory schedule = .ok s
      ∧ (∀ p, p ≠ 0 → LoggedInOrder calls s p)
      ∧ (∀ k, 1 ≤ k → k ≤ s.tickets.counter → ∃ c ∈ s.history, numberOf s c = some k)
      ∧ ∀ c k, s.tickets.procs c = some (k, .copy .done) → Accepted k →
        s.tickets.cells k = (calls c).record.copyTo (recordNoOf s c) (memory k) := by
  have hstep : ∀ s e, OrderInvariant flags calls memory s →
      AllocLegal calls s e ∧ InTurn calls s e →
      (∃ s', processStep flags calls s e = .ok s' ∧ OrderInvariant flags calls memory s')
        ∨ ∃ f, processStep flags calls s e = .error f ∧ False := by
    rintro s e h ⟨hlegal, hturn⟩
    cases e with
    | none => exact hlegal.elim
    | some c => exact Or.inl (h.callStep hlegal hturn)
  rcases (hlegal.and hturn).progress orderInvariant_init hstep
    with ⟨s, hrun, hinv⟩ | ⟨-, -, hfalse⟩
  · refine ⟨s, hrun, fun p hp ↦ hinv.numbered hp, ?_, ?_⟩
    · intro k hpos hle
      obtain ⟨schedule, htickets⟩ := hinv.tickets
      obtain ⟨c, l, hc⟩ := htickets.exists_owner hpos hle
      refine ⟨c, (hinv.history c).mpr ?_, by rw [numberOf, hc]; rfl⟩
      rw [(hinv.writing c _ hc).1]
      simp
    · intro c k hc hk
      rw [hinv.cells_eq hc hk, recordNoOf, numberOf, hc]
      rfl
  · exact hfalse.elim

end Order

/-- A block is allocated, released, and allocated again by another thread. -/
def reusedBlock : Fin 3 → HookCall
  | 0 => ⟨7, .malloc 16 64⟩
  | 1 => ⟨7, .free 64⟩
  | 2 => ⟨8, .malloc 16 64⟩

/-- The calls one after the other. -/
def inTurnSchedule : List (Option (Fin 3)) :=
  List.replicate 14 (some 0) ++ List.replicate 14 (some 1) ++ List.replicate 14 (some 2)

theorem loggedInOrder_inTurn : ∃ s, processRun ⟨true, false, true⟩ reusedBlock (fun _ ↦ .zeroed)
    inTurnSchedule = .ok s ∧ loggedAt reusedBlock s 64 = [0, 1, 2]
      ∧ LoggedInOrder reusedBlock s 64 := by
  obtain ⟨s, hrun, hinv, -⟩ := @loggedInOrder (Fin 3) ⟨true, false, true⟩ reusedBlock
    (fun _ ↦ .zeroed) _ inTurnSchedule (by decide) (by decide)
  refine ⟨s, hrun, ?_, hinv 64 (by decide)⟩
  obtain rfl := Except.ok.inj hrun
  decide

/-- The second allocation comes between the release and its record. -/
theorem not_loggedInOrder_overtaken :
    Run.Along (processStep ⟨true, false, true⟩ reusedBlock) (AllocLegal reusedBlock)
        (.init (Fin 3) fun _ ↦ .zeroed)
        (List.replicate 14 (some 0) ++ [some 1] ++ List.replicate 14 (some 2)
          ++ List.replicate 13 (some 1))
      ∧ ∃ s, processRun ⟨true, false, true⟩ reusedBlock (fun _ ↦ .zeroed)
          (List.replicate 14 (some 0) ++ [some 1] ++ List.replicate 14 (some 2)
            ++ List.replicate 13 (some 1)) = .ok s
        ∧ s.history = [0, 1, 2] ∧ recordNoOf s 1 = 3 ∧ recordNoOf s 2 = 2
        ∧ ¬LoggedInOrder reusedBlock s 64 := by
  refine ⟨by decide, _, rfl, rfl, by decide, by decide, ?_⟩
  intro h
  exact absurd h.increasing (by decide)

end Racez
