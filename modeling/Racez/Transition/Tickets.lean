import Mathlib.Data.Fintype.Card
import Mathlib.Data.List.Count
import Mathlib.Logic.Function.Iterate
import Mathlib.Order.Interval.Finset.Nat

/-!
# Tickets

Processes that share an array of cells and a counter. The first step of a process increments the
counter atomically; the new value is its ticket. In every later step the process reads and writes
one cell, the one its ticket names. The steps of the processes interleave in any way.

Since tickets are distinct, a process never sees the work of another one. `run_invariant` says so in
the strongest form: after any schedule, the local state of a process and the content of its cell are
what the process would have reached alone, in as many steps as it was scheduled. Cells without an
owner keep their content, and the tickets drawn are the first positive numbers.

## The proof

The invariant says of every process that has drawn a ticket where it is: as many steps from its
start as it was scheduled since, with its cell as these steps have left it, beginning with what was
in the cell at first. A step of a process is either the first one, which draws a ticket nobody has
(`Invariant.draw`), or a later one, on its own cell. In both cases the cells of the others are not
touched. The tickets of all processes are the numbers from one to the number of processes, each once
(`Invariant.tickets`).
-/

namespace Tickets

/-- The counter, the cells, and for every process that has drawn a ticket the ticket and its local
state. -/
structure State (ι σ ν : Type*) where
  /-- The last ticket that was drawn. -/
  counter : ℕ
  /-- One cell for each ticket. -/
  cells : ℕ → ν
  /-- The processes that have drawn a ticket, with their local states. -/
  procs : ι → Option (ℕ × σ)

variable {ι σ ν : Type*}

/-- No process has started. -/
def init (cells : ℕ → ν) : State ι σ ν := ⟨0, cells, fun _ ↦ none⟩

variable [DecidableEq ι] (start : σ) (step : ι → ℕ → σ × ν → σ × ν)

/-- One step of a process. -/
def advance (s : State ι σ ν) (p : ι) : State ι σ ν :=
  match s.procs p with
  | none =>
    { s with
      counter := s.counter + 1
      procs := Function.update s.procs p (some (s.counter + 1, start)) }
  | some (k, l) =>
    let next := step p k (l, s.cells k)
    { s with
      cells := Function.update s.cells k next.2
      procs := Function.update s.procs p (some (k, next.1)) }

/-- The processes step in the order of a schedule. -/
def run (cells : ℕ → ν) (schedule : List ι) : State ι σ ν :=
  schedule.foldl (advance start step) (init cells)

/-- What holds after a schedule. -/
structure Invariant (cells : ℕ → ν) (schedule : List ι) (s : State ι σ ν) : Prop where
  /-- The processes with a ticket are those that were scheduled. -/
  started : ∀ p, s.procs p = none ↔ p ∉ schedule
  /-- Every process has its own ticket. -/
  injective : ∀ p q k l l', s.procs p = some (k, l) → s.procs q = some (k, l') → p = q
  /-- Tickets are positive and do not exceed the counter. -/
  range : ∀ p k l, s.procs p = some (k, l) → 1 ≤ k ∧ k ≤ s.counter
  /-- The counter counts the processes that were scheduled. -/
  counter_eq : s.counter = schedule.toFinset.card
  /-- A process and its cell are where the process alone would have brought them. -/
  alone : ∀ p k l, s.procs p = some (k, l) →
    (l, s.cells k) = (step p k)^[schedule.count p - 1] (start, cells k)
  /-- A cell without an owner is untouched. -/
  untouched : ∀ k, (∀ p l, s.procs p ≠ some (k, l)) → s.cells k = cells k

section Invariant

variable {start step} {cells : ℕ → ν} {schedule : List ι} {s : State ι σ ν} {p : ι} {k : ℕ} {l : σ}

theorem invariant_init (cells : ℕ → ν) : Invariant start step cells ([] : List ι) (init cells) where
  started _ := iff_of_true rfl List.not_mem_nil
  injective _ _ _ _ _ h := nomatch h
  range _ _ _ h := nomatch h
  counter_eq := rfl
  alone _ _ _ h := nomatch h
  untouched _ _ := rfl

theorem advance_of_none (h : s.procs p = none) : advance start step s p
    = { s with
        counter := s.counter + 1
        procs := Function.update s.procs p (some (s.counter + 1, start)) } := by
  rw [advance, h]

theorem advance_of_some (h : s.procs p = some (k, l)) : advance start step s p
    = { s with
        cells := Function.update s.cells k (step p k (l, s.cells k)).2
        procs := Function.update s.procs p (some (k, (step p k (l, s.cells k)).1)) } := by
  rw [advance, h]

@[simp] theorem update_eq_some_iff {β : Type*} {f : ι → Option β} {q : ι} {x y : β} :
    Function.update f p (some x) q = some y ↔ q = p ∧ x = y ∨ q ≠ p ∧ f q = some y := by
  by_cases h : q = p
  · subst h
    simp
  · simp [h]

@[simp] theorem update_eq_none_iff {β : Type*} {f : ι → Option β} {q : ι} {x : β} :
    Function.update f p (some x) q = none ↔ q ≠ p ∧ f q = none := by
  by_cases h : q = p
  · subst h
    simp
  · simp [h]

theorem Invariant.started_append (h : Invariant start step cells schedule s) {x : ℕ × σ} (q : ι) :
    Function.update s.procs p (some x) q = none ↔ q ∉ schedule ++ [p] := by
  rw [update_eq_none_iff, h.started q, List.mem_append, List.mem_singleton, not_or]
  exact and_comm

private theorem count_append_of_ne {q : ι} (h : q ≠ p) :
    (schedule ++ [p]).count q = schedule.count q := by
  rw [List.count_append, List.count_singleton, if_neg (by simpa using h.symm), Nat.add_zero]

/-- The first step of a process, which draws a ticket nobody has. -/
theorem Invariant.draw (h : Invariant start step cells schedule s) (hp : s.procs p = none) :
    Invariant start step cells (schedule ++ [p]) (advance start step s p) := by
  have hnew : p ∉ schedule := (h.started p).mp hp
  -- the new ticket is above all those drawn before
  have hfresh : ∀ q l, s.procs q ≠ some (s.counter + 1, l) := by
    intro q l hq
    exact absurd (h.range q _ l hq).2 (Nat.not_succ_le_self _)
  rw [advance_of_none hp]
  refine ⟨fun q ↦ h.started_append q, ?_, ?_, ?_, ?_, ?_⟩
  · intro q q' k l l' hq hq'
    rcases update_eq_some_iff.mp hq with ⟨rfl, heq⟩ | ⟨-, hold⟩
    · obtain ⟨rfl, rfl⟩ := Prod.mk.inj heq
      rcases update_eq_some_iff.mp hq' with ⟨rfl, -⟩ | ⟨-, hq'⟩
      · rfl
      · exact absurd hq' (hfresh q' l')
    · rcases update_eq_some_iff.mp hq' with ⟨-, heq⟩ | ⟨-, hq'⟩
      · exact absurd ((Prod.mk.inj heq).1 ▸ hold) (hfresh q l)
      · exact h.injective q q' k l l' hold hq'
  · intro q k l hq
    rcases update_eq_some_iff.mp hq with ⟨rfl, heq⟩ | ⟨-, hq⟩
    · obtain ⟨rfl, rfl⟩ := Prod.mk.inj heq
      exact ⟨Nat.le_add_left 1 _, le_rfl⟩
    · obtain ⟨hpos, hle⟩ := h.range q k l hq
      exact ⟨hpos, hle.trans (Nat.le_succ _)⟩
  · have hcard : (schedule ++ [p]).toFinset = insert p schedule.toFinset := by
      ext q
      simp
    rw [hcard, Finset.card_insert_of_notMem (by simpa using hnew), ← h.counter_eq]
  · intro q k l hq
    rcases update_eq_some_iff.mp hq with ⟨rfl, heq⟩ | ⟨hne, hq⟩
    · obtain ⟨rfl, rfl⟩ := Prod.mk.inj heq
      have hcount : (schedule ++ [q]).count q - 1 = 0 := by
        rw [List.count_append, List.count_eq_zero_of_not_mem hnew, List.count_singleton_self]
      rw [hcount, Function.iterate_zero_apply, ← h.untouched _ hfresh]
    · rw [count_append_of_ne hne]
      exact h.alone q k l hq
  · intro k hk
    refine h.untouched k fun q l hq ↦ hk q l ?_
    refine update_eq_some_iff.mpr (Or.inr ⟨?_, hq⟩)
    rintro rfl
    rw [hp] at hq
    exact absurd hq (by simp)

theorem Invariant.work (h : Invariant start step cells schedule s) (hp : s.procs p = some (k, l)) :
    Invariant start step cells (schedule ++ [p]) (advance start step s p) := by
  have hmem : p ∈ schedule := by
    by_contra hnot
    rw [← h.started p, hp] at hnot
    exact absurd hnot (Option.some_ne_none _)
  rw [advance_of_some hp]
  refine ⟨fun q ↦ h.started_append q, ?_, ?_, ?_, ?_, ?_⟩
  · intro q q' k' l' l'' hq hq'
    -- whether or not it is `p`, a process has the ticket it had before
    have hold : ∀ q l', Function.update s.procs p (some (k, (step p k (l, s.cells k)).1)) q
        = some (k', l') → ∃ l'', s.procs q = some (k', l'') := by
      intro q l' hq
      rcases update_eq_some_iff.mp hq with ⟨rfl, heq⟩ | ⟨-, hq⟩
      · obtain ⟨rfl, -⟩ := Prod.mk.inj heq
        exact ⟨l, hp⟩
      · exact ⟨l', hq⟩
    obtain ⟨m, hm⟩ := hold q l' hq
    obtain ⟨m', hm'⟩ := hold q' l'' hq'
    exact h.injective q q' k' m m' hm hm'
  · intro q k' l' hq
    rcases update_eq_some_iff.mp hq with ⟨rfl, heq⟩ | ⟨-, hq⟩
    · obtain ⟨rfl, -⟩ := Prod.mk.inj heq
      exact h.range q k l hp
    · exact h.range q k' l' hq
  · have hsame : (schedule ++ [p]).toFinset = schedule.toFinset := by
      ext q
      simp only [List.mem_toFinset, List.mem_append, List.mem_singleton]
      refine or_iff_left_of_imp ?_
      rintro rfl
      exact hmem
    rw [hsame, ← h.counter_eq]
  · intro q k' l' hq
    rcases update_eq_some_iff.mp hq with ⟨rfl, heq⟩ | ⟨hne, hold⟩
    · obtain ⟨rfl, rfl⟩ := Prod.mk.inj heq
      have hcount : (schedule ++ [q]).count q - 1 = (schedule.count q - 1) + 1 := by
        have hpos : 0 < schedule.count q := List.count_pos_iff.mpr hmem
        rw [List.count_append, List.count_singleton_self]
        omega
      rw [hcount, Function.iterate_succ_apply', ← h.alone q k l hp]
      dsimp only
      rw [Function.update_self]
    · have hk : k' ≠ k := by
        rintro rfl
        exact hne (h.injective q p k' l' l hold hp)
      rw [count_append_of_ne hne, ← h.alone q k' l' hold]
      dsimp only
      rw [Function.update_of_ne hk]
  · intro k' hk'
    have hk : k' ≠ k := by
      rintro rfl
      exact hk' p _ (update_eq_some_iff.mpr (Or.inl ⟨rfl, rfl⟩))
    dsimp only
    rw [Function.update_of_ne hk]
    refine h.untouched k' fun q l' hq ↦ hk' q l' ?_
    refine update_eq_some_iff.mpr (Or.inr ⟨?_, hq⟩)
    rintro rfl
    rw [hp] at hq
    exact hk (Prod.mk.inj (Option.some.inj hq)).1.symm

/-- The invariant holds after every schedule. -/
theorem run_invariant (cells : ℕ → ν) (schedule : List ι) :
    Invariant start step cells schedule (run start step cells schedule) := by
  induction schedule using List.reverseRecOn with
  | nil => exact invariant_init cells
  | append_singleton schedule p ih =>
    rw [run, List.foldl_append, List.foldl_cons, List.foldl_nil, ← run]
    rcases hp : (run start step cells schedule).procs p with _ | ⟨k, l⟩
    · exact ih.draw hp
    · exact ih.work hp

theorem Invariant.exists_owner (h : Invariant start step cells schedule s) (hpos : 1 ≤ k)
    (hle : k ≤ s.counter) : ∃ p l, s.procs p = some (k, l) := by
  have hdrawn : ∀ p ∈ schedule, ∃ x, s.procs p = some x := by
    intro p hp
    exact Option.ne_none_iff_exists'.mp fun hnone ↦ (h.started p).mp hnone hp
  have hticket : ∀ p ∈ schedule.toFinset,
      ∃ l, s.procs p = some (((s.procs p).map Prod.fst).getD 0, l) := by
    intro p hp
    obtain ⟨⟨k, l⟩, hk⟩ := hdrawn p (List.mem_toFinset.mp hp)
    exact ⟨l, by rw [hk]; rfl⟩
  -- the tickets drawn are distinct and in range, and as many as the counter says
  have himage : schedule.toFinset.image (fun p ↦ ((s.procs p).map Prod.fst).getD 0)
      = Finset.Icc 1 s.counter := by
    refine Finset.eq_of_subset_of_card_le ?_ ?_
    · intro i hi
      obtain ⟨p, hp, rfl⟩ := Finset.mem_image.mp hi
      obtain ⟨l, hl⟩ := hticket p hp
      exact Finset.mem_Icc.mpr (h.range p _ l hl)
    · rw [Finset.card_image_of_injOn, Nat.card_Icc, Nat.add_sub_cancel, h.counter_eq]
      intro p hp q hq hpq
      obtain ⟨l, hl⟩ := hticket p hp
      obtain ⟨l', hl'⟩ := hticket q hq
      dsimp only at hpq
      rw [hpq] at hl
      exact h.injective p q _ l l' hl hl'
  obtain ⟨p, hp, rfl⟩ := Finset.mem_image.mp (himage.ge (Finset.mem_Icc.mpr ⟨hpos, hle⟩))
  obtain ⟨l, hl⟩ := hticket p hp
  exact ⟨p, l, hl⟩

end Invariant

/-! ## When everybody has started -/

section Everybody

variable [Fintype ι] {start step} {cells : ℕ → ν} {schedule : List ι} {s : State ι σ ν}

/-- The tickets of all processes are the numbers from one to the number of processes, each once. -/
theorem Invariant.tickets (h : Invariant start step cells schedule s) {ticket : ι → ℕ}
    (hall : ∀ p, ∃ l, s.procs p = some (ticket p, l)) :
    s.counter = Fintype.card ι ∧ Function.Injective ticket
      ∧ ∀ i, (∃ p, ticket p = i) ↔ 1 ≤ i ∧ i ≤ Fintype.card ι := by
  have hinj : Function.Injective ticket := by
    intro p q hpq
    obtain ⟨l, hp⟩ := hall p
    obtain ⟨l', hq⟩ := hall q
    exact h.injective p q (ticket p) l l' hp (hpq ▸ hq)
  have hcounter : s.counter = Fintype.card ι := by
    rw [h.counter_eq, ← Finset.card_univ]
    congr 1
    refine Finset.eq_univ_of_forall fun p ↦ List.mem_toFinset.mpr ?_
    by_contra hnot
    obtain ⟨l, hp⟩ := hall p
    rw [← h.started p, hp] at hnot
    exact absurd hnot (Option.some_ne_none _)
  refine ⟨hcounter, hinj, ?_⟩
  intro i
  rw [← hcounter]
  constructor
  · rintro ⟨p, rfl⟩
    obtain ⟨l, hp⟩ := hall p
    exact h.range p _ l hp
  · rintro ⟨hpos, hle⟩
    obtain ⟨p, l, hp⟩ := h.exists_owner hpos hle
    obtain ⟨l', hp'⟩ := hall p
    exact ⟨p, (Prod.mk.inj (Option.some.inj (hp'.symm.trans hp))).1⟩

end Everybody

end Tickets
