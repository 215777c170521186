import Mathlib.Algebra.Group.Action.Defs

/-!
# Runs that halt

A process that works through a list of inputs and halts at the first one it cannot get over. Unlike
the runs of `Racez.Transition.Run` it leaves something behind when it halts: what it has done to
files by then stays done.

Often such a process looks only at a part of the state that it does not change. A *view* of the
state then picks an effect, and effects act on the state and leave the view alone. A run of such
steps is one such step (`run_perform`), whose effect is the product of theirs.

## Using it

A program is brought into this form once: for each of its functions a view, an effect that is
computed from the view, and a proof that the effect does not change the view. From then on runs of
any length, and runs of runs, are products of effects. What holds of the effects of the steps and is
kept by products holds of the effect of a run (`effects_induction`), and a run that halts has a step
that does (`exists_of_effects_snd_eq_some`).
-/

namespace Halting

variable {σ α ε : Type*}

/-! ## Runs -/

/-- The state that is left behind, and why the process has halted if it has. -/
def run (step : σ → α → σ × Option ε) : σ → List α → σ × Option ε
  | s, [] => (s, none)
  | s, x :: l =>
    match step s x with
    | (s', some e) => (s', some e)
    | (s', none) => run step s' l

section Run

variable {step : σ → α → σ × Option ε} {s : σ} {x : α} {l : List α}

@[simp] theorem run_nil : run step s [] = (s, none) := rfl

private theorem run_cons_of_some {e : ε} (h : (step s x).2 = some e) :
    run step s (x :: l) = step s x := by
  rw [run]
  split
  · next h' => rw [h']
  · next h' => exact absurd (h.symm.trans (congrArg Prod.snd h')) (by simp)

private theorem run_cons_of_none (h : (step s x).2 = none) :
    run step s (x :: l) = run step (step s x).1 l := by
  rw [run]
  split
  · next h' => exact absurd (h.symm.trans (congrArg Prod.snd h')) (by simp)
  · next h' => rw [h']

end Run

/-! ## Effects -/

section Effects

variable {M ν : Type*} [Monoid M]

/-- The effect of a run: the product of the effects of the steps up to the one that halts it. -/
def effects (effect : α → ν → M × Option ε) : List α → ν → M × Option ε
  | [], _ => (1, none)
  | x :: l, v =>
    match effect x v with
    | (m, some e) => (m, some e)
    | (m, none) => ((effects effect l v).1 * m, (effects effect l v).2)

section

variable {effect : α → ν → M × Option ε} {x : α} {l : List α} {v : ν}

private theorem effects_cons_of_some {e : ε} (h : (effect x v).2 = some e) :
    effects effect (x :: l) v = effect x v := by
  rw [effects]
  split
  · next h' => rw [h']
  · next h' => exact absurd (h.symm.trans (congrArg Prod.snd h')) (by simp)

theorem effects_cons_of_none (h : (effect x v).2 = none) :
    effects effect (x :: l) v
      = ((effects effect l v).1 * (effect x v).1, (effects effect l v).2) := by
  rw [effects]
  split
  · next h' => exact absurd (h.symm.trans (congrArg Prod.snd h')) (by simp)
  · next h' => rw [h']

/-- What holds of the effects of the steps and is kept by products holds of the effect of a run. -/
theorem effects_induction {P : M → Prop} (hone : P 1) (hmul : ∀ m n, P m → P n → P (m * n))
    (h : ∀ x ∈ l, P (effect x v).1) : P (effects effect l v).1 := by
  induction l with
  | nil => exact hone
  | cons x l ih =>
    have hx : P (effect x v).1 := h x List.mem_cons_self
    rcases hfault : (effect x v).2 with _ | e
    · rw [effects_cons_of_none hfault]
      exact hmul _ _ (ih fun y hy ↦ h y (List.mem_cons_of_mem x hy)) hx
    · rwa [effects_cons_of_some hfault]

@[simp] theorem effects_snd_eq_none_iff :
    (effects effect l v).2 = none ↔ ∀ x ∈ l, (effect x v).2 = none := by
  induction l with
  | nil => simp [effects]
  | cons x l ih =>
    rw [List.forall_mem_cons]
    rcases hfault : (effect x v).2 with _ | e
    · rw [effects_cons_of_none hfault, ih]
      simp
    · rw [effects_cons_of_some hfault, hfault]
      simp

/-- A run halts for a reason one of its steps has. -/
theorem exists_of_effects_snd_eq_some {e : ε} (h : (effects effect l v).2 = some e) :
    ∃ x ∈ l, (effect x v).2 = some e := by
  induction l with
  | nil => exact absurd h nofun
  | cons x l ih =>
    rcases hfault : (effect x v).2 with _ | e'
    · rw [effects_cons_of_none hfault] at h
      obtain ⟨y, hy, he⟩ := ih h
      exact ⟨y, List.mem_cons_of_mem x hy, he⟩
    · rw [effects_cons_of_some hfault] at h
      exact ⟨x, List.mem_cons_self, h⟩

@[simp] theorem effects_map {β : Type*} (g : β → α) (l : List β) :
    effects effect (l.map g) v = effects (fun y ↦ effect (g y)) l v := by
  induction l with
  | nil => rfl
  | cons y l ih => rw [List.map_cons, effects, effects, ih]

theorem effects_append (h : ∀ x ∈ l, (effect x v).2 = none) (m : List α) :
    effects effect (l ++ m) v
      = ((effects effect m v).1 * (effects effect l v).1, (effects effect m v).2) := by
  induction l with
  | nil => simp [effects]
  | cons x l ih =>
    obtain ⟨hx, hl⟩ := List.forall_mem_cons.mp h
    rw [List.cons_append, effects_cons_of_none hx, effects_cons_of_none hx, ih hl, mul_assoc]

end

/-! ## Steps that depend on a view -/

variable [MulAction M σ] (view : σ → ν)

/-- The step whose effect is picked by the view. -/
def perform (effect : ν → M × Option ε) (s : σ) : σ × Option ε :=
  ((effect (view s)).1 • s, (effect (view s)).2)

variable {view} (hview : ∀ (m : M) (s : σ), view (m • s) = view s)

include hview

/-- **A run of such steps is such a step.** -/
theorem run_perform (effect : α → ν → M × Option ε) (s : σ) (l : List α) :
    run (fun s x ↦ perform view (effect x) s) s l = perform view (effects effect l) s := by
  induction l generalizing s with
  | nil => simp [perform, effects]
  | cons x l ih =>
    rcases h : (effect x (view s)).2 with _ | e
    · rw [run_cons_of_none h, ih, perform, perform, perform, hview, effects_cons_of_none h,
        mul_smul]
    · rw [run_cons_of_some h, perform, perform, effects_cons_of_some h]

end Effects

end Halting
