import Mathlib.Data.List.Basic
import Mathlib.Data.List.Induction

/-!
# Runs of a fallible step function

A program that processes a list of inputs one after the other, each step either giving the next
state or failing for good. A run is the fold of the step in `Except`, and what holds along runs is
proved from what one step keeps: `Run.induction` for the runs that get through, `Run.progress` for
programs whose possible failures are known.

Both rules carry the inputs processed so far, since invariants often speak about them. Where
instead the inputs are constrained by the state in which they arrive, `Along` says that they are at
every point of a run, and `Along.progress` is the rule for it.

## Output

Some programs always get through and put something out at each step. `collect` is the run of such a
step, and its two lemmas give the last state and the output after one more input.
-/

namespace Run

universe u

variable {α σ ε : Type*} {step : σ → α → Except ε σ} {init : σ}

theorem bind_eq_ok {β γ : Type u} {x : Except ε β} {f : β → Except ε γ} {c : γ} :
    (x >>= f) = .ok c ↔ ∃ b, x = .ok b ∧ f b = .ok c := by
  cases x with
  | error e =>
    constructor
    · intro h
      cases h
    · rintro ⟨b, h, -⟩
      exact absurd h (by simp)
  | ok b =>
    refine ⟨fun h ↦ ⟨b, rfl, h⟩, ?_⟩
    rintro ⟨b', h, h'⟩
    obtain rfl := Except.ok.inj h
    exact h'

theorem bind_eq_error {β γ : Type u} {x : Except ε β} {f : β → Except ε γ} {e : ε} :
    (x >>= f) = .error e ↔ x = .error e ∨ ∃ b, x = .ok b ∧ f b = .error e := by
  cases x with
  | error e' =>
    refine ⟨fun h ↦ Or.inl (by cases h; rfl), ?_⟩
    rintro (h | ⟨b, h, -⟩)
    · cases h
      rfl
    · exact absurd h (by simp)
  | ok b =>
    refine ⟨fun h ↦ Or.inr ⟨b, rfl, h⟩, ?_⟩
    rintro (h | ⟨b', h, h'⟩)
    · exact absurd h (by simp)
    · obtain rfl := Except.ok.inj h
      exact h'

@[simp] theorem mapError_eq_ok {ε' : Type*} {β : Type u} {x : Except ε β} {f : ε → ε'} {b : β} :
    x.mapError f = .ok b ↔ x = .ok b := by
  rcases x with _ | c
  · exact iff_of_false (by simp [Except.mapError]) (by simp)
  · exact ⟨fun h ↦ congrArg Except.ok (Except.ok.inj h),
      fun h ↦ congrArg Except.ok (Except.ok.inj h)⟩

@[simp] theorem foldlM_append_singleton (l : List α) (x : α) :
    (l ++ [x]).foldlM step init = l.foldlM step init >>= fun s ↦ step s x := by
  rw [List.foldlM_append]
  congr 1
  funext s
  rw [List.foldlM_cons]
  cases step s x <;> rfl

/-- A run that gets through got to every point of it. -/
theorem exists_of_isPrefix {l l' : List α} {s : σ} (h : l.foldlM step init = .ok s)
    (hl : l' <+: l) : ∃ s', l'.foldlM step init = .ok s' := by
  obtain ⟨rest, rfl⟩ := hl
  rw [List.foldlM_append, bind_eq_ok] at h
  obtain ⟨s', hs', -⟩ := h
  exact ⟨s', hs'⟩

/-- What one step keeps holds after every run that gets through. -/
theorem induction {P : List α → σ → Prop} {l : List α} {s : σ} (h : l.foldlM step init = .ok s)
    (hinit : P [] init)
    (hstep : ∀ l' x s s', l' ++ [x] <+: l → P l' s → step s x = .ok s' → P (l' ++ [x]) s') :
    P l s := by
  induction l using List.reverseRecOn generalizing s with
  | nil =>
    obtain rfl := Except.ok.inj h
    exact hinit
  | append_singleton l x ih =>
    rw [foldlM_append_singleton, bind_eq_ok] at h
    obtain ⟨s₀, h₀, hx⟩ := h
    have hP : P l s₀ := ih h₀ fun l' y s s' hpre ↦ hstep l' y s s' (hpre.trans ⟨[x], rfl⟩)
    exact hstep l x s₀ s (List.prefix_refl _) hP hx

/-- If every step from a good state either keeps it good or fails in a known way, then so does
every run. -/
theorem progress {P : List α → σ → Prop} {Q : ε → Prop} (l : List α) (hinit : P [] init)
    (hstep : ∀ l' x s, l' ++ [x] <+: l → P l' s →
      (∃ s', step s x = .ok s' ∧ P (l' ++ [x]) s') ∨ ∃ e, step s x = .error e ∧ Q e) :
    (∃ s, l.foldlM step init = .ok s ∧ P l s) ∨ ∃ e, l.foldlM step init = .error e ∧ Q e := by
  induction l using List.reverseRecOn with
  | nil => exact Or.inl ⟨init, rfl, hinit⟩
  | append_singleton l x ih =>
    rw [foldlM_append_singleton]
    rcases ih fun l' y s hpre ↦ hstep l' y s (hpre.trans ⟨[x], rfl⟩) with ⟨s, hs, hP⟩ | ⟨e, he, hQ⟩
    · rw [hs]
      exact hstep l x s (List.prefix_refl _) hP
    · rw [he]
      exact Or.inr ⟨e, rfl, hQ⟩

/-! ## Conditions along a run -/

/-- Every input satisfies `P` in the state in which it arrives. -/
def Along (step : σ → α → Except ε σ) (P : σ → α → Prop) : σ → List α → Prop
  | _, [] => True
  | s, x :: l => P s x ∧ match step s x with
    | .ok s' => Along step P s' l
    | .error _ => True

instance decidableAlong {P : σ → α → Prop} [∀ s x, Decidable (P s x)] :
    ∀ s l, Decidable (Along step P s l)
  | _, [] => inferInstanceAs (Decidable True)
  | s, x :: l =>
    have : Decidable (match step s x with
        | .ok s' => Along step P s' l
        | .error _ => True) :=
      match step s x with
      | .ok s' => decidableAlong s' l
      | .error _ => inferInstanceAs (Decidable True)
    inferInstanceAs (Decidable (_ ∧ _))

@[simp] theorem along_cons {P : σ → α → Prop} {s : σ} {x : α} {l : List α} :
    Along step P s (x :: l) ↔ P s x ∧ ∀ s', step s x = .ok s' → Along step P s' l := by
  rw [Along]
  cases step s x with
  | ok s' => simp
  | error e => simp

theorem Along.of_isPrefix {P : σ → α → Prop} {s : σ} {l l' : List α} (h : Along step P s l)
    (hl : l' <+: l) : Along step P s l' := by
  induction l' generalizing s l with
  | nil => exact trivial
  | cons x l' ih =>
    obtain ⟨rest, rfl⟩ := hl
    rw [List.cons_append, along_cons] at h
    exact along_cons.mpr ⟨h.1, fun s' hs' ↦ ih (h.2 s' hs') (List.prefix_append l' rest)⟩

theorem Along.and {P P' : σ → α → Prop} {s : σ} {l : List α} (h : Along step P s l)
    (h' : Along step P' s l) : Along step (fun s x ↦ P s x ∧ P' s x) s l := by
  induction l generalizing s with
  | nil => exact trivial
  | cons x l ih =>
    rw [along_cons] at h h' ⊢
    exact ⟨⟨h.1, h'.1⟩, fun s' hs' ↦ ih (h.2 s' hs') (h'.2 s' hs')⟩

theorem Along.append_singleton {P : σ → α → Prop} {s : σ} {l : List α} {x : α}
    (h : Along step P s l) (hlast : ∀ s', l.foldlM step s = .ok s' → P s' x) :
    Along step P s (l ++ [x]) := by
  induction l generalizing s with
  | nil => exact along_cons.mpr ⟨hlast s rfl, fun _ _ ↦ trivial⟩
  | cons y l ih =>
    rw [along_cons] at h
    rw [List.cons_append, along_cons]
    refine ⟨h.1, fun s₁ hs₁ ↦ ih (h.2 s₁ hs₁) fun s' hs' ↦ hlast s' ?_⟩
    rw [List.foldlM_cons, hs₁]
    exact hs'

theorem Along.last {P : σ → α → Prop} {s s' : σ} {l : List α} {x : α}
    (h : Along step P s (l ++ [x])) (hs' : l.foldlM step s = .ok s') : P s' x := by
  induction l generalizing s with
  | nil =>
    obtain rfl := Except.ok.inj hs'
    exact (along_cons.mp h).1
  | cons y l ih =>
    rw [List.foldlM_cons, bind_eq_ok] at hs'
    obtain ⟨s₁, hs₁, hs'⟩ := hs'
    rw [List.cons_append, along_cons] at h
    exact ih (h.2 s₁ hs₁) hs'

/-- As `induction`, for inputs that satisfy a condition in the state in which they arrive. -/
theorem Along.induction {P : σ → α → Prop} {I : List α → σ → Prop} {l : List α} {s : σ}
    (h : Along step P init l) (hrun : l.foldlM step init = .ok s) (hinit : I [] init)
    (hstep : ∀ l' x s s', I l' s → P s x → step s x = .ok s' → I (l' ++ [x]) s') : I l s := by
  refine (Run.induction (P := fun l' s ↦ l'.foldlM step init = .ok s ∧ I l' s) hrun
    ⟨rfl, hinit⟩ ?_).2
  rintro l' x s s' hpre ⟨hl', hI⟩ hx
  refine ⟨?_, hstep l' x s s' hI ((h.of_isPrefix hpre).last hl') hx⟩
  rw [foldlM_append_singleton, hl']
  exact hx

/-- As `progress`, for inputs that satisfy a condition in the state in which they arrive. -/
theorem Along.progress {P : σ → α → Prop} {I : σ → Prop} {Q : ε → Prop} {s : σ} {l : List α}
    (h : Along step P s l) (hinit : I s)
    (hstep : ∀ s x, I s → P s x →
      (∃ s', step s x = .ok s' ∧ I s') ∨ ∃ e, step s x = .error e ∧ Q e) :
    (∃ s', l.foldlM step s = .ok s' ∧ I s') ∨ ∃ e, l.foldlM step s = .error e ∧ Q e := by
  induction l generalizing s with
  | nil => exact Or.inl ⟨s, rfl, hinit⟩
  | cons x l ih =>
    rw [along_cons] at h
    rw [List.foldlM_cons]
    rcases hstep s x hinit h.1 with ⟨s', hs', hI⟩ | ⟨e, he, hQ⟩
    · rw [hs']
      exact ih (h.2 s' hs') hI
    · rw [he]
      exact Or.inr ⟨e, rfl, hQ⟩

/-! ## Runs with output

A step that always gets through and may put something out. -/

/-- The state after one step. -/
def next {β : Type*} (f : σ → α → σ × Option β) (s : σ) (x : α) : σ := (f s x).1

/-- The last state of a run and everything it has put out. -/
def collect {β : Type*} (f : σ → α → σ × Option β) (s : σ) (l : List α) : σ × List β :=
  l.foldl (fun t x ↦ ((f t.1 x).1, t.2 ++ (f t.1 x).2.toList)) (s, [])

section Collect

variable {β : Type*} (f : σ → α → σ × Option β) (s : σ) (l : List α) (x : α)

@[simp] theorem collect_append_singleton_fst :
    (collect f s (l ++ [x])).1 = (f (collect f s l).1 x).1 := by
  rw [collect, List.foldl_append, List.foldl_cons, List.foldl_nil, ← collect]

@[simp] theorem collect_append_singleton_snd :
    (collect f s (l ++ [x])).2 = (collect f s l).2 ++ (f (collect f s l).1 x).2.toList := by
  rw [collect, List.foldl_append, List.foldl_cons, List.foldl_nil, ← collect]

end Collect

end Run
