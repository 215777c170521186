import Mathlib.Data.Finset.Card
import Mathlib.Data.Finset.Dedup
import Mathlib.Data.List.Forall2

/-!
# The locking discipline of a shared location

What the lockset method observes of one memory location: a list of accesses in the order in which
they were made, each by a thread, each a read or a write, each under a set of locks. Nothing here
knows how accesses are represented; a `Discipline` reads the three observations off them.

A location is *racy* when several threads accessed it, one of the accesses was a write, and no lock
was held at all of them. `phase` is the coarse classification of a history by the first two of
these, `Evidence` what a detector can keep that remembers one access for each thread, and `Alarm`
the accesses at which the detector of this development looks at the lockset.

## Where the alarm is late

Entering the phase `sharedModified` is checked, and so is every later access of a thread that is
already known. An access that brings a *new* thread into a location already in that phase is not.
`Alarm` states this exactly; `Alarmed` says that one of the accesses so far raised it, which is
weaker than `Racy` in general.

## Evidence

The evidence for a history grows in three ways. An access of a new thread is added
(`Evidence.insert`), an access of a known thread takes the place of the one that is kept
(`Evidence.replace`), and a read of a known thread may be ignored (`Evidence.keep`). Whether the
location is shared, and whether it was written, can be read off the evidence, so a detector needs no
more than that for the phase.

## Late alarms

As long as there is a common lock nothing is racy. If the last one is lost at an access that is not
checked, and all later accesses are first accesses of their threads, then the history is racy and
nobody has noticed. `Late` is this condition, and a racy history is either alarmed or late. With
fewer locks a history that was alarmed stays alarmed, which is not obvious, since the accesses that
are checked are the same but the locks may be lost earlier.
-/

/-- The observations of the lockset method on accesses of type `ρ`. -/
structure Discipline (ρ τ ℓ : Type*) where
  /-- The accessing thread. -/
  thread : ρ → τ
  /-- Whether the access is a write. -/
  write : ρ → Bool
  /-- The locks held at the access. -/
  locks : ρ → Finset ℓ

namespace Discipline

variable {ρ τ ℓ : Type*} [DecidableEq τ] (M : Discipline ρ τ ℓ)

/-! ## Histories -/

/-- The threads of a history. -/
def threads (H : List ρ) : Finset τ := (H.map M.thread).toFinset

/-- Several threads took part. -/
def Shared (H : List ρ) : Prop := 1 < (M.threads H).card

/-- One of the accesses is a write. -/
def HasWrite (H : List ρ) : Prop := ∃ r ∈ H, M.write r = true

/-- The lock was held at every access. -/
def CommonLock (H : List ρ) (l : ℓ) : Prop := ∀ r ∈ H, l ∈ M.locks r

/-- The lockset condition fails: several threads, a write, and no lock held throughout. -/
def Racy (H : List ρ) : Prop := M.Shared H ∧ M.HasWrite H ∧ ∀ l, ¬M.CommonLock H l

instance (H : List ρ) : Decidable (M.Shared H) := inferInstanceAs (Decidable (_ < _))

instance (H : List ρ) : Decidable (M.HasWrite H) :=
  inferInstanceAs (Decidable (∃ r ∈ H, M.write r = true))

instance [DecidableEq ℓ] (H : List ρ) (l : ℓ) : Decidable (M.CommonLock H l) :=
  inferInstanceAs (Decidable (∀ r ∈ H, l ∈ M.locks r))

/-- The last write a thread made. -/
def latestWrite (H : List ρ) (t : τ) : Option ρ :=
  (H.filter fun r ↦ M.thread r = t ∧ M.write r = true).getLast?

variable {M} {H : List ρ} {r : ρ}

theorem mem_threads {t : τ} : t ∈ M.threads H ↔ ∃ r ∈ H, M.thread r = t := by
  rw [threads, List.mem_toFinset, List.mem_map]

@[simp] theorem threads_append_singleton :
    M.threads (H ++ [r]) = insert (M.thread r) (M.threads H) := by
  ext t
  rw [threads, List.mem_toFinset, List.map_append, List.mem_append, Finset.mem_insert, threads,
    List.mem_toFinset, or_comm, List.map_singleton, List.mem_singleton]

private theorem threads_append_of_mem (h : M.thread r ∈ M.threads H) :
    M.threads (H ++ [r]) = M.threads H := by
  rw [threads_append_singleton, Finset.insert_eq_of_mem h]

omit [DecidableEq τ] in
@[simp] theorem hasWrite_append_singleton :
    M.HasWrite (H ++ [r]) ↔ M.HasWrite H ∨ M.write r = true := by
  simp only [HasWrite, List.mem_append, List.mem_singleton]
  constructor
  · rintro ⟨x, hx | rfl, hw⟩
    · exact Or.inl ⟨x, hx, hw⟩
    · exact Or.inr hw
  · rintro (⟨x, hx, hw⟩ | hw)
    · exact ⟨x, Or.inl hx, hw⟩
    · exact ⟨r, Or.inr rfl, hw⟩

omit [DecidableEq τ] in
theorem commonLock_append_singleton {l : ℓ} :
    M.CommonLock (H ++ [r]) l ↔ M.CommonLock H l ∧ l ∈ M.locks r := by
  simp [CommonLock, or_imp, forall_and]

omit [DecidableEq τ] in
@[simp] theorem commonLock_cons {l : ℓ} :
    M.CommonLock (r :: H) l ↔ l ∈ M.locks r ∧ M.CommonLock H l := by
  simp [CommonLock]

omit [DecidableEq τ] in
theorem commonLock_perm {H' : List ρ} (h : H.Perm H') {l : ℓ} :
    M.CommonLock H l ↔ M.CommonLock H' l := by
  simp only [CommonLock, h.mem_iff]

theorem shared_and_hasWrite_iff :
    M.Shared H ∧ M.HasWrite H
      ↔ ∃ x ∈ H, ∃ y ∈ H, M.thread x ≠ M.thread y ∧ M.write x = true := by
  constructor
  · rintro ⟨hs, x, hx, hw⟩
    obtain ⟨t, ht, hne⟩ := Finset.exists_mem_ne hs (M.thread x)
    obtain ⟨y, hy, rfl⟩ := mem_threads.mp ht
    exact ⟨x, hx, y, hy, hne.symm, hw⟩
  · rintro ⟨x, hx, y, hy, hne, hw⟩
    refine ⟨Finset.one_lt_card.mpr ⟨M.thread x, ?_, M.thread y, ?_, hne⟩, x, hx, hw⟩
    · exact mem_threads.mpr ⟨x, hx, rfl⟩
    · exact mem_threads.mpr ⟨y, hy, rfl⟩

theorem shared_append_of_new (hH : H ≠ []) (h : M.thread r ∉ M.threads H) :
    M.Shared (H ++ [r]) := by
  obtain ⟨x, hx⟩ := List.exists_mem_of_ne_nil H hH
  have hpos : 0 < (M.threads H).card := Finset.card_pos.mpr ⟨_, mem_threads.mpr ⟨x, hx, rfl⟩⟩
  rw [Shared, threads_append_singleton, Finset.card_insert_of_notMem h]
  omega

theorem shared_append_of_mem (h : M.thread r ∈ M.threads H) :
    M.Shared (H ++ [r]) ↔ M.Shared H := by
  rw [Shared, Shared, threads_append_of_mem h]

theorem Shared.append (h : M.Shared H) : M.Shared (H ++ [r]) := by
  by_cases hr : M.thread r ∈ M.threads H
  · exact (shared_append_of_mem hr).mpr h
  · refine shared_append_of_new ?_ hr
    intro hnil
    subst hnil
    exact absurd h (by simp [Shared, threads])

theorem latestWrite_append_singleton {t : τ} :
    M.latestWrite (H ++ [r]) t
      = if M.thread r = t ∧ M.write r = true then some r else M.latestWrite H t := by
  rw [latestWrite, List.filter_append]
  split_ifs with h
  · rw [List.filter_cons_of_pos (by simpa using h), List.filter_nil, List.getLast?_concat]
  · rw [List.filter_cons_of_neg (by simpa using h), List.filter_nil, List.append_nil, latestWrite]

theorem latestWrite_eq_none (h : ¬M.HasWrite H) (t : τ) : M.latestWrite H t = none := by
  rw [latestWrite, List.getLast?_eq_none_iff, List.filter_eq_nil_iff]
  intro x hx hw
  exact h ⟨x, hx, (of_decide_eq_true hw).2⟩

private theorem exists_latestWrite (hr : r ∈ H) (hw : M.write r = true) :
    ∃ w, M.latestWrite H (M.thread r) = some w ∧ M.write w = true := by
  have hmem : r ∈ H.filter fun x ↦ M.thread x = M.thread r ∧ M.write x = true :=
    List.mem_filter.mpr ⟨hr, decide_eq_true ⟨rfl, hw⟩⟩
  have hne := List.ne_nil_of_mem hmem
  have hlast := (List.mem_filter.mp (List.getLast_mem hne)).2
  exact ⟨_, List.getLast?_eq_getLast_of_ne_nil hne, (of_decide_eq_true hlast).2⟩

/-! ## Phases -/

/-- The classification of a history by its threads and its writes. -/
inductive Phase
  /-- One thread, no write. -/
  | exclusiveRead
  /-- One thread, a write. -/
  | exclusiveWrite
  /-- Several threads, no write. -/
  | sharedRead
  /-- Several threads, a write. -/
  | sharedModified
  deriving DecidableEq

variable (M) in
/-- The phase a history is in. -/
def phase (H : List ρ) : Phase :=
  if M.Shared H then if M.HasWrite H then .sharedModified else .sharedRead
  else if M.HasWrite H then .exclusiveWrite else .exclusiveRead

theorem phase_eq_sharedModified : M.phase H = .sharedModified ↔ M.Shared H ∧ M.HasWrite H := by
  rw [phase]
  split_ifs with h₁ h₂ h₂ <;> simp [h₁, h₂]

/-! ## Evidence -/

variable (M) in
/-- One access for each thread of the history: the thread's latest write if it wrote. -/
structure Evidence (H S : List ρ) : Prop where
  /-- No thread is represented twice. -/
  nodup : (S.map M.thread).Nodup
  /-- The threads represented are those of the history. -/
  mem_iff : ∀ t, t ∈ S.map M.thread ↔ t ∈ M.threads H
  /-- Only accesses of the history are kept. -/
  subset : ∀ r ∈ S, r ∈ H
  /-- A thread that wrote is represented by its latest write. -/
  latest : ∀ r ∈ S, ∀ w, M.latestWrite H (M.thread r) = some w → r = w

namespace Evidence

variable {S S' : List ρ}

theorem singleton (M : Discipline ρ τ ℓ) (r : ρ) : M.Evidence [r] [r] where
  nodup := List.nodup_singleton _
  mem_iff t := by simp [mem_threads, eq_comm]
  subset x hx := hx
  latest x hx w hw := by
    rw [List.mem_singleton] at hx
    subst hx
    have hmem := List.mem_of_getLast? hw
    exact (List.mem_singleton.mp (List.mem_filter.mp hmem).1).symm

theorem perm (h : M.Evidence H S) (hS : S'.Perm S) : M.Evidence H S' where
  nodup := (hS.map M.thread).nodup_iff.mpr h.nodup
  mem_iff t := ((hS.map M.thread).mem_iff).trans (h.mem_iff t)
  subset x hx := h.subset x (hS.mem_iff.mp hx)
  latest x hx := h.latest x (hS.mem_iff.mp hx)

theorem length_eq (h : M.Evidence H S) : S.length = (M.threads H).card := by
  have hset : (S.map M.thread).toFinset = M.threads H := by
    ext t
    rw [List.mem_toFinset, h.mem_iff]
  rw [← hset, List.toFinset_card_of_nodup h.nodup, List.length_map]

/-- A thread of the history is represented by exactly one access. -/
theorem existsUnique (h : M.Evidence H S) {t : τ} (ht : t ∈ M.threads H) :
    ∃! x, x ∈ S ∧ M.thread x = t := by
  obtain ⟨x, hx, hxt⟩ := List.mem_map.mp ((h.mem_iff t).mpr ht)
  refine ⟨x, ⟨hx, hxt⟩, ?_⟩
  intro y hy
  exact List.inj_on_of_nodup_map h.nodup hy.1 hx (hy.2.trans hxt.symm)

theorem insert (h : M.Evidence H S) (hr : M.thread r ∉ M.threads H) :
    M.Evidence (H ++ [r]) (r :: S) where
  nodup := by
    rw [List.map_cons, List.nodup_cons, h.mem_iff]
    exact ⟨hr, h.nodup⟩
  mem_iff t := by
    rw [List.map_cons, List.mem_cons, h.mem_iff, threads_append_singleton, Finset.mem_insert]
  subset x hx := by
    rcases List.mem_cons.mp hx with rfl | hx
    · exact List.mem_append_right H (List.mem_singleton_self x)
    · exact List.mem_append_left _ (h.subset x hx)
  latest x hx w hw := by
    rw [latestWrite_append_singleton] at hw
    split_ifs at hw with hcase
    · rcases List.mem_cons.mp hx with rfl | hx
      · exact Option.some.inj hw
      · -- the kept accesses are of other threads
        exact absurd (hcase.1 ▸ (h.mem_iff _).mp (List.mem_map_of_mem hx)) hr
    · rcases List.mem_cons.mp hx with rfl | hx
      · have hmem := (List.mem_filter.mp (List.mem_of_getLast? hw)).1
        have hthread := (of_decide_eq_true
          (List.mem_filter.mp (List.mem_of_getLast? hw)).2).1
        exact absurd (mem_threads.mpr ⟨w, hmem, hthread⟩) hr
      · exact h.latest x hx w hw

/-- The access kept for a thread is replaced by a newer one of the same thread, which must be a
write unless the thread never wrote. -/
theorem replace {old : ρ} (h : M.Evidence H (old :: S)) (hold : M.thread old = M.thread r)
    (hw : M.write r = true ∨ M.latestWrite H (M.thread r) = none) :
    M.Evidence (H ++ [r]) (r :: S) where
  nodup := by
    have hnodup := h.nodup
    rwa [List.map_cons, hold] at hnodup
  mem_iff t := by
    have hmem : M.thread r ∈ M.threads H := hold ▸ (h.mem_iff _).mp List.mem_cons_self
    rw [threads_append_of_mem hmem, ← h.mem_iff, List.map_cons, List.map_cons, hold]
  subset x hx := by
    rcases List.mem_cons.mp hx with rfl | hx
    · exact List.mem_append_right H (List.mem_singleton_self x)
    · exact List.mem_append_left _ (h.subset x (List.mem_cons_of_mem old hx))
  latest x hx w hlw := by
    rw [latestWrite_append_singleton] at hlw
    split_ifs at hlw with hcase
    · rcases List.mem_cons.mp hx with rfl | hx
      · exact Option.some.inj hlw
      · -- `old` was the only access kept for this thread
        have hnot := (List.nodup_cons.mp h.nodup).1
        exact absurd (List.mem_map.mpr ⟨x, hx, hcase.1.symm.trans hold.symm⟩) hnot
    · rcases List.mem_cons.mp hx with rfl | hx
      · rcases hw with hw | hnone
        · exact absurd ⟨rfl, hw⟩ hcase
        · rw [hnone] at hlw
          exact absurd hlw (by simp)
      · exact h.latest x (List.mem_cons_of_mem old hx) w hlw

theorem keep (h : M.Evidence H S) (hr : M.thread r ∈ M.threads H) (hw : M.write r = false) :
    M.Evidence (H ++ [r]) S where
  nodup := h.nodup
  mem_iff t := by rw [h.mem_iff, threads_append_of_mem hr]
  subset x hx := List.mem_append_left _ (h.subset x hx)
  latest x hx w hlw := by
    rw [latestWrite_append_singleton, if_neg (by simp [hw])] at hlw
    exact h.latest x hx w hlw

/-- Evidence for a shared and modified history contains a conflicting pair: the representative of
a thread that wrote is a write, and there is another thread. -/
theorem exists_conflict (h : M.Evidence H S) (hs : M.Shared H) (hw : M.HasWrite H) :
    ∃ x ∈ S, ∃ y ∈ S, M.thread x ≠ M.thread y ∧ (M.write x = true ∨ M.write y = true) := by
  obtain ⟨w, hwH, hww⟩ := hw
  obtain ⟨w', hlast, hw'⟩ := exists_latestWrite hwH hww
  have hwt : M.thread w ∈ M.threads H := mem_threads.mpr ⟨w, hwH, rfl⟩
  obtain ⟨x, ⟨hx, hxt⟩, -⟩ := h.existsUnique hwt
  have hxw : M.write x = true := by
    rw [h.latest x hx w' (hxt ▸ hlast)]
    exact hw'
  obtain ⟨t, ht, hne⟩ := Finset.exists_mem_ne hs (M.thread w)
  obtain ⟨y, ⟨hy, hyt⟩, -⟩ := h.existsUnique ht
  exact ⟨x, hx, y, hy, by rw [hxt, hyt]; exact hne.symm, Or.inl hxw⟩

end Evidence

/-! ## Alarms -/

variable (M) in
/-- The access `r` after the history `H` makes the detector find the location racy. -/
def Alarm (H : List ρ) (r : ρ) : Prop :=
  M.Racy (H ++ [r]) ∧ (M.Shared H → M.HasWrite H → M.thread r ∈ M.threads H)

variable (M) in
/-- Some access of the history raised the alarm. -/
def Alarmed (H : List ρ) : Prop := ∃ H₁ r H₂, H = H₁ ++ r :: H₂ ∧ M.Alarm H₁ r

@[simp] theorem not_alarmed_singleton (r : ρ) : ¬M.Alarmed [r] := by
  rintro ⟨H₁, x, H₂, heq, halarm⟩
  have hshared := halarm.1.1
  cases H₁ with
  | nil => exact absurd hshared (by simp [Shared, threads])
  | cons y ys => simp at heq

theorem alarmed_append_singleton : M.Alarmed (H ++ [r]) ↔ M.Alarmed H ∨ M.Alarm H r := by
  constructor
  · rintro ⟨H₁, x, H₂, heq, halarm⟩
    rcases List.eq_nil_or_concat H₂ with rfl | ⟨H₃, y, rfl⟩
    · obtain ⟨rfl, hrx⟩ := List.append_inj' heq rfl
      rw [List.cons.inj hrx |>.1]
      exact Or.inr halarm
    · rw [List.concat_eq_append, ← List.cons_append, ← List.append_assoc] at heq
      exact Or.inl ⟨H₁, x, H₃, (List.append_inj' heq rfl).1, halarm⟩
  · rintro (⟨H₁, x, H₂, rfl, halarm⟩ | halarm)
    · exact ⟨H₁, x, H₂ ++ [r], by simp, halarm⟩
    · exact ⟨H, r, [], rfl, halarm⟩

/-! ## Missed races

A racy history without an alarm has a simple shape. The access that takes the last common lock away
must be of a new thread, at a location that several threads had already accessed and modified, and
so must be every access after it. -/

theorem Racy.append (h : M.Racy H) : M.Racy (H ++ [r]) :=
  ⟨h.1.append, hasWrite_append_singleton.mpr (Or.inl h.2.1), fun l hl ↦
    h.2.2 l (commonLock_append_singleton.mp hl).1⟩

variable (M) in
/-- Every access of `H₂`, coming after `H₁`, is the first of its thread. -/
def Newcomers (H₁ H₂ : List ρ) : Prop :=
  ∀ A r B, H₂ = A ++ r :: B → M.thread r ∉ M.threads (H₁ ++ A)

@[simp] theorem newcomers_nil (H₁ : List ρ) : M.Newcomers H₁ [] := fun A r B h ↦ by simp at h

theorem newcomers_append_singleton {H₁ H₂ : List ρ} :
    M.Newcomers H₁ (H₂ ++ [r]) ↔ M.Newcomers H₁ H₂ ∧ M.thread r ∉ M.threads (H₁ ++ H₂) := by
  constructor
  · intro h
    exact ⟨fun A x B hsplit ↦ h A x (B ++ [r]) (by simp [hsplit]), h H₂ r [] rfl⟩
  · rintro ⟨h, hr⟩ A x B hsplit
    rcases List.eq_nil_or_concat B with rfl | ⟨B', y, rfl⟩
    · obtain ⟨rfl, hxr⟩ := List.append_inj' hsplit rfl
      rwa [← (List.cons.inj hxr).1]
    · rw [List.concat_eq_append, ← List.cons_append, ← List.append_assoc] at hsplit
      exact h A x B' (List.append_inj' hsplit rfl).1

variable (M) in
/-- The history falls into a part that is shared and modified but still has a common lock, and
first accesses of threads. -/
def Late (H : List ρ) : Prop :=
  ∃ H₁ H₂, H = H₁ ++ H₂ ∧ M.Shared H₁ ∧ M.HasWrite H₁ ∧ (∃ l, M.CommonLock H₁ l)
    ∧ M.Newcomers H₁ H₂

private theorem Shared.append_right (h : M.Shared H) (H' : List ρ) : M.Shared (H ++ H') := by
  induction H' using List.reverseRecOn with
  | nil => rwa [List.append_nil]
  | append_singleton H' x ih =>
    rw [← List.append_assoc]
    exact ih.append

theorem Alarmed.racy (h : M.Alarmed H) : M.Racy H := by
  obtain ⟨H₁, x, H₂, rfl, hracy, -⟩ := h
  induction H₂ using List.reverseRecOn with
  | nil => exact hracy
  | append_singleton H₂ y ih =>
    rw [← List.cons_append, ← List.append_assoc]
    exact ih.append

theorem Late.shared (h : M.Late H) : M.Shared H := by
  obtain ⟨H₁, H₂, rfl, hs, -⟩ := h
  exact hs.append_right H₂

private theorem Late.hasWrite (h : M.Late H) : M.HasWrite H := by
  obtain ⟨H₁, H₂, rfl, -, ⟨w, hw, hww⟩, -⟩ := h
  exact ⟨w, List.mem_append_left H₂ hw, hww⟩

/-- While there is a common lock, late only means shared and modified. -/
theorem late_iff_of_not_racy (h : ¬M.Racy H) : M.Late H ↔ M.Shared H ∧ M.HasWrite H := by
  refine ⟨fun hlate ↦ ⟨hlate.shared, hlate.hasWrite⟩, ?_⟩
  rintro ⟨hs, hw⟩
  have hcommon : ∃ l, M.CommonLock H l := by
    by_contra hno
    exact h ⟨hs, hw, fun l hl ↦ hno ⟨l, hl⟩⟩
  exact ⟨H, [], by rw [List.append_nil], hs, hw, hcommon, newcomers_nil H⟩

theorem late_append_singleton (h : M.Racy (H ++ [r])) :
    M.Late (H ++ [r]) ↔ M.Late H ∧ M.thread r ∉ M.threads H := by
  constructor
  · rintro ⟨H₁, H₂, hsplit, hs, hw, hl, hnew⟩
    rcases List.eq_nil_or_concat H₂ with rfl | ⟨H₃, y, rfl⟩
    · obtain ⟨l, hl⟩ := hl
      rw [List.append_nil] at hsplit
      exact absurd (hsplit ▸ hl) (h.2.2 l)
    · rw [List.concat_eq_append, ← List.append_assoc] at hsplit
      obtain ⟨rfl, hry⟩ := List.append_inj' hsplit rfl
      rw [List.concat_eq_append, newcomers_append_singleton, ← (List.cons.inj hry).1] at hnew
      exact ⟨⟨H₁, H₃, rfl, hs, hw, hl, hnew.1⟩, hnew.2⟩
  · rintro ⟨⟨H₁, H₂, rfl, hs, hw, hl, hnew⟩, hr⟩
    exact ⟨H₁, H₂ ++ [r], by rw [List.append_assoc], hs, hw, hl,
      newcomers_append_singleton.mpr ⟨hnew, hr⟩⟩

/-- **Missed races.** A racy history raised no alarm exactly if it is late. -/
theorem not_alarmed_iff_late (h : M.Racy H) : ¬M.Alarmed H ↔ M.Late H := by
  induction H using List.reverseRecOn with
  | nil => exact absurd h.1 (by simp [Shared, threads])
  | append_singleton H r ih =>
    have halarm : ¬M.Alarm H r ↔ M.Shared H ∧ M.HasWrite H ∧ M.thread r ∉ M.threads H := by
      simp [Alarm, h]
    rw [alarmed_append_singleton, not_or, late_append_singleton h, halarm]
    by_cases hH : M.Racy H
    · -- the race is older than `r`
      rw [ih hH]
      exact ⟨fun hl ↦ ⟨hl.1, hl.2.2.2⟩, fun hl ↦ ⟨hl.1, hH.1, hH.2.1, hl.2⟩⟩
    · -- the race is completed by `r`
      rw [late_iff_of_not_racy hH, and_assoc]
      exact and_iff_right fun halarmed ↦ hH halarmed.racy

/-! ## Fewer locks

Two histories of the same accesses, each under fewer locks in the second. The phases are the same,
so that the alarm can only come earlier. -/

variable (M) in
/-- The same access, under fewer locks. -/
structure Fewer (r r' : ρ) : Prop where
  /-- By the same thread. -/
  thread : M.thread r' = M.thread r
  /-- Of the same kind. -/
  write : M.write r' = M.write r
  /-- Under no other locks. -/
  locks : M.locks r' ⊆ M.locks r

section Fewer

variable {H' : List ρ} {r' : ρ}

theorem exists_append_of_forall₂ {α β : Type*} {R : α → β → Prop} {l₁ l₂ : List α} {u : List β}
    (h : List.Forall₂ R (l₁ ++ l₂) u) :
    ∃ u₁ u₂, u = u₁ ++ u₂ ∧ List.Forall₂ R l₁ u₁ ∧ List.Forall₂ R l₂ u₂ := by
  induction l₁ generalizing u with
  | nil => exact ⟨[], u, rfl, List.Forall₂.nil, h⟩
  | cons x l₁ ih =>
    obtain ⟨y, u', hxy, hu', rfl⟩ := List.forall₂_cons_left_iff.mp h
    obtain ⟨u₁, u₂, rfl, h₁, h₂⟩ := ih hu'
    exact ⟨y :: u₁, u₂, rfl, List.Forall₂.cons hxy h₁, h₂⟩

private theorem threads_eq_of_fewer (h : List.Forall₂ M.Fewer H H') :
    M.threads H' = M.threads H := by
  induction h with
  | nil => rfl
  | cons hr h ih =>
    rw [threads, threads] at ih
    rw [threads, threads, List.map_cons, List.map_cons, List.toFinset_cons, List.toFinset_cons, ih,
      hr.thread]

omit [DecidableEq τ] in
private theorem hasWrite_iff_of_fewer (h : List.Forall₂ M.Fewer H H') :
    M.HasWrite H' ↔ M.HasWrite H := by
  induction h with
  | nil => rfl
  | cons hr h ih =>
    rw [HasWrite, HasWrite] at ih
    simp only [HasWrite, List.exists_mem_cons_iff, hr.write, ih]

omit [DecidableEq τ] in
theorem CommonLock.of_fewer (h : List.Forall₂ M.Fewer H H') {l : ℓ} (hl : M.CommonLock H' l) :
    M.CommonLock H l := by
  induction h with
  | nil => exact hl
  | cons hr h ih =>
    rw [commonLock_cons] at hl ⊢
    exact ⟨hr.locks hl.1, ih hl.2⟩

theorem Racy.of_fewer (h : List.Forall₂ M.Fewer H H') (hracy : M.Racy H) : M.Racy H' := by
  refine ⟨?_, (hasWrite_iff_of_fewer h).mpr hracy.2.1, fun l hl ↦ hracy.2.2 l (hl.of_fewer h)⟩
  rw [Shared, threads_eq_of_fewer h]
  exact hracy.1

theorem Alarm.of_fewer (h : List.Forall₂ M.Fewer H H') (hr : M.Fewer r r') (halarm : M.Alarm H r) :
    M.Alarm H' r' := by
  refine ⟨halarm.1.of_fewer (List.rel_append h (List.Forall₂.cons hr List.Forall₂.nil)), ?_⟩
  rw [Shared, threads_eq_of_fewer h, hasWrite_iff_of_fewer h, hr.thread]
  exact halarm.2

theorem Alarmed.of_fewer (h : List.Forall₂ M.Fewer H H') (halarmed : M.Alarmed H) :
    M.Alarmed H' := by
  obtain ⟨H₁, r, H₂, rfl, halarm⟩ := halarmed
  obtain ⟨H₁', u, rfl, h₁, hu⟩ := exists_append_of_forall₂ h
  obtain ⟨r', H₂', hr, h₂, rfl⟩ := List.forall₂_cons_left_iff.mp hu
  exact ⟨H₁', r', H₂', rfl, halarm.of_fewer h₁ hr⟩

end Fewer

end Discipline
