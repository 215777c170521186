import Mathlib.Data.Multiset.AddSub
import Mathlib.Data.List.Basic
import Mathlib.Data.List.Infix

/-!
# Bounded bags with swap removal

A bag kept in a fixed array: members sit in front, in the order of a list; a new member goes to the
end if there is room and is dropped otherwise; a member is removed by moving the last one into its
place. Dropping makes the bag an incomplete account of what was put in, and removing something that
was dropped is no operation at all. It never counts more than the client holds, and once the two
agree they agree as long as the client holds no more than there is room for.

A client that releases everything it acquires is a *settled* sequence of calls, in any order and
with repetitions. Two results say what it leaves behind. On top of members it does not touch it
leaves nothing, full or not (`execAll_append_of_settles`). On top of one more slot, whose content
`g` it may happen to use itself, it leaves that slot alone unless it was refused room for `g`; then
the slot is taken for its own and is gone afterwards (`execAll_stale`).

## Reading a bag against its client

`hold` is what the client of a bag has acquired and not released, a multiset that never drops
anything. The bag is compared with it call by call. `exec_le_hold` holds in every run.
`exec_eq_hold` needs room at the call, and carries over runs as `execAll_eq_holdAll`. Neither says
anything about the order of the members, which removal by the last member keeps changing; this is
why all statements about the contents are up to permutation.

## Settled clients

For a settled client the count of members with a property is an invariant that does not depend on
the calls in between (`countP_exec`), which is what gives both results on what such a client leaves
behind.
-/

namespace Container

variable {α : Type*} [DecidableEq α]

/-! ## Operations -/

/-- A new member at the end, dropped when there are already `c`. -/
def push (c : ℕ) (l : List α) (x : α) : List α := if l.length < c then l ++ [x] else l

/-- Removal of the first occurrence, whose place the last member takes. -/
def swapRemove (l : List α) (x : α) : List α :=
  if x ∈ l then (l.set (l.idxOf x) (l.getLastD x)).dropLast else l

/-- A call of a client. -/
inductive Call (α : Type*)
  | add (x : α)
  | remove (x : α)
  deriving DecidableEq

/-- The object of a call. -/
def Call.arg : Call α → α
  | .add x => x
  | .remove x => x

/-- One call on a bag of capacity `c`. -/
def exec (c : ℕ) (l : List α) : Call α → List α
  | .add x => push c l x
  | .remove x => swapRemove l x

/-- A sequence of calls. -/
def execAll (c : ℕ) (l : List α) (w : List (Call α)) : List α := w.foldl (exec c) l

/-- What a client holds after a call. -/
def Call.hold (held : Multiset α) : Call α → Multiset α
  | .add x => x ::ₘ held
  | .remove x => held.erase x

/-- What it holds after a sequence of calls. -/
def holdAll (held : Multiset α) (w : List (Call α)) : Multiset α := w.foldl Call.hold held

/-- From the objects in `held`, every removal is of an object held, and nothing is held at the
end. -/
def Settles (held : Multiset α) : List (Call α) → Prop
  | [] => held = 0
  | .add x :: w => Settles (x ::ₘ held) w
  | .remove x :: w => x ∈ held ∧ Settles (held.erase x) w

instance decidableSettles : ∀ (held : Multiset α) (w : List (Call α)), Decidable (Settles held w)
  | held, [] => inferInstanceAs (Decidable (held = 0))
  | held, .add x :: w => decidableSettles (x ::ₘ held) w
  | held, .remove x :: w =>
    have := decidableSettles (held.erase x) w
    inferInstanceAs (Decidable (_ ∧ _))

/-- Everything acquired is released. -/
def Balanced (w : List (Call α)) : Prop := Settles 0 w

instance (w : List (Call α)) : Decidable (Balanced w) := decidableSettles 0 w

/-- Some call adds `g` and finds no room. -/
def Refused (g : α) (c : ℕ) : List α → List (Call α) → Prop
  | _, [] => False
  | l, call :: w => (call = .add g ∧ ¬l.length < c) ∨ Refused g c (exec c l call) w

instance decidableRefused (g : α) (c : ℕ) :
    ∀ (l : List α) (w : List (Call α)), Decidable (Refused g c l w)
  | _, [] => inferInstanceAs (Decidable False)
  | l, call :: w =>
    have := decidableRefused g c (exec c l call) w
    inferInstanceAs (Decidable ((_ ∧ _) ∨ _))

/-! ## Swap removal -/

section SwapRemove

variable {l base : List α} {x : α}

theorem swapRemove_of_not_mem (h : x ∉ l) : swapRemove l x = l := if_neg h

private theorem swapRemove_append_of_not_mem (h : x ∉ base) :
    swapRemove (base ++ l) x = base ++ swapRemove l x := by
  by_cases hx : x ∈ l
  · have hne : l ≠ [] := List.ne_nil_of_mem hx
    have hidx : (base ++ l).idxOf x = base.length + l.idxOf x := List.idxOf_append_of_notMem h
    have hset : (base ++ l).set (base.length + l.idxOf x) ((base ++ l).getLastD x)
        = base ++ l.set (l.idxOf x) ((base ++ l).getLastD x) := by
      rw [List.set_append_right _ _ (Nat.le_add_right _ _), Nat.add_sub_cancel_left]
    have hlast : (base ++ l).getLastD x = l.getLastD x := by
      rw [List.getLastD_eq_getLast?, List.getLastD_eq_getLast?,
        List.getLast?_append_of_ne_nil _ hne]
    rw [swapRemove, swapRemove, if_pos (List.mem_append_right base hx), if_pos hx, hidx, hset,
      hlast, List.dropLast_append_of_ne_nil]
    exact fun hnil ↦ hne ((List.set_eq_nil_iff _ _).mp hnil)
  · have hnot : x ∉ base ++ l := fun hmem ↦ (List.mem_append.mp hmem).elim h hx
    rw [swapRemove_of_not_mem hnot, swapRemove_of_not_mem hx]

theorem swapRemove_append_singleton (h : x ∉ base) : swapRemove (base ++ [x]) x = base := by
  rw [swapRemove_append_of_not_mem h]
  simp [swapRemove]

theorem swapRemove_append_cons_append {mid : List α} {y : α} (h : x ∉ base) :
    swapRemove (base ++ x :: mid ++ [y]) x = base ++ y :: mid := by
  rw [List.append_assoc, swapRemove_append_of_not_mem h]
  have hmem : x ∈ x :: mid ++ [y] := by simp
  rw [swapRemove, if_pos hmem, List.cons_append, List.idxOf_cons_self, List.set_cons_zero]
  have hlast : (x :: (mid ++ [y])).getLastD x = y := by
    rw [List.getLastD_eq_getLast?, ← List.cons_append, List.getLast?_concat, Option.getD_some]
  rw [hlast, ← List.cons_append, List.dropLast_concat]

omit [DecidableEq α] in
theorem exists_split_of_mem (h : x ∈ l) :
    ∃ base, x ∉ base ∧ (l = base ++ [x] ∨ ∃ mid y, l = base ++ x :: mid ++ [y]) := by
  obtain ⟨base, tail, rfl, hbase⟩ := List.eq_append_cons_of_mem h
  refine ⟨base, hbase, ?_⟩
  rcases List.eq_nil_or_concat tail with rfl | ⟨mid, y, rfl⟩
  · exact Or.inl rfl
  · exact Or.inr ⟨mid, y, by rw [List.append_assoc, List.cons_append, List.concat_eq_append]⟩

theorem swapRemove_perm_erase (l : List α) (x : α) : (swapRemove l x).Perm (l.erase x) := by
  by_cases hx : x ∈ l
  · obtain ⟨base, hbase, rfl | ⟨mid, y, rfl⟩⟩ := exists_split_of_mem hx
    · rw [swapRemove_append_singleton hbase, List.erase_append_right _ hbase]
      simp
    · rw [swapRemove_append_cons_append hbase, List.append_assoc, List.erase_append_right _ hbase,
        List.cons_append, List.erase_cons_head]
      exact (List.perm_append_singleton y mid).symm.append_left base
  · rw [swapRemove_of_not_mem hx, List.erase_of_not_mem hx]

@[simp] theorem coe_swapRemove (l : List α) (x : α) :
    (swapRemove l x : Multiset α) = (l : Multiset α).erase x := by
  rw [Multiset.coe_erase]
  exact Multiset.coe_eq_coe.mpr (swapRemove_perm_erase l x)

end SwapRemove

/-! ## Calls on top of untouched members -/

section Exec

variable {c : ℕ} {l base : List α} {x g : α} {held : Multiset α} {call : Call α} {w : List (Call α)}

omit [DecidableEq α] in
theorem push_append (c : ℕ) (base l : List α) (x : α) :
    push c (base ++ l) x = base ++ push (c - base.length) l x := by
  rw [push, push, List.length_append]
  by_cases h : base.length + l.length < c
  · rw [if_pos h, if_pos (by omega), List.append_assoc]
  · rw [if_neg h, if_neg (by omega)]

theorem mem_of_mem_exec (h : x ∈ exec c l call) : x ∈ l ∨ x = call.arg := by
  cases call with
  | add y =>
    rw [exec, push] at h
    split_ifs at h
    · exact (List.mem_append.mp h).imp_right List.mem_singleton.mp
    · exact Or.inl h
  | remove y => exact Or.inl (List.mem_of_mem_erase ((swapRemove_perm_erase l y).mem_iff.mp h))

/-- A bag becomes empty by removal of its only member, or was empty and had nothing added. -/
theorem eq_singleton_or_nil_of_exec_eq_nil (h : exec c l call = []) (hc : 0 < c) :
    call = .remove call.arg ∧ (l = [call.arg] ∨ l = []) := by
  cases call with
  | add y =>
    rw [exec, push] at h
    split_ifs at h with hroom
    · exact absurd h (List.append_ne_nil_of_right_ne_nil l (List.cons_ne_nil y []))
    · rw [h] at hroom
      exact absurd hc hroom
  | remove y =>
    refine ⟨rfl, ?_⟩
    have herase : l.erase y = [] := List.Perm.eq_nil (h ▸ (swapRemove_perm_erase l y).symm)
    rcases List.erase_eq_nil_iff.mp herase with hnil | hsingle
    · exact Or.inr hnil
    · exact Or.inl hsingle

theorem exec_append (h : call.arg ∉ base) :
    exec c (base ++ l) call = base ++ exec (c - base.length) l call := by
  cases call with
  | add x => exact push_append c base l x
  | remove x => exact swapRemove_append_of_not_mem h

@[simp] theorem execAll_cons : execAll c l (call :: w) = execAll c (exec c l call) w := rfl

theorem execAll_append (h : ∀ call ∈ w, call.arg ∉ base) :
    execAll c (base ++ l) w = base ++ execAll (c - base.length) l w := by
  induction w generalizing l with
  | nil => rfl
  | cons call w ih =>
    rw [execAll_cons, execAll_cons, exec_append (h call List.mem_cons_self),
      ih fun call' hcall ↦ h call' (List.mem_cons_of_mem call hcall)]

theorem countP_exec {p : α → Bool} (h : ¬p call.arg) : (exec c l call).countP p = l.countP p := by
  cases call with
  | add y =>
    rw [exec, push]
    split_ifs
    · have hy : ¬p y := h
      rw [List.countP_append, List.countP_singleton, if_neg hy, Nat.add_zero]
    · rfl
  | remove y =>
    rw [exec, (swapRemove_perm_erase l y).countP_eq, List.countP_erase, if_neg, Nat.sub_zero]
    exact fun hy ↦ h hy.2

theorem countP_execAll {p : α → Bool} (h : ∀ call ∈ w, ¬p call.arg) :
    (execAll c l w).countP p = l.countP p := by
  induction w generalizing l with
  | nil => rfl
  | cons call w ih =>
    rw [execAll_cons, ih fun call' hcall ↦ h call' (List.mem_cons_of_mem call hcall),
      countP_exec (h call List.mem_cons_self)]

omit [DecidableEq α] in
@[simp] theorem push_perm_iff : (push c l x).Perm l ↔ ¬l.length < c := by
  rw [push]
  split_ifs with hroom
  · refine iff_of_false (fun hperm ↦ ?_) (not_not_intro hroom)
    have hlen := hperm.length_eq
    rw [List.length_append, List.length_singleton] at hlen
    omega
  · exact iff_of_true (List.Perm.refl l) hroom

@[simp] theorem swapRemove_perm_iff : (swapRemove l x).Perm l ↔ x ∉ l := by
  constructor
  · intro hperm hmem
    have hlen := ((swapRemove_perm_erase l x).symm.trans hperm).length_eq
    rw [List.length_erase_of_mem hmem] at hlen
    have hpos := List.length_pos_of_mem hmem
    omega
  · intro hmem
    rw [swapRemove_of_not_mem hmem]

/-! ## What a settled sequence leaves behind -/

omit [DecidableEq α] in
@[simp] theorem coe_append_singleton (l : List α) (x : α) :
    ((l ++ [x] : List α) : Multiset α) = x ::ₘ (l : Multiset α) :=
  Multiset.coe_eq_coe.mpr (List.perm_append_singleton x l)

omit [DecidableEq α] in
theorem coe_push_le (h : (l : Multiset α) ≤ held) : (push c l x : Multiset α) ≤ x ::ₘ held := by
  rw [push]
  split_ifs
  · rw [coe_append_singleton]
    exact Multiset.cons_le_cons x h
  · exact h.trans (Multiset.le_cons_self held x)

/-- A bag counts no more than its client holds, whatever the client does. -/
theorem exec_le_hold (h : (l : Multiset α) ≤ held) (call : Call α) :
    (exec c l call : Multiset α) ≤ call.hold held := by
  cases call with
  | add x => exact coe_push_le h
  | remove x =>
    rw [exec, coe_swapRemove]
    exact Multiset.erase_le_erase x h

theorem execAll_le_holdAll (h : (l : Multiset α) ≤ held) (w : List (Call α)) :
    (execAll c l w : Multiset α) ≤ holdAll held w := by
  induction w generalizing l held with
  | nil => exact h
  | cons call w ih => exact ih (exec_le_hold h call)

theorem exec_eq_hold (h : (l : Multiset α) = held) {call : Call α}
    (hcard : (call.hold held).card ≤ c) : (exec c l call : Multiset α) = call.hold held := by
  cases call with
  | add x =>
    have hroom : l.length < c := by
      rw [Call.hold, ← h, Multiset.card_cons, Multiset.coe_card] at hcard
      omega
    rw [exec, push, if_pos hroom, coe_append_singleton, h]
    rfl
  | remove x =>
    rw [exec, coe_swapRemove, h]
    rfl

/-- Once they agree, they agree as long as the client holds no more than there is room for. -/
theorem execAll_eq_holdAll (h : (l : Multiset α) = held) {w : List (Call α)}
    (hcard : ∀ w', w' <+: w → (holdAll held w').card ≤ c) :
    (execAll c l w : Multiset α) = holdAll held w := by
  induction w generalizing l held with
  | nil => exact h
  | cons call w ih =>
    have hfirst : (call.hold held).card ≤ c := hcard [call] (List.prefix_append [call] w)
    refine ih (exec_eq_hold h hfirst) ?_
    intro w' hw'
    exact hcard (call :: w') (List.cons_prefix_cons.mpr ⟨rfl, hw'⟩)

/-- A bag that holds no more than its client does is empty once the client has let go. -/
theorem execAll_eq_nil_of_settles (hl : (l : Multiset α) ≤ held) (hw : Settles held w) :
    execAll c l w = [] := by
  induction w generalizing l held with
  | nil =>
    rw [show held = 0 from hw] at hl
    exact (Multiset.coe_eq_zero l).mp (Multiset.le_zero.mp hl)
  | cons call w ih =>
    have hle := @exec_le_hold α _ c l held hl call
    cases call with
    | add x => exact ih hle hw
    | remove x => exact ih hle hw.2

theorem execAll_append_of_settles (hbase : ∀ call ∈ w, call.arg ∉ base) (hw : Balanced w) :
    execAll c base w = base := by
  have hnil : execAll (c - base.length) [] w = [] :=
    execAll_eq_nil_of_settles (Multiset.zero_le 0) hw
  have h := @execAll_append _ _ c [] base w hbase
  rwa [List.append_nil, hnil, List.append_nil] at h

@[simp] theorem refused_nil (g : α) (c : ℕ) (l : List α) : ¬Refused g c l [] := not_false

@[simp] theorem refused_cons : Refused g c l (call :: w)
    ↔ (call = .add g ∧ ¬l.length < c) ∨ Refused g c (exec c l call) w :=
  Iff.rfl

/-- One more slot than the client holds, of content `g`: it stays as long as every addition of `g`
finds room. -/
theorem execAll_eq_of_count (hl : (l : Multiset α) ≤ g ::ₘ held)
    (hcount : (l : Multiset α).count g = held.count g + 1) (hw : Settles held w) :
    execAll c l w = if Refused g c l w then [] else [g] := by
  induction w generalizing l held with
  | nil =>
    rw [show held = 0 from hw] at hl hcount
    have hsingle : (l : Multiset α) = {g} := by
      refine (Multiset.le_singleton.mp hl).resolve_left ?_
      intro hzero
      rw [hzero] at hcount
      simp at hcount
    rw [if_neg (refused_nil g c l)]
    exact Multiset.coe_eq_singleton.mp hsingle
  | cons call w ih =>
    rw [execAll_cons]
    by_cases hrefused : call = .add g ∧ ¬l.length < c
    · obtain ⟨rfl, hfull⟩ := hrefused
      rw [if_pos (refused_cons.mpr (Or.inl ⟨rfl, hfull⟩)), exec, push, if_neg hfull]
      -- the refused object is held but not counted, so the slot passes for it from here on
      exact execAll_eq_nil_of_settles hl hw
    · rw [if_congr (refused_cons.trans (or_iff_right hrefused)) rfl rfl]
      cases call with
      | add x =>
        refine ih ?_ ?_ hw
        · rw [Multiset.cons_swap]
          exact coe_push_le hl
        · rw [exec, push]
          split_ifs with hroom
          · rw [coe_append_singleton, Multiset.count_cons, Multiset.count_cons, hcount]
            omega
          · have hne : g ≠ x := fun heq ↦ hrefused ⟨heq ▸ rfl, hroom⟩
            rw [hcount, Multiset.count_cons_of_ne hne]
      | remove x =>
        obtain ⟨hx, hw⟩ := hw
        refine ih ?_ ?_ hw
        · rw [exec, coe_swapRemove, ← Multiset.erase_cons_tail_of_mem hx]
          exact Multiset.erase_le_erase x hl
        · rw [exec, coe_swapRemove]
          by_cases hxg : g = x
          · subst hxg
            have hpos : 0 < held.count g := Multiset.count_pos.mpr hx
            rw [Multiset.count_erase_self, Multiset.count_erase_self, hcount]
            omega
          · rw [Multiset.count_erase_of_ne hxg, Multiset.count_erase_of_ne hxg, hcount]

theorem execAll_stale (hbase : ∀ call ∈ w, call.arg ∉ base) (hw : Balanced w) :
    execAll c (base ++ [g]) w
      = base ++ if Refused g (c - base.length) [g] w then [] else [g] := by
  have hle : (([g] : List α) : Multiset α) ≤ g ::ₘ 0 := by simp
  have hcount : (([g] : List α) : Multiset α).count g = (0 : Multiset α).count g + 1 := by simp
  rw [execAll_append hbase, execAll_eq_of_count hle hcount hw]

theorem Balanced.exists_add (hw : Balanced w) (hne : w ≠ []) : ∃ x w', w = .add x :: w' := by
  match w, hw with
  | [], _ => exact absurd rfl hne
  | .add x :: w', _ => exact ⟨x, w', rfl⟩
  | .remove x :: w', hw => exact absurd hw.1 (Multiset.notMem_zero x)

end Exec

end Container
