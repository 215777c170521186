import Mathlib.Order.Lattice
import Mathlib.Data.List.Basic
import Mathlib.Data.List.TakeWhile

/-!
# Ordered maps with node iterators

The associative container of the C++ standard library over a linearly ordered key type: a list of
key/value pairs in strictly increasing key order. Nodes are stable under insertion and removal of
other nodes, so an iterator is identified with the key of the node it points to, and the
past-the-end iterator is `none`.

The one operation with a possible failure is the loop

```text
for (iter = first; iter != last;) erase(iter++);
```

which is undefined when `last` is not reachable from `first`: the loop then runs into the
past-the-end position and erases there. `eraseRange` returns `none` exactly in that case.
`find?_eraseRange` says what the loop does between two lower bounds whenever it is defined, and
`exists_eraseRange` that it is defined when the bounds are in order.

## Reading a map

Two maps are equal when their nodes are, and a node is a key with its value, so everything about a
map can be said by `find?`. Insertion keeps a value that is there and assignment replaces it;
together they are the subscript operator.

## The erasing loop

The loop is first looked at as a function on lists of nodes: started at the first node of a final
segment it sees exactly that segment (`eraseEntries_append`), and from a lower bound on it runs over
the nodes that are not below the bound. With the bounds in order the nodes fall into three parts,
and the middle one is erased. With the bounds the wrong way round the loop starts behind its end,
and is defined only if there is no key between them (`exists_eraseRange_iff_of_lt`).
-/

namespace Container

variable {κ ν : Type*} [LinearOrder κ]

/-- A map as the list of its nodes, in strictly increasing key order. -/
structure OrderedMap (κ ν : Type*) [LinearOrder κ] where
  /-- The nodes in iteration order. -/
  entries : List (κ × ν)
  /-- Iteration order is key order, and keys are distinct. -/
  sorted : entries.Pairwise fun e f ↦ e.1 < f.1

namespace OrderedMap

/-! ## Lookup -/

/-- The value stored under a key in a list of nodes. -/
def lookup (k : κ) : List (κ × ν) → Option ν
  | [] => none
  | e :: rest => if e.1 = k then some e.2 else lookup k rest

/-- The value stored under a key. -/
def find? (m : OrderedMap κ ν) (k : κ) : Option ν := lookup k m.entries

/-- The map with no nodes. -/
def empty : OrderedMap κ ν := ⟨[], List.Pairwise.nil⟩

theorem lookup_eq_none_iff {k : κ} {l : List (κ × ν)} :
    lookup k l = none ↔ ∀ e ∈ l, e.1 ≠ k := by
  induction l with
  | nil => simp [lookup]
  | cons e rest ih =>
    rw [lookup]
    by_cases he : e.1 = k
    · simp [he]
    · simp [he, ih]

theorem lookup_eq_some_iff {k : κ} {v : ν} {l : List (κ × ν)}
    (h : l.Pairwise fun e f ↦ e.1 < f.1) : lookup k l = some v ↔ (k, v) ∈ l := by
  induction l with
  | nil => simp [lookup]
  | cons e rest ih =>
    obtain ⟨he, hrest⟩ := List.pairwise_cons.mp h
    rw [lookup, List.mem_cons]
    by_cases hk : e.1 = k
    · -- the rest has larger keys only
      have hnot : (k, v) ∉ rest := fun hmem ↦ (he (k, v) hmem).ne hk
      rw [if_pos hk, or_iff_left hnot, Option.some_inj, Prod.ext_iff]
      exact ⟨fun hv ↦ ⟨hk.symm, hv.symm⟩, fun hv ↦ hv.2.symm⟩
    · rw [if_neg hk, ih hrest, or_iff_right fun heq ↦ hk (by rw [← heq])]

@[simp] theorem mem_entries_iff {m : OrderedMap κ ν} {k : κ} {v : ν} :
    (k, v) ∈ m.entries ↔ m.find? k = some v :=
  (lookup_eq_some_iff m.sorted).symm

/-! ## Insertion and assignment -/

/-- Insertion into a sorted list of nodes; a node already there under the key stays. -/
def insertEntry (k : κ) (v : ν) : List (κ × ν) → List (κ × ν)
  | [] => [(k, v)]
  | e :: rest =>
    if k < e.1 then (k, v) :: e :: rest
    else if e.1 < k then e :: insertEntry k v rest
    else e :: rest

private theorem fst_of_mem_insertEntry {k : κ} {v : ν} {l : List (κ × ν)} {e : κ × ν}
    (h : e ∈ insertEntry k v l) : e.1 = k ∨ e ∈ l := by
  induction l with
  | nil => exact Or.inl (by rw [List.mem_singleton.mp h])
  | cons f rest ih =>
    rw [insertEntry] at h
    split_ifs at h with h₁ h₂
    · rcases List.mem_cons.mp h with rfl | h
      · exact Or.inl rfl
      · exact Or.inr h
    · rcases List.mem_cons.mp h with rfl | h
      · exact Or.inr List.mem_cons_self
      · exact (ih h).imp_right (List.mem_cons_of_mem f)
    · exact Or.inr h

private theorem pairwise_insertEntry {k : κ} {v : ν} {l : List (κ × ν)}
    (h : l.Pairwise fun e f ↦ e.1 < f.1) : (insertEntry k v l).Pairwise fun e f ↦ e.1 < f.1 := by
  induction l with
  | nil => exact List.pairwise_singleton _ _
  | cons e rest ih =>
    rw [insertEntry]
    obtain ⟨he, hrest⟩ := List.pairwise_cons.mp h
    split_ifs with h₁ h₂
    · refine List.pairwise_cons.mpr ⟨?_, h⟩
      intro f hf
      rcases List.mem_cons.mp hf with rfl | hf
      · exact h₁
      · exact h₁.trans (he f hf)
    · refine List.pairwise_cons.mpr ⟨?_, ih hrest⟩
      intro f hf
      rcases fst_of_mem_insertEntry hf with hk | hf
      · rw [hk]; exact h₂
      · exact he f hf
    · exact h

@[simp] theorem lookup_insertEntry {k k' : κ} {v : ν} {l : List (κ × ν)}
    (h : l.Pairwise fun e f ↦ e.1 < f.1) :
    lookup k' (insertEntry k v l)
      = if k' = k then some ((lookup k l).getD v) else lookup k' l := by
  induction l with
  | nil => simp [insertEntry, lookup, eq_comm]
  | cons e rest ih =>
    obtain ⟨he, hrest⟩ := List.pairwise_cons.mp h
    rcases lt_trichotomy k e.1 with hk | hk | hk
    · -- the new node goes in front: nothing in the list has its key
      have hnone : lookup k (e :: rest) = none := by
        rw [lookup_eq_none_iff]
        intro f hf
        rcases List.mem_cons.mp hf with rfl | hf
        · exact hk.ne'
        · exact (hk.trans (he f hf)).ne'
      rw [insertEntry, if_pos hk, lookup, hnone, Option.getD_none]
      simp only [eq_comm]
    · rw [insertEntry, if_neg hk.not_lt, if_neg hk.symm.not_lt]
      by_cases hk' : k' = k
      · rw [if_pos hk', hk', lookup, if_pos hk.symm, Option.getD_some]
      · rw [if_neg hk']
    · rw [insertEntry, if_neg hk.not_gt, if_pos hk, lookup, ih hrest]
      by_cases hk' : k' = k
      · rw [if_pos hk', if_pos hk', hk', if_neg hk.ne, lookup, if_neg hk.ne]
      · rw [if_neg hk', if_neg hk', lookup]

/-- Insertion with the flag of the library call: whether a node was created. -/
def insert (m : OrderedMap κ ν) (k : κ) (v : ν) : OrderedMap κ ν × Bool :=
  (⟨insertEntry k v m.entries, pairwise_insertEntry m.sorted⟩, (m.find? k).isNone)

@[simp] theorem find?_insert (m : OrderedMap κ ν) (k k' : κ) (v : ν) :
    (m.insert k v).1.find? k' = if k' = k then some ((m.find? k).getD v) else m.find? k' :=
  lookup_insertEntry m.sorted

@[simp] theorem insert_snd (m : OrderedMap κ ν) (k : κ) (v : ν) :
    (m.insert k v).2 = (m.find? k).isNone := rfl

/-- The nodes with the value under `k` replaced. -/
def assignEntry (k : κ) (v : ν) (l : List (κ × ν)) : List (κ × ν) :=
  l.map fun e ↦ (e.1, if e.1 = k then v else e.2)

@[simp] theorem lookup_assignEntry (k k' : κ) (v : ν) (l : List (κ × ν)) :
    lookup k' (assignEntry k v l)
      = if k' = k then (lookup k l).map fun _ ↦ v else lookup k' l := by
  induction l with
  | nil => simp [assignEntry, lookup]
  | cons e rest ih =>
    rw [assignEntry, List.map_cons, ← assignEntry, lookup, ih]
    by_cases hk : k' = k
    · subst hk
      by_cases he : e.1 = k'
      · simp [lookup, he]
      · simp [lookup, he]
    · rw [if_neg hk, if_neg hk, lookup]
      by_cases he : e.1 = k'
      · rw [if_pos he, if_pos he, if_neg fun h ↦ hk (he.symm.trans h)]
      · rw [if_neg he, if_neg he]

/-- Assignment through an iterator: the value of the node under `k`, if there is one. -/
def assign (m : OrderedMap κ ν) (k : κ) (v : ν) : OrderedMap κ ν :=
  ⟨assignEntry k v m.entries, List.pairwise_map.mpr m.sorted⟩

@[simp] theorem find?_assign (m : OrderedMap κ ν) (k k' : κ) (v : ν) :
    (m.assign k v).find? k' = if k' = k then (m.find? k).map fun _ ↦ v else m.find? k' :=
  lookup_assignEntry k k' v m.entries

/-! ## Range removal -/

/-- The iterator to the first node whose key is not below `k`. -/
def lowerBound (m : OrderedMap κ ν) (k : κ) : Option κ :=
  (m.entries.find? fun e ↦ ¬e.1 < k).map Prod.fst

/-- The erasing loop over the nodes from its current position on, up to the iterator `last`. -/
def eraseUntil (last : Option κ) : List (κ × ν) → Option (List (κ × ν))
  | [] => if last = none then some [] else none
  | e :: rest => if last = some e.1 then some (e :: rest) else eraseUntil last rest

private theorem sublist_of_eraseUntil {last : Option κ} {l l' : List (κ × ν)}
    (h : eraseUntil last l = some l') : l'.Sublist l := by
  induction l with
  | nil =>
    rw [eraseUntil] at h
    split_ifs at h with hlast
    rw [← Option.some.inj h]
  | cons e rest ih =>
    rw [eraseUntil] at h
    split_ifs at h with hlast
    · rw [← Option.some.inj h]
    · exact (ih h).trans (List.sublist_cons_self e rest)

/-- The nodes left by the loop from `first` to `last`: those before `first`, and whatever the loop
leaves of the others. -/
def eraseEntries (first last : Option κ) (l : List (κ × ν)) : Option (List (κ × ν)) :=
  (eraseUntil last (l.dropWhile fun e ↦ first ≠ some e.1)).map
    ((l.takeWhile fun e ↦ first ≠ some e.1) ++ ·)

private theorem sublist_of_eraseEntries {first last : Option κ} {l l' : List (κ × ν)}
    (h : eraseEntries first last l = some l') : l'.Sublist l := by
  rw [eraseEntries, Option.map_eq_some_iff] at h
  obtain ⟨rest, hrest, rfl⟩ := h
  conv_rhs =>
    rw [← List.takeWhile_append_dropWhile (p := fun e ↦ decide (first ≠ some e.1)) (l := l)]
  exact (List.Sublist.refl _).append (sublist_of_eraseUntil hrest)

/-- The erasing loop between two iterators. -/
def eraseRange (m : OrderedMap κ ν) (first last : Option κ) : Option (OrderedMap κ ν) :=
  (eraseEntries first last m.entries).attach.map fun l ↦
    ⟨l.1, m.sorted.sublist (sublist_of_eraseEntries l.2)⟩

/-! ### What the loop removes

Between two lower bounds the list falls into the nodes before the first bound, those up to the
second, and the rest. All three are `takeWhile`/`dropWhile` pieces, and sortedness is used once, to
know that past a lower bound every key is at least that bound. -/

private theorem not_lt_of_mem_dropWhile {l : List (κ × ν)} (hl : l.Pairwise fun e f ↦ e.1 < f.1)
    {k : κ} {e : κ × ν} (he : e ∈ l.dropWhile fun e ↦ e.1 < k) : ¬e.1 < k := by
  induction l with
  | nil => exact absurd he (by simp)
  | cons f rest ih =>
    obtain ⟨hf, hrest⟩ := List.pairwise_cons.mp hl
    by_cases hfk : f.1 < k
    · rw [List.dropWhile_cons_of_pos (by simpa using hfk)] at he
      exact ih hrest he
    · rw [List.dropWhile_cons_of_neg (by simpa using hfk)] at he
      rcases List.mem_cons.mp he with rfl | he
      · exact hfk
      · exact fun h ↦ hfk ((hf e he).trans h)

theorem lowerBound_eq (m : OrderedMap κ ν) (k : κ) :
    m.lowerBound k = (m.entries.dropWhile fun e ↦ e.1 < k).head?.map Prod.fst := by
  rw [lowerBound, ← List.find?_not_eq_head?_dropWhile]
  simp only [decide_not]

theorem eraseUntil_append {last : Option κ} {l₁ : List (κ × ν)} (l₂ : List (κ × ν))
    (h : ∀ e ∈ l₁, last ≠ some e.1) : eraseUntil last (l₁ ++ l₂) = eraseUntil last l₂ := by
  induction l₁ with
  | nil => rfl
  | cons e rest ih =>
    rw [List.cons_append, eraseUntil, if_neg (h e List.mem_cons_self),
      ih fun f hf ↦ h f (List.mem_cons_of_mem e hf)]

@[simp] theorem eraseUntil_head (l : List (κ × ν)) :
    eraseUntil (l.head?.map Prod.fst) l = some l := by
  cases l with
  | nil => rfl
  | cons e rest => exact if_pos rfl

private theorem eraseUntil_of_forall_ne {k : κ} {l : List (κ × ν)} (h : ∀ e ∈ l, e.1 ≠ k) :
    eraseUntil (some k) l = none := by
  have hne : ∀ e ∈ l, some k ≠ some e.1 := fun e he heq ↦ h e he (Option.some.inj heq).symm
  have happ := eraseUntil_append [] hne
  rwa [List.append_nil, eraseUntil, if_neg (Option.some_ne_none k)] at happ

theorem eraseEntries_append {last : Option κ} {l₁ l₂ : List (κ × ν)}
    (h : (l₁ ++ l₂).Pairwise fun e f ↦ e.1 < f.1) :
    eraseEntries (l₂.head?.map Prod.fst) last (l₁ ++ l₂)
      = (eraseUntil last l₂).map (l₁ ++ ·) := by
  have hne : ∀ e ∈ l₁, decide (l₂.head?.map Prod.fst ≠ some e.1) = true := by
    intro e he
    cases l₂ with
    | nil => simp
    | cons f rest =>
      have hlt : e.1 < f.1 := (List.pairwise_append.mp h).2.2 e he f List.mem_cons_self
      simpa using hlt.ne'
  have hstop : l₂.dropWhile (fun e ↦ decide (l₂.head?.map Prod.fst ≠ some e.1)) = l₂
      ∧ l₂.takeWhile (fun e ↦ decide (l₂.head?.map Prod.fst ≠ some e.1)) = [] := by
    cases l₂ <;> simp
  rw [eraseEntries, List.dropWhile_append_of_pos hne, List.takeWhile_append_of_pos hne, hstop.1,
    hstop.2, List.append_nil]

/-- From a lower bound on, the loop runs over the nodes that are not below it. -/
theorem eraseEntries_lowerBound {l : List (κ × ν)} (hl : l.Pairwise fun e f ↦ e.1 < f.1) (lo : κ)
    (last : Option κ) :
    eraseEntries ((l.dropWhile fun e ↦ e.1 < lo).head?.map Prod.fst) last l
      = (eraseUntil last (l.dropWhile fun e ↦ e.1 < lo)).map
        ((l.takeWhile fun e ↦ e.1 < lo) ++ ·) := by
  have hsplit : (l.takeWhile fun e ↦ e.1 < lo) ++ (l.dropWhile fun e ↦ e.1 < lo) = l :=
    List.takeWhile_append_dropWhile
  have happend := @eraseEntries_append κ ν _ last _ _ (hsplit.symm ▸ hl)
  rwa [hsplit] at happend

private theorem lt_of_mem_takeWhile {l : List (κ × ν)} {k : κ} {e : κ × ν}
    (he : e ∈ l.takeWhile fun e ↦ e.1 < k) : e.1 < k := by
  simpa using List.mem_takeWhile_imp he

theorem le_of_mem_dropWhile {l : List (κ × ν)} (hl : l.Pairwise fun e f ↦ e.1 < f.1) {k : κ}
    {e : κ × ν} (he : e ∈ l.dropWhile fun e ↦ e.1 < k) : k ≤ e.1 :=
  not_lt.mp (not_lt_of_mem_dropWhile hl he)

private theorem eraseEntries_of_le {l : List (κ × ν)} (hl : l.Pairwise fun e f ↦ e.1 < f.1)
    {lo hi : κ} (h : lo ≤ hi) :
    eraseEntries ((l.dropWhile fun e ↦ e.1 < lo).head?.map Prod.fst)
        ((l.dropWhile fun e ↦ e.1 < hi).head?.map Prod.fst) l
      = some (l.filter fun e ↦ ¬(lo ≤ e.1 ∧ e.1 < hi)) := by
  rw [eraseEntries_lowerBound hl]
  -- the entries before the first bound, between the two, and from the second on
  set A := l.takeWhile fun e ↦ e.1 < lo with hA
  set R := l.dropWhile fun e ↦ e.1 < lo with hR
  set B := R.takeWhile fun e ↦ e.1 < hi with hB
  set C := R.dropWhile fun e ↦ e.1 < hi with hC
  have hlA : l = A ++ R := List.takeWhile_append_dropWhile.symm
  have hRB : R = B ++ C := List.takeWhile_append_dropWhile.symm
  have hAlt : ∀ e ∈ A, e.1 < lo := fun e ↦ lt_of_mem_takeWhile
  have hBlt : ∀ e ∈ B, e.1 < hi := fun e ↦ lt_of_mem_takeWhile
  have hRle : ∀ e ∈ R, lo ≤ e.1 := fun e ↦ le_of_mem_dropWhile hl
  have hCle : ∀ e ∈ C, hi ≤ e.1 :=
    fun e ↦ le_of_mem_dropWhile (hl.sublist (List.dropWhile_sublist _))
  have hlast : (l.dropWhile fun e ↦ e.1 < hi) = C := by
    rw [hlA, List.dropWhile_append_of_pos fun e he ↦ by simpa using (hAlt e he).trans_le h]
  have hloop : eraseUntil (C.head?.map Prod.fst) R = some C := by
    rw [hRB, eraseUntil_append C fun e he heq ↦ ?_, eraseUntil_head]
    obtain ⟨f, hf, hfe⟩ := Option.map_eq_some_iff.mp heq
    exact absurd (hBlt e he) (not_lt.mpr (hfe ▸ hCle f (List.mem_of_mem_head? hf)))
  have hfilter : (l.filter fun e ↦ ¬(lo ≤ e.1 ∧ e.1 < hi)) = A ++ C := by
    rw [hlA, hRB, List.filter_append, List.filter_append]
    congr 1
    · refine List.filter_eq_self.mpr ?_
      intro e he
      simpa using Or.inl (hAlt e he)
    · rw [List.filter_eq_nil_iff.mpr fun e he ↦ ?_, List.nil_append]
      · refine List.filter_eq_self.mpr ?_
        intro e he
        simpa using Or.inr (hCle e he)
      · simpa using ⟨hRle e (hRB ▸ List.mem_append_left C he), hBlt e he⟩
  rw [hlast, hfilter, hloop, Option.map_some]

theorem dropWhile_eq_append {l : List (κ × ν)} (hl : l.Pairwise fun e f ↦ e.1 < f.1) {lo hi : κ}
    (h : hi < lo) :
    (l.dropWhile fun e ↦ e.1 < hi)
      = ((l.takeWhile fun e ↦ e.1 < lo).dropWhile fun e ↦ e.1 < hi)
        ++ l.dropWhile fun e ↦ e.1 < lo := by
  have hrest : ((l.dropWhile fun e ↦ e.1 < lo).dropWhile fun e ↦ e.1 < hi)
      = l.dropWhile fun e ↦ e.1 < lo := by
    cases hcase : l.dropWhile fun e ↦ e.1 < lo with
    | nil => rfl
    | cons f rest =>
      have hlo : lo ≤ f.1 := le_of_mem_dropWhile hl (hcase ▸ List.mem_cons_self)
      rw [List.dropWhile_cons_of_neg (by simpa using h.le.trans hlo)]
  conv_lhs => rw [← @List.takeWhile_append_dropWhile _ (fun e ↦ decide (e.1 < lo)) l]
  rw [List.dropWhile_append]
  split_ifs with hnil
  · rw [List.isEmpty_iff.mp hnil, List.nil_append, hrest]
  · rfl

/-- With the bounds the wrong way round the loop is defined only when it does nothing, which is when
there is no node between them. -/
theorem eraseEntries_of_lt {l : List (κ × ν)} (hl : l.Pairwise fun e f ↦ e.1 < f.1) {lo hi : κ}
    (h : hi < lo) :
    eraseEntries ((l.dropWhile fun e ↦ e.1 < lo).head?.map Prod.fst)
        ((l.dropWhile fun e ↦ e.1 < hi).head?.map Prod.fst) l
      = if ∀ e ∈ l, ¬(hi ≤ e.1 ∧ e.1 < lo) then some l else none := by
  rw [eraseEntries_lowerBound hl, dropWhile_eq_append hl h]
  set A := l.takeWhile fun e ↦ e.1 < lo with hA
  set R := l.dropWhile fun e ↦ e.1 < lo with hR
  have hlA : l = A ++ R := List.takeWhile_append_dropWhile.symm
  have hAlt : ∀ e ∈ A, e.1 < lo := fun e ↦ lt_of_mem_takeWhile
  have hRle : ∀ e ∈ R, lo ≤ e.1 := fun e ↦ le_of_mem_dropWhile hl
  cases hmid : A.dropWhile fun e ↦ e.1 < hi with
  | nil =>
    have hnone : ∀ e ∈ l, ¬(hi ≤ e.1 ∧ e.1 < lo) := by
      rintro e he ⟨hhi, hlo⟩
      rw [hlA] at he
      rcases List.mem_append.mp he with heA | heR
      · have hall := List.dropWhile_eq_nil_iff.mp hmid e heA
        exact absurd hhi (not_le.mpr (by simpa using hall))
      · exact absurd hlo (not_lt.mpr (hRle e heR))
    rw [List.nil_append, eraseUntil_head, Option.map_some, if_pos hnone, ← hlA]
  | cons f rest =>
    -- the second bound points before the first, so the loop never meets it
    have hfmem : f ∈ A.dropWhile fun e ↦ e.1 < hi := hmid ▸ List.mem_cons_self
    have hfA : f ∈ A := (List.dropWhile_sublist _).subset hfmem
    have hfhi : hi ≤ f.1 := le_of_mem_dropWhile (hl.sublist (List.takeWhile_sublist _)) hfmem
    have hnone : eraseUntil (some f.1) R = none :=
      eraseUntil_of_forall_ne fun e heR heq ↦ absurd (hAlt f hfA) (not_lt.mpr (heq ▸ hRle e heR))
    rw [List.cons_append, List.head?_cons, Option.map_some, hnone, Option.map_none, if_neg]
    intro hall
    exact hall f (hlA ▸ List.mem_append_left R hfA) ⟨hfhi, hAlt f hfA⟩

private theorem lookup_filter (p : κ → Prop) [DecidablePred p] (k : κ) (l : List (κ × ν)) :
    lookup k (l.filter fun e ↦ p e.1) = if p k then lookup k l else none := by
  induction l with
  | nil => simp [lookup]
  | cons e rest ih =>
    by_cases he : p e.1
    · rw [List.filter_cons_of_pos (by simpa using he), lookup, lookup, ih]
      by_cases hk : e.1 = k
      · rw [if_pos hk, if_pos hk, if_pos (hk ▸ he)]
      · rw [if_neg hk, if_neg hk]
    · rw [List.filter_cons_of_neg (by simpa using he), ih, lookup]
      by_cases hk : e.1 = k
      · rw [if_neg (hk ▸ he), if_neg (hk ▸ he)]
      · rw [if_neg hk]

/-- **Range removal.** Whenever the loop between the lower bounds of `lo` and `hi` is defined, it
removes exactly the keys from `lo` on and below `hi`. -/
theorem find?_eraseRange {m m' : OrderedMap κ ν} {lo hi : κ}
    (h : m.eraseRange (m.lowerBound lo) (m.lowerBound hi) = some m') (k : κ) :
    m'.find? k = if lo ≤ k ∧ k < hi then none else m.find? k := by
  rw [eraseRange, Option.map_eq_some_iff] at h
  obtain ⟨⟨l', hl'⟩, -, rfl⟩ := h
  change lookup k l' = if _ then none else lookup k m.entries
  rw [lowerBound_eq, lowerBound_eq] at hl'
  rcases le_or_gt lo hi with hle | hlt
  · rw [eraseEntries_of_le m.sorted hle] at hl'
    rw [← Option.some.inj hl', lookup_filter (fun j ↦ ¬(lo ≤ j ∧ j < hi)), ite_not]
  · rw [eraseEntries_of_lt m.sorted hlt] at hl'
    split_ifs at hl'
    rw [← Option.some.inj hl', if_neg fun hk ↦ absurd (hk.1.trans_lt hk.2) hlt.not_gt]

private theorem eraseRange_of_eraseEntries {m : OrderedMap κ ν} {first last : Option κ}
    {l : List (κ × ν)} (h : eraseEntries first last m.entries = some l) :
    m.eraseRange first last = some ⟨l, m.sorted.sublist (sublist_of_eraseEntries h)⟩ :=
  Option.map_eq_some_iff.mpr ⟨⟨l, h⟩, Option.mem_attach _ _, rfl⟩

theorem exists_eraseRange (m : OrderedMap κ ν) {lo hi : κ} (h : lo ≤ hi) :
    ∃ m', m.eraseRange (m.lowerBound lo) (m.lowerBound hi) = some m' := by
  have hdef := eraseEntries_of_le m.sorted h
  rw [← lowerBound_eq, ← lowerBound_eq] at hdef
  exact ⟨_, eraseRange_of_eraseEntries hdef⟩

/-- With the bounds the wrong way round the loop is defined if there is no key between them. -/
theorem exists_eraseRange_iff_of_lt (m : OrderedMap κ ν) {lo hi : κ} (h : hi < lo) :
    (∃ m', m.eraseRange (m.lowerBound lo) (m.lowerBound hi) = some m')
      ↔ ∀ k, hi ≤ k → k < lo → m.find? k = none := by
  have hdef := eraseEntries_of_lt m.sorted h
  rw [← lowerBound_eq, ← lowerBound_eq] at hdef
  constructor
  · rintro ⟨m', hm'⟩ k hhi hlo
    rw [eraseRange, Option.map_eq_some_iff] at hm'
    obtain ⟨⟨l', hl'⟩, -, -⟩ := hm'
    rw [hdef] at hl'
    split_ifs at hl' with hall
    refine lookup_eq_none_iff.mpr ?_
    rintro e he rfl
    exact hall e he ⟨hhi, hlo⟩
  · intro hnone
    rw [if_pos] at hdef
    · exact ⟨_, eraseRange_of_eraseEntries hdef⟩
    · rintro e he ⟨hhi, hlo⟩
      exact lookup_eq_none_iff.mp (hnone e.1 hhi hlo) e he rfl

end OrderedMap

end Container
