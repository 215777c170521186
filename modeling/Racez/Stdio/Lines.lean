import Mathlib.Data.List.TakeWhile
import Mathlib.Data.List.Infix
import Mathlib.Data.List.Lex
import Mathlib.Data.Int.Order.Basic
import Mathlib.Data.Char
import Mathlib.Tactic.SplitIfs

/-!
# Reading text by pieces

`fgets` into a buffer of fixed size takes a line, or as much of it as the buffer holds. A program
that calls it until it fails sees the text as a list of pieces, `fgetsAll`. When every line fits the
pieces are the lines (`fgetsAll_joinLines`); a line that does not fit is cut, and every later piece
is then one place further on than its line (`fgetsAll_cons_of_le`).

A character stands for a byte.

## Pieces

A call of `fgets` splits the text: nothing is lost, and a newline is the last character taken.
`fgetsAll` is defined by repeating it, so everything about pieces is an induction on calls. For
texts that are made of lines the first call takes the first line if it fits, and fills the room if
not. The results that later modules use say what the piece at a position is: a line as long as all
lines up to it fit (`getElem?_fgetsAll_of_fits`), and the beginning of one at the first that does
not.

## Terminators

`fgets` does not stop at a terminator, but everything that looks at the buffer afterwards does.
`cString` is what they see. A line that holds a terminator is therefore read whole and looks
shorter.

`strcmp` is a function whose results have the right signs and nothing else is known of, so a result
holds for every implementation.
-/

namespace Stdio

/-! ## C strings -/

/-- What a buffer holds as a C string: everything before the terminator. -/
def cString (buffer : List Char) : List Char := buffer.takeWhile (· ≠ '\x00')

theorem cString_eq_self {s : List Char} (h : '\x00' ∉ s) : cString s = s := by
  rw [cString, List.takeWhile_eq_self_iff]
  intro c hc
  simpa using ne_of_mem_of_not_mem hc h

theorem cString_concat {l : List Char} (h : '\x00' ∉ l) : cString (l ++ ['\n']) = l ++ ['\n'] := by
  refine cString_eq_self ?_
  rw [List.mem_append]
  rintro (h' | h')
  · exact h h'
  · exact absurd h' (by decide)

theorem notMem_cString (s : List Char) : '\x00' ∉ cString s := by
  intro h
  simpa using List.mem_takeWhile_imp h

/-- A C string without terminator in it starts a buffer exactly when it starts the buffer's
string. -/
theorem isPrefix_cString_iff {s t : List Char} (h : '\x00' ∉ s) : s <+: cString t ↔ s <+: t := by
  constructor
  · exact fun hs ↦ hs.trans (List.takeWhile_prefix _)
  · rintro ⟨u, rfl⟩
    rw [cString, List.takeWhile_append_of_pos]
    · exact List.prefix_append _ _
    · intro c hc
      simpa using ne_of_mem_of_not_mem hc h

/-- `strchr`: the text before the first such character, and the text after it. -/
def strchr (c : Char) (s : List Char) : Option (List Char × List Char) :=
  if c ∈ s then some (s.takeWhile (· ≠ c), (s.dropWhile (· ≠ c)).tail) else none

theorem strchr_append {c : Char} {s : List Char} (h : c ∉ s) (t : List Char) :
    strchr c (s ++ c :: t) = some (s, t) := by
  have hs : ∀ d ∈ s, decide (d ≠ c) = true := by
    intro d hd
    simpa using ne_of_mem_of_not_mem hd h
  rw [strchr, if_pos (by simp), List.takeWhile_append_of_pos hs, List.dropWhile_append_of_pos hs,
    List.takeWhile_cons_of_neg (by simp), List.dropWhile_cons_of_neg (by simp), List.append_nil,
    List.tail_cons]

theorem eq_append_of_strchr {c : Char} {s w t : List Char} (h : strchr c s = some (w, t)) :
    s = w ++ c :: t ∧ c ∉ w := by
  rw [strchr] at h
  split_ifs at h with hc
  obtain ⟨rfl, rfl⟩ := Prod.mk.inj (Option.some.inj h)
  have hhead : s.dropWhile (· ≠ c) = c :: (s.dropWhile (· ≠ c)).tail := by
    obtain ⟨a, u, ha⟩ : ∃ a u, s.dropWhile (· ≠ c) = a :: u := by
      refine List.exists_cons_of_ne_nil fun hnil ↦ ?_
      exact absurd (List.dropWhile_eq_nil_iff.mp hnil c hc) (by simp)
    have hne : ¬decide (a ≠ c) = true := by
      have hnot := List.head?_dropWhile_not (fun d ↦ decide (d ≠ c)) s
      rw [ha] at hnot
      simpa using hnot
    obtain rfl : a = c := by simpa using hne
    rw [ha, List.tail_cons]
  refine ⟨?_, fun hmem ↦ absurd (List.mem_takeWhile_imp hmem) (by simp)⟩
  rw [← hhead, List.takeWhile_append_dropWhile]

/-- `strcmp`. The C standard fixes the sign of the result and nothing else. -/
structure Strcmp where
  /-- The result, of which only the sign is specified. -/
  compare : List Char → List Char → ℤ
  /-- It is positive if the first string comes later. -/
  pos_iff : ∀ s t, 0 < compare s t ↔ cString t < cString s
  /-- It is negative if the first string comes earlier. -/
  neg_iff : ∀ s t, compare s t < 0 ↔ cString s < cString t

theorem Strcmp.compare_eq_zero_iff (strcmp : Strcmp) {s t : List Char} :
    strcmp.compare s t = 0 ↔ cString s = cString t := by
  constructor
  · intro h
    have hpos : ¬cString t < cString s := fun hlt ↦ ((strcmp.pos_iff s t).mpr hlt).ne' h
    have hneg : ¬cString s < cString t := fun hlt ↦ ((strcmp.neg_iff s t).mpr hlt).ne h
    exact le_antisymm (not_lt.mp hpos) (not_lt.mp hneg)
  · intro h
    have hpos : ¬0 < strcmp.compare s t := fun hlt ↦ ((strcmp.pos_iff s t).mp hlt).ne' h
    have hneg : ¬strcmp.compare s t < 0 := fun hlt ↦ ((strcmp.neg_iff s t).mp hlt).ne h
    exact le_antisymm (not_lt.mp hpos) (not_lt.mp hneg)

/-- The `strcmp` whose results are -1, 0 and 1. -/
def Strcmp.sign : Strcmp where
  compare s t := if cString s < cString t then -1 else if cString t < cString s then 1 else 0
  pos_iff s t := by
    split_ifs with h₁ h₂
    · simpa using h₁.le
    · simpa using h₂
    · simpa using h₂
  neg_iff s t := by
    split_ifs with h₁ h₂
    · simpa using h₁
    · simpa using h₂.le
    · simpa using h₁

/-! ## One call -/

/-- What `fgets` takes when there is room for some characters, and what it leaves. -/
def fgets : ℕ → List Char → List Char × List Char
  | 0, s => ([], s)
  | _ + 1, [] => ([], [])
  | room + 1, c :: s =>
    if c = '\n' then ([c], s) else (c :: (fgets room s).1, (fgets room s).2)

/-- Nothing is lost. -/
@[simp] theorem fgets_append (room : ℕ) (s : List Char) :
    (fgets room s).1 ++ (fgets room s).2 = s := by
  fun_induction fgets room s with
  | case1 s => rfl
  | case2 room => rfl
  | case3 room s => rfl
  | case4 room c s hc ih => rw [List.cons_append, ih]

theorem fgets_fst_ne_nil {room : ℕ} {s : List Char} (hroom : 0 < room) (hs : s ≠ []) :
    (fgets room s).1 ≠ [] := by
  obtain ⟨room, rfl⟩ := Nat.exists_eq_succ_of_ne_zero hroom.ne'
  obtain ⟨c, s, rfl⟩ := List.exists_cons_of_ne_nil hs
  rw [fgets]
  split
  · exact List.cons_ne_nil _ _
  · exact List.cons_ne_nil _ _

theorem length_fgets_snd_lt {room : ℕ} {s : List Char} (hs : s ≠ []) (hroom : 0 < room) :
    (fgets room s).2.length < s.length := by
  have hpos : 0 < (fgets room s).1.length := List.length_pos_iff.mpr (fgets_fst_ne_nil hroom hs)
  have hadd := congrArg List.length (fgets_append room s)
  rw [List.length_append] at hadd
  omega

theorem fgets_of_lt {l : List Char} {room : ℕ} (hl : '\n' ∉ l) (hroom : l.length < room)
    (s : List Char) : fgets room (l ++ '\n' :: s) = (l ++ ['\n'], s) := by
  induction l generalizing room with
  | nil =>
    obtain ⟨room, rfl⟩ := Nat.exists_eq_succ_of_ne_zero (Nat.ne_of_gt hroom)
    simp [fgets]
  | cons c l ih =>
    obtain ⟨room, rfl⟩ := Nat.exists_eq_succ_of_ne_zero (Nat.ne_of_gt (Nat.zero_lt_of_lt hroom))
    have hc : c ≠ '\n' := fun h ↦ hl (h ▸ List.mem_cons_self)
    rw [List.cons_append, fgets, if_neg hc,
      ih (fun h ↦ hl (List.mem_cons_of_mem _ h)) (Nat.lt_of_succ_lt_succ hroom)]
    rfl

private theorem fgets_of_le {l : List Char} {room : ℕ} (hl : '\n' ∉ l) (hroom : room ≤ l.length)
    (s : List Char) : fgets room (l ++ s) = (l.take room, l.drop room ++ s) := by
  induction l generalizing room with
  | nil =>
    obtain rfl : room = 0 := Nat.le_zero.mp hroom
    simp [fgets]
  | cons c l ih =>
    cases room with
    | zero => simp [fgets]
    | succ room =>
      have hc : c ≠ '\n' := fun h ↦ hl (h ▸ List.mem_cons_self)
      rw [List.cons_append, fgets, if_neg hc,
        ih (fun h ↦ hl (List.mem_cons_of_mem _ h)) (Nat.le_of_succ_le_succ hroom)]
      rfl

theorem fgets_of_notMem {s : List Char} {room : ℕ} (hs : '\n' ∉ s) (hroom : s.length ≤ room) :
    fgets room s = (s, []) := by
  induction s generalizing room with
  | nil =>
    cases room with
    | zero => rfl
    | succ room => rfl
  | cons c s ih =>
    obtain ⟨room, rfl⟩ := Nat.exists_eq_succ_of_ne_zero (Nat.ne_of_gt (Nat.zero_lt_of_lt hroom))
    have hc : c ≠ '\n' := fun h ↦ hs (h ▸ List.mem_cons_self)
    rw [fgets, if_neg hc, ih (fun h ↦ hs (List.mem_cons_of_mem _ h)) (Nat.le_of_succ_le_succ hroom)]

private theorem notMem_dropLast_fgets (room : ℕ) (s : List Char) :
    '\n' ∉ (fgets room s).1.dropLast := by
  fun_induction fgets room s with
  | case1 s => simp
  | case2 room => simp
  | case3 room s => simp
  | case4 room c s hc ih =>
    intro h
    have hne : (fgets room s).1 ≠ [] := by
      intro hnil
      simp [hnil] at h
    rw [List.dropLast_cons_of_ne_nil hne, List.mem_cons] at h
    rcases h with h | h
    · exact hc h.symm
    · exact ih h

/-- From a text that ends with a newline, a call takes a line, or fills the room. -/
theorem fgets_terminated (room : ℕ) {s : List Char} (hs : s.getLast? = some '\n') :
    ((fgets room s).1.getLast? = some '\n' ∨ (fgets room s).1.length = room)
      ∧ ((fgets room s).2 = [] ∨ (fgets room s).2.getLast? = some '\n') := by
  fun_induction fgets room s with
  | case1 s => exact ⟨Or.inr rfl, Or.inr hs⟩
  | case2 room => exact absurd hs (by simp)
  | case3 room s =>
    refine ⟨Or.inl rfl, ?_⟩
    cases s with
    | nil => exact Or.inl rfl
    | cons c s => exact Or.inr (by rwa [List.getLast?_cons_cons] at hs)
  | case4 room c s hc ih =>
    -- `c` is not the newline at the end
    have hne : s ≠ [] := by
      rintro rfl
      exact hc (by simpa using hs)
    obtain ⟨d, u, rfl⟩ := List.exists_cons_of_ne_nil hne
    rw [List.getLast?_cons_cons] at hs
    obtain ⟨hpiece, hrest⟩ := ih hs
    refine ⟨?_, hrest⟩
    rcases hpiece with h | h
    · refine Or.inl ?_
      rw [List.getLast?_cons, h]
      rfl
    · exact Or.inr (by rw [List.length_cons, h])

/-! ## Calling until nothing is left -/

/-- What the calls of `fgets(buffer, size, file)` take until the first that fails. -/
def fgetsAll (size : ℕ) (s : List Char) : List (List Char) :=
  if h : s ≠ [] ∧ 2 ≤ size then (fgets (size - 1) s).1 :: fgetsAll size (fgets (size - 1) s).2
  else []
termination_by s.length
decreasing_by exact length_fgets_snd_lt h.1 (by omega)

@[simp]
theorem fgetsAll_nil (size : ℕ) : fgetsAll size [] = [] := by
  rw [fgetsAll, dif_neg (fun h ↦ h.1 rfl)]

theorem fgetsAll_of_ne_nil {size : ℕ} {s : List Char} (hsize : 2 ≤ size) (hs : s ≠ []) :
    fgetsAll size s = (fgets (size - 1) s).1 :: fgetsAll size (fgets (size - 1) s).2 := by
  rw [fgetsAll, dif_pos ⟨hs, hsize⟩]

/-- Lines, each with its newline. -/
def joinLines (lines : List (List Char)) : List Char := lines.flatMap (· ++ ['\n'])

@[simp]
theorem joinLines_nil : joinLines [] = [] := rfl

@[simp]
theorem joinLines_cons (l : List Char) (lines : List (List Char)) :
    joinLines (l :: lines) = l ++ '\n' :: joinLines lines := by
  simp [joinLines]

@[simp] theorem joinLines_append (near far : List (List Char)) :
    joinLines (near ++ far) = joinLines near ++ joinLines far :=
  List.flatMap_append

theorem notMem_joinLines {lines : List (List Char)} {c : Char} (h : ∀ l ∈ lines, c ∉ l)
    (hc : c ≠ '\n') : c ∉ joinLines lines := by
  simpa [joinLines, hc] using h

/-- A line fits into a buffer with its newline and the terminator. -/
def Fits (size : ℕ) (l : List Char) : Prop := l.length + 2 ≤ size

instance (size : ℕ) (l : List Char) : Decidable (Fits size l) := inferInstanceAs (Decidable (_ ≤ _))

theorem fgetsAll_cons_of_fits {size : ℕ} {l : List Char} (hl : '\n' ∉ l) (hfits : Fits size l)
    (s : List Char) : fgetsAll size (l ++ '\n' :: s) = (l ++ ['\n']) :: fgetsAll size s := by
  have hsize : l.length + 2 ≤ size := hfits
  rw [fgetsAll_of_ne_nil (by omega) (by simp), fgets_of_lt hl (by omega)]

/-- The first piece of a line that does not fit has no newline, and the rest of the line is left for
the next call. -/
theorem fgetsAll_cons_of_le {size : ℕ} {l : List Char} (hsize : 2 ≤ size) (hl : '\n' ∉ l)
    (hlong : ¬Fits size l) (s : List Char) :
    fgetsAll size (l ++ '\n' :: s)
      = l.take (size - 1) :: fgetsAll size (l.drop (size - 1) ++ '\n' :: s) := by
  have hle : size - 1 ≤ l.length := by
    rw [Fits] at hlong
    omega
  rw [fgetsAll_of_ne_nil hsize (by simp), fgets_of_le hl hle]

/-- As long as the lines fit, the pieces are the lines. -/
theorem fgetsAll_joinLines_append {size : ℕ} {near : List (List Char)}
    (hnear : ∀ l ∈ near, '\n' ∉ l ∧ Fits size l) (s : List Char) :
    fgetsAll size (joinLines near ++ s) = near.map (· ++ ['\n']) ++ fgetsAll size s := by
  induction near with
  | nil => simp
  | cons l near ih =>
    obtain ⟨hl, hfits⟩ := hnear l List.mem_cons_self
    rw [joinLines_cons, List.append_assoc, List.cons_append, fgetsAll_cons_of_fits hl hfits,
      ih fun l' hl' ↦ hnear l' (List.mem_cons_of_mem _ hl')]
    rfl

theorem fgetsAll_joinLines {size : ℕ} {lines : List (List Char)}
    (h : ∀ l ∈ lines, '\n' ∉ l ∧ Fits size l) :
    fgetsAll size (joinLines lines) = lines.map (· ++ ['\n']) := by
  simpa using fgetsAll_joinLines_append h []

theorem getElem?_fgetsAll_of_fits {size k : ℕ} {lines : List (List Char)}
    (hlines : ∀ l ∈ lines, '\n' ∉ l) (h : ∀ l ∈ lines.take (k + 1), Fits size l) :
    (fgetsAll size (joinLines lines))[k]? = lines[k]?.map (· ++ ['\n']) := by
  have hnear : ∀ l ∈ lines.take (k + 1), '\n' ∉ l ∧ Fits size l :=
    fun l hl ↦ ⟨hlines l (List.mem_of_mem_take hl), h l hl⟩
  have hsplit : joinLines lines
      = joinLines (lines.take (k + 1)) ++ joinLines (lines.drop (k + 1)) := by
    rw [← joinLines_append, List.take_append_drop]
  rw [hsplit, fgetsAll_joinLines_append hnear]
  by_cases hk : k < lines.length
  · have hlt : k < (List.map (· ++ ['\n']) (lines.take (k + 1))).length := by
      rw [List.length_map, List.length_take_of_le hk]
      exact Nat.lt_succ_self k
    rw [List.getElem?_append_left hlt, List.getElem?_map, List.getElem?_take,
      if_pos (Nat.lt_succ_self k)]
  · have hnil : lines.drop (k + 1) = [] := List.drop_eq_nil_of_le (by omega)
    have hnone : lines[k]? = none := List.getElem?_eq_none (Nat.le_of_not_lt hk)
    rw [hnil, hnone, joinLines_nil, fgetsAll_nil, List.append_nil, List.getElem?_map,
      List.getElem?_take, if_pos (Nat.lt_succ_self k), hnone]

/-- The piece at the place of the first line that does not fit is its beginning. -/
theorem getElem?_fgetsAll_of_not_fits {size k : ℕ} {lines : List (List Char)} {l : List Char}
    (hsize : 2 ≤ size) (hlines : ∀ l ∈ lines, '\n' ∉ l) (h : ∀ l ∈ lines.take k, Fits size l)
    (hl : lines[k]? = some l) (hlong : ¬Fits size l) :
    (fgetsAll size (joinLines lines))[k]? = some (l.take (size - 1)) := by
  obtain ⟨hk, rfl⟩ := List.getElem?_eq_some_iff.mp hl
  have hnear : ∀ l ∈ lines.take k, '\n' ∉ l ∧ Fits size l :=
    fun l hl ↦ ⟨hlines l (List.mem_of_mem_take hl), h l hl⟩
  have hsplit : joinLines lines
      = joinLines (lines.take k) ++ (lines[k] ++ '\n' :: joinLines (lines.drop (k + 1))) := by
    rw [← joinLines_cons, ← List.drop_eq_getElem_cons hk, ← joinLines_append,
      List.take_append_drop]
  have hlength : (List.map (· ++ ['\n']) (lines.take k)).length = k := by
    rw [List.length_map, List.length_take_of_le hk.le]
  rw [hsplit, fgetsAll_joinLines_append hnear,
    fgetsAll_cons_of_le hsize (hlines _ (List.getElem_mem hk)) hlong,
    List.getElem?_append_right hlength.le, hlength, Nat.sub_self]
  rfl

theorem joinLines_terminated (lines : List (List Char)) :
    joinLines lines = [] ∨ (joinLines lines).getLast? = some '\n' := by
  rcases List.eq_nil_or_concat lines with rfl | ⟨near, l, rfl⟩
  · exact Or.inl rfl
  · exact Or.inr (by simp [joinLines])

section Pieces

variable {size : ℕ} {s p : List Char}

private theorem flatten_fgetsAll (hsize : 2 ≤ size) (s : List Char) :
    (fgetsAll size s).flatten = s := by
  fun_induction fgetsAll size s with
  | case1 s hs ih => rw [List.flatten_cons, ih, fgets_append]
  | case2 s hs => simpa [hsize] using hs

theorem mem_of_mem_fgetsAll (hsize : 2 ≤ size) (hp : p ∈ fgetsAll size s) {c : Char}
    (hc : c ∈ p) : c ∈ s := by
  rw [← flatten_fgetsAll hsize s]
  exact List.mem_flatten_of_mem hp hc

theorem notMem_dropLast_of_mem_fgetsAll (hp : p ∈ fgetsAll size s) : '\n' ∉ p.dropLast := by
  fun_induction fgetsAll size s with
  | case1 s hs ih =>
    rcases List.mem_cons.mp hp with rfl | hp
    · exact notMem_dropLast_fgets _ _
    · exact ih hp
  | case2 s hs => exact absurd hp List.not_mem_nil

/-- The pieces of a text that ends with a newline end with one too, or fill the buffer. -/
theorem terminated_of_mem_fgetsAll (hs : s = [] ∨ s.getLast? = some '\n')
    (hp : p ∈ fgetsAll size s) : p.getLast? = some '\n' ∨ p.length = size - 1 := by
  fun_induction fgetsAll size s with
  | case1 s h ih =>
    have hfgets := fgets_terminated (size - 1) (hs.resolve_left h.1)
    rcases List.mem_cons.mp hp with rfl | hp
    · exact hfgets.1
    · exact ih hfgets.2 hp
  | case2 s h => exact absurd hp List.not_mem_nil

end Pieces

end Stdio
