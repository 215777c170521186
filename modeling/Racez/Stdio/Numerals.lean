import Mathlib.Data.List.TakeWhile
import Mathlib.Data.Int.Init
import Mathlib.Tactic.NormNum

/-!
# Numbers as text

The conversions of `printf` for integers, and `strtoll`, which reads back what `%lld` prints
(`strtoll_decimal`). What `%llx` prints is read back only below the largest signed number
(`strtoll_hex8`).

## Printing

A number is printed as the digits of its absolute value, most significant first, and only zero has a
leading zero. `%08llx` fills up with zeros, so there are at least eight digits and at most sixteen.

## Reading

`strtoll` skips spaces, reads a sign, reads the base, and then digits up to the first character that
is none. Each of these is a function here that also says what it leaves of the text, and each has a
lemma on printed text. The result is brought into the range of 64 bits, which is why hexadecimal
numbers from 2^63 on do not come back.
-/

namespace Stdio

/-! ## Printing -/

/-- `%lld` and `%d`. -/
def decimal (z : ℤ) : List Char :=
  if z < 0 then '-' :: Nat.toDigits 10 z.natAbs else Nat.toDigits 10 z.natAbs

/-- `%08llx`: hexadecimal digits, filled up with zeros to eight places. -/
def hex8 (n : ℕ) : List Char := List.leftpad 8 '0' (Nat.toDigits 16 n)

private theorem isAlphanum_digitChar {d : ℕ} (h : d < 16) :
    (Nat.digitChar d).isAlphanum = true := by
  revert d
  decide

theorem isAlphanum_of_mem_toDigits {b n : ℕ} {c : Char} (hb : 1 < b) (hb' : b ≤ 16)
    (h : c ∈ Nat.toDigits b n) : c.isAlphanum = true := by
  induction n using Nat.strong_induction_on with
  | _ n ih =>
    by_cases hn : n < b
    · rw [Nat.toDigits_of_lt_base hn, List.mem_singleton] at h
      exact h ▸ isAlphanum_digitChar (hn.trans_le hb')
    · have hle : b ≤ n := Nat.le_of_not_lt hn
      rw [Nat.toDigits_of_base_le hb hle, List.mem_append, List.mem_singleton] at h
      rcases h with h | rfl
      · exact ih _ (Nat.div_lt_self (by omega) hb) h
      · exact isAlphanum_digitChar ((Nat.mod_lt n (by omega)).trans_le hb')

theorem isAlphanum_of_mem_decimal {z : ℤ} {c : Char} (h : c ∈ decimal z) :
    c = '-' ∨ c.isAlphanum = true := by
  rw [decimal] at h
  split at h
  · rcases List.mem_cons.mp h with rfl | h
    · exact Or.inl rfl
    · exact Or.inr (isAlphanum_of_mem_toDigits (by decide) (by decide) h)
  · exact Or.inr (isAlphanum_of_mem_toDigits (by decide) (by decide) h)

theorem notMem_decimal {z : ℤ} {c : Char} (hc : ¬(c = '-' ∨ c.isAlphanum = true)) :
    c ∉ decimal z :=
  mt isAlphanum_of_mem_decimal hc

private theorem eq_zero_or_mem_of_mem_hex8 {n : ℕ} {c : Char} (h : c ∈ hex8 n) :
    c = '0' ∨ c ∈ Nat.toDigits 16 n := by
  rw [hex8, List.leftpad, List.mem_append] at h
  exact h.imp_left List.eq_of_mem_replicate

theorem isAlphanum_of_mem_hex8 {n : ℕ} {c : Char} (h : c ∈ hex8 n) : c.isAlphanum = true := by
  rcases eq_zero_or_mem_of_mem_hex8 h with rfl | h
  · decide
  · exact isAlphanum_of_mem_toDigits (by decide) (by decide) h

theorem length_hex8_le {n : ℕ} (h : n < 2 ^ 64) : (hex8 n).length ≤ 16 := by
  have hdigits : (Nat.toDigits 16 n).length ≤ 16 :=
    (Nat.length_toDigits_le_iff (by decide) (by decide)).mpr (h.trans_eq (by norm_num))
  rw [hex8, List.leftpad, List.length_append, List.length_replicate]
  omega

theorem length_decimal_le {n : ℕ} (h : n < 2 ^ 31) : (decimal n).length ≤ 10 := by
  have hpos : ¬(n : ℤ) < 0 := by omega
  rw [decimal, if_neg hpos, Int.natAbs_natCast]
  exact (Nat.length_toDigits_le_iff (by decide) (by decide)).mpr (h.trans (by norm_num))

theorem length_decimal_toInt_le (d : BitVec 64) : (decimal d.toInt).length ≤ 20 := by
  have hlow := d.le_toInt
  have hhigh := d.toInt_lt
  have hlt : d.toInt.natAbs < 10 ^ 19 := by omega
  have hdigits : (Nat.toDigits 10 d.toInt.natAbs).length ≤ 19 :=
    (Nat.length_toDigits_le_iff (by decide) (by decide)).mpr hlt
  rw [decimal]
  split_ifs
  · rw [List.length_cons]
    omega
  · omega

/-! ## Reading -/

/-- `isspace`. -/
def isSpace (c : Char) : Bool := c = ' ' || (9 ≤ c.toNat && c.toNat ≤ 13)

/-- The value of a digit in a base. -/
def digit? (base : ℕ) (c : Char) : Option ℕ :=
  (if c.isDigit then some (c.toNat - '0'.toNat)
    else if c.isLower then some (c.toNat - 'a'.toNat + 10)
    else if c.isUpper then some (c.toNat - 'A'.toNat + 10)
    else none).filter (· < base)

/-- The number the leading digits stand for, after those already read, and what follows them. -/
def readDigits (base : ℕ) : ℕ → List Char → ℕ × List Char
  | n, [] => (n, [])
  | n, c :: s =>
    match digit? base c with
    | some d => readDigits base (n * base + d) s
    | none => (n, c :: s)

/-- A sign, if there is one. -/
def readSign : List Char → Bool × List Char
  | '-' :: s => (true, s)
  | '+' :: s => (false, s)
  | s => (false, s)

/-- The base to read in and the text after `0x`. In base 16 the letters may be there, in base 0 they
decide, and a leading zero without them means base 8. -/
def readBase (base : ℕ) : List Char → ℕ × List Char
  | '0' :: x :: c :: s =>
    if (x = 'x' ∨ x = 'X') ∧ (base = 0 ∨ base = 16) ∧ (digit? 16 c).isSome then (16, c :: s)
    else (if base = 0 then 8 else base, '0' :: x :: c :: s)
  | '0' :: s => (if base = 0 then 8 else base, '0' :: s)
  | s => (if base = 0 then 10 else base, s)

/-- `strtoll`: the value, brought into the range of 64 bits, and the place of the end pointer. If
there are no digits the value is zero and the pointer is at the start. -/
def strtoll (base : ℕ) (s : List Char) : ℤ × List Char :=
  let (negative, t) := readSign (s.dropWhile isSpace)
  let (base, t) := readBase base t
  if (t.head?.bind (digit? base)).isSome then
    let (n, rest) := readDigits base 0 t
    (if negative then max (-n) (-2 ^ 63) else min n (2 ^ 63 - 1), rest)
  else (0, s)

/-! ## Reading what was printed -/

private theorem digit?_ten {c : Char} (h : c.isDigit = true) :
    digit? 10 c = some (c.toNat - '0'.toNat) := by
  have hlt : c.toNat - '0'.toNat < 10 := by
    have hle : c.toNat ≤ 57 := (Char.isDigit_iff_toNat.mp h).2
    have hzero : '0'.toNat = 48 := by decide
    omega
  rw [digit?, if_pos h, Option.filter_some, if_pos (by simpa using hlt)]

private theorem readDigits_ten {s : List Char} (h : ∀ c ∈ s, c.isDigit = true) (n : ℕ) :
    readDigits 10 n s = (Nat.ofDigitChars 10 s n, []) := by
  induction s generalizing n with
  | nil => rfl
  | cons c s ih =>
    obtain ⟨hc, hs⟩ := List.forall_mem_cons.mp h
    rw [readDigits, digit?_ten hc, Nat.ofDigitChars_cons, Nat.mul_comm 10]
    exact ih hs _

private theorem digitChar_ne_zero {d : ℕ} (h : d < 10) (hd : d ≠ 0) : Nat.digitChar d ≠ '0' := by
  revert d
  decide

/-- Only zero is printed with a leading zero. -/
theorem exists_toDigits_eq_cons {n : ℕ} (hn : n ≠ 0) :
    ∃ c s, Nat.toDigits 10 n = c :: s ∧ c ≠ '0' := by
  induction n using Nat.strong_induction_on with
  | _ n ih =>
    by_cases hlt : n < 10
    · exact ⟨_, [], Nat.toDigits_of_lt_base hlt, digitChar_ne_zero hlt hn⟩
    · have hle : 10 ≤ n := Nat.le_of_not_lt hlt
      obtain ⟨c, s, hcs, hc⟩ := ih (n / 10) (Nat.div_lt_self (by omega) (by decide)) (by omega)
      rw [Nat.toDigits_of_base_le (by decide) hle, hcs]
      exact ⟨c, _, rfl, hc⟩

private theorem isDigit_of_mem_toDigits {n : ℕ} {c : Char} (h : c ∈ Nat.toDigits 10 n) :
    c.isDigit = true :=
  Nat.isDigit_of_mem_toDigits (by decide) (by decide) h

private theorem readDigits_readBase (n : ℕ) :
    ∃ base t, readBase 0 (Nat.toDigits 10 n) = (base, t)
      ∧ (t.head?.bind (digit? base)).isSome = true ∧ readDigits base 0 t = (n, []) := by
  by_cases hn : n = 0
  · subst hn
    exact ⟨8, ['0'], rfl, by decide, by decide⟩
  · obtain ⟨c, s, hcs, hc⟩ := exists_toDigits_eq_cons hn
    have hdigits : ∀ d ∈ c :: s, d.isDigit = true := fun d hd ↦
      isDigit_of_mem_toDigits (hcs ▸ hd)
    refine ⟨10, c :: s, ?_, ?_, ?_⟩
    · rw [hcs, readBase]
      · rfl
      · rintro _ _ _ ⟨rfl, -⟩
        exact hc rfl
      · rintro _ ⟨rfl, -⟩
        exact hc rfl
    · rw [List.head?_cons, Option.bind_some, digit?_ten (hdigits c List.mem_cons_self)]
      rfl
    · rw [readDigits_ten hdigits, ← hcs, Nat.ofDigitChars_ten_toDigits]

theorem isAlphanum_iff {c : Char} :
    c.isAlphanum = true ↔ (c.isUpper = true ∨ c.isLower = true) ∨ c.isDigit = true := by
  have h : c.isAlphanum = ((c.isUpper || c.isLower) || c.isDigit) := rfl
  rw [h, Bool.or_eq_true, Bool.or_eq_true]

private theorem le_toNat_of_isAlphanum {c : Char} (h : c.isAlphanum = true) : 48 ≤ c.toNat := by
  -- digits come first of the three ranges
  rcases isAlphanum_iff.mp h with (h | h) | h
  · have hle : 'A'.val ≤ c.val := (of_decide_eq_true h).1
    exact le_trans (by decide) (UInt32.le_iff_toNat_le.mp hle)
  · have hle : 'a'.val ≤ c.val := of_decide_eq_true (Bool.and_eq_true_iff.mp h).1
    exact le_trans (by decide) (UInt32.le_iff_toNat_le.mp hle)
  · have hle : '0'.val ≤ c.val := of_decide_eq_true (Bool.and_eq_true_iff.mp h).1
    exact UInt32.le_iff_toNat_le.mp hle

private theorem isSpace_eq_false_of_isAlphanum {c : Char} (h : c.isAlphanum = true) :
    isSpace c = false := by
  by_contra hc
  rw [Bool.not_eq_false, isSpace, Bool.or_eq_true, Bool.and_eq_true, decide_eq_true_eq,
    decide_eq_true_eq, decide_eq_true_eq] at hc
  have hge : 48 ≤ c.toNat := le_toNat_of_isAlphanum h
  have hle : c.toNat ≤ 32 := by
    rcases hc with rfl | hc
    · decide
    · exact hc.2.trans (by decide)
  omega

private theorem readSign_of_isAlphanum {c : Char} {s : List Char} (h : c.isAlphanum = true) :
    readSign (c :: s) = (false, c :: s) := by
  rw [readSign]
  · rintro _ ⟨rfl, -⟩
    exact absurd h (by decide)
  · rintro _ ⟨rfl, -⟩
    exact absurd h (by decide)

private theorem readSign_decimal (z : ℤ) :
    readSign ((decimal z).dropWhile isSpace) = (decide (z < 0), Nat.toDigits 10 z.natAbs) := by
  rw [decimal]
  split_ifs with hz
  · rw [List.dropWhile_cons_of_neg (by decide), readSign, decide_eq_true hz]
  · obtain ⟨c, s, hcs⟩ := List.exists_cons_of_ne_nil (Nat.toDigits_ne_nil (n := z.natAbs) (b := 10))
    have hc : c.isAlphanum = true :=
      isAlphanum_of_mem_toDigits (by decide) (by decide) (hcs ▸ List.mem_cons_self)
    rw [hcs, List.dropWhile_cons_of_neg (by simp [isSpace_eq_false_of_isAlphanum hc]),
      readSign_of_isAlphanum hc, decide_eq_false hz]

/-- `strtoll` reads back what `%lld` prints, to the end. -/
theorem strtoll_decimal {z : ℤ} (hlow : -2 ^ 63 ≤ z) (hhigh : z < 2 ^ 63) :
    strtoll 0 (decimal z) = (z, []) := by
  obtain ⟨base, t, hbase, hhead, hread⟩ := readDigits_readBase z.natAbs
  rw [strtoll, readSign_decimal]
  dsimp only
  rw [hbase]
  dsimp only
  rw [if_pos hhead, hread]
  dsimp only
  rw [Prod.mk.injEq, and_iff_left rfl]
  split_ifs with hz
  · have hz' : z < 0 := of_decide_eq_true hz
    omega
  · have hz' : ¬z < 0 := of_decide_eq_false (Bool.eq_false_of_not_eq_true hz)
    omega

theorem decimal_injective : Function.Injective decimal := by
  intro z z' h
  have hread := readSign_decimal z
  rw [h, readSign_decimal z', Prod.mk.injEq, decide_eq_decide] at hread
  obtain ⟨hsign, hdigits⟩ := hread
  have habs : z'.natAbs = z.natAbs := by
    rw [← Nat.ofDigitChars_ten_toDigits (n := z'.natAbs), hdigits, Nat.ofDigitChars_ten_toDigits]
  omega

/-! ## Hexadecimal numbers -/

/-- The number that digits stand for, after a number already read. -/
def digitsValue (base n : ℕ) (s : List Char) : ℕ :=
  s.foldl (fun n c ↦ n * base + (digit? base c).getD 0) n

@[simp] theorem digitsValue_append (base n : ℕ) (s t : List Char) :
    digitsValue base n (s ++ t) = digitsValue base (digitsValue base n s) t :=
  List.foldl_append

theorem readDigits_append {base : ℕ} {s t : List Char} (hs : ∀ c ∈ s, (digit? base c).isSome = true)
    (ht : t.head?.bind (digit? base) = none) (n : ℕ) :
    readDigits base n (s ++ t) = (digitsValue base n s, t) := by
  induction s generalizing n with
  | nil =>
    cases t with
    | nil => rfl
    | cons c t =>
      have hc : digit? base c = none := ht
      rw [List.nil_append, readDigits, hc]
      rfl
  | cons c s ih =>
    obtain ⟨hc, hs⟩ := List.forall_mem_cons.mp hs
    obtain ⟨d, hd⟩ := Option.isSome_iff_exists.mp hc
    rw [List.cons_append, readDigits, hd]
    dsimp only
    rw [ih hs, digitsValue, digitsValue, List.foldl_cons, hd, Option.getD_some]

private theorem digit?_digitChar {d : ℕ} (h : d < 16) : digit? 16 (Nat.digitChar d) = some d := by
  revert d
  decide

private theorem digit?_of_mem_toDigits {n : ℕ} {c : Char} (h : c ∈ Nat.toDigits 16 n) :
    (digit? 16 c).isSome = true := by
  induction n using Nat.strong_induction_on with
  | _ n ih =>
    by_cases hn : n < 16
    · rw [Nat.toDigits_of_lt_base hn, List.mem_singleton] at h
      rw [h, digit?_digitChar hn]
      rfl
    · rw [Nat.toDigits_of_base_le (by decide) (Nat.le_of_not_lt hn), List.mem_append,
        List.mem_singleton] at h
      rcases h with h | rfl
      · exact ih _ (Nat.div_lt_self (by omega) (by decide)) h
      · rw [digit?_digitChar (Nat.mod_lt n (by decide))]
        rfl

@[simp] theorem digitsValue_toDigits (n : ℕ) : digitsValue 16 0 (Nat.toDigits 16 n) = n := by
  induction n using Nat.strong_induction_on with
  | _ n ih =>
    by_cases hn : n < 16
    · rw [Nat.toDigits_of_lt_base hn, digitsValue, List.foldl_cons, List.foldl_nil,
        digit?_digitChar hn, Option.getD_some, Nat.zero_mul, Nat.zero_add]
    · rw [Nat.toDigits_of_base_le (by decide) (Nat.le_of_not_lt hn), digitsValue_append,
        ih _ (Nat.div_lt_self (by omega) (by decide)), digitsValue, List.foldl_cons, List.foldl_nil,
        digit?_digitChar (Nat.mod_lt n (by decide)), Option.getD_some]
      exact Nat.div_add_mod' n 16

private theorem digit?_of_mem_hex8 {n : ℕ} {c : Char} (h : c ∈ hex8 n) :
    (digit? 16 c).isSome = true := by
  rcases eq_zero_or_mem_of_mem_hex8 h with rfl | h
  · decide
  · exact digit?_of_mem_toDigits h

@[simp] theorem digitsValue_hex8 (n : ℕ) : digitsValue 16 0 (hex8 n) = n := by
  have hzeros : ∀ k, digitsValue 16 0 (List.replicate k '0') = 0 := by
    intro k
    induction k with
    | zero => rfl
    | succ k ih =>
      rw [List.replicate_succ, digitsValue, List.foldl_cons]
      exact ih
  rw [hex8, List.leftpad, digitsValue_append, hzeros, digitsValue_toDigits]

theorem hex8_ne_nil (n : ℕ) : hex8 n ≠ [] := by
  rw [hex8, List.leftpad]
  exact List.append_ne_nil_of_right_ne_nil _ Nat.toDigits_ne_nil

theorem isAlphanum_of_digit? {base : ℕ} {c : Char} (h : (digit? base c).isSome = true) :
    c.isAlphanum = true := by
  by_contra hc
  rw [isAlphanum_iff, not_or, not_or] at hc
  obtain ⟨⟨hupper, hlower⟩, hdigit⟩ := hc
  rw [digit?, if_neg hdigit, if_neg hlower, if_neg hupper] at h
  exact absurd h (by simp)

private theorem readBase_hex {base : ℕ} {c : Char} (hbase : base = 0 ∨ base = 16)
    (hc : (digit? 16 c).isSome = true) (s : List Char) :
    readBase base ('0' :: 'x' :: c :: s) = (16, c :: s) := by
  rw [readBase, if_pos ⟨Or.inl rfl, hbase, hc⟩]

private theorem readBase_sixteen {s : List Char} (hs : ∀ c ∈ s, (digit? 16 c).isSome = true) :
    readBase 16 s = (16, s) := by
  rw [readBase.eq_def]
  split
  · next x c s =>
    have hx : ¬((x = 'x' ∨ x = 'X') ∧ ((16 : ℕ) = 0 ∨ (16 : ℕ) = 16) ∧ (digit? 16 c).isSome) := by
      rintro ⟨rfl | rfl, -⟩
      · exact absurd (hs 'x' (by simp)) (by decide)
      · exact absurd (hs 'X' (by simp)) (by decide)
    rw [if_neg hx, if_neg (by decide)]
  · rw [if_neg (by decide)]
  · rw [if_neg (by decide)]

/-- Hexadecimal digits behind `0x` are read as a number, which is cut at the largest that fits. -/
theorem strtoll_hex {base : ℕ} {s t : List Char} (hs : ∀ c ∈ s, (digit? 16 c).isSome = true)
    (hne : s ≠ []) (ht : t.head?.bind (digit? 16) = none) (hbase : base = 0 ∨ base = 16) :
    strtoll base ("0x".toList ++ s ++ t) = (min (digitsValue 16 0 s : ℤ) (2 ^ 63 - 1), t) := by
  obtain ⟨c, s, rfl⟩ := List.exists_cons_of_ne_nil hne
  have hc : (digit? 16 c).isSome = true := hs c List.mem_cons_self
  have htext : "0x".toList ++ c :: s ++ t = '0' :: 'x' :: c :: (s ++ t) := by
    have hx : "0x".toList = ['0', 'x'] := by decide
    rw [hx]
    rfl
  rw [strtoll, htext, List.dropWhile_cons_of_neg (by decide), readSign_of_isAlphanum (by decide)]
  dsimp only
  rw [readBase_hex hbase hc]
  dsimp only
  rw [List.head?_cons, Option.bind_some, if_pos hc, ← List.cons_append, readDigits_append hs ht]
  rfl

theorem strtoll_sixteen {s : List Char} (hs : ∀ c ∈ s, (digit? 16 c).isSome = true)
    (hne : s ≠ []) : strtoll 16 s = (min (digitsValue 16 0 s : ℤ) (2 ^ 63 - 1), []) := by
  obtain ⟨c, s, rfl⟩ := List.exists_cons_of_ne_nil hne
  have hc : (digit? 16 c).isSome = true := hs c List.mem_cons_self
  have hspace : isSpace c = false := isSpace_eq_false_of_isAlphanum (isAlphanum_of_digit? hc)
  have hread := readDigits_append (t := []) hs rfl 0
  rw [List.append_nil] at hread
  rw [strtoll, List.dropWhile_cons_of_neg (by simp [hspace]),
    readSign_of_isAlphanum (isAlphanum_of_digit? hc)]
  dsimp only
  rw [readBase_sixteen hs]
  dsimp only
  rw [List.head?_cons, Option.bind_some, if_pos hc, hread]
  rfl

/-- What `%08llx` prints behind `0x`, with what follows it on the line. -/
theorem strtoll_hex8 (n : ℕ) {t : List Char} (ht : t.head?.bind (digit? 16) = none) :
    strtoll 16 ("0x".toList ++ hex8 n ++ t) = (min (n : ℤ) (2 ^ 63 - 1), t) := by
  rw [strtoll_hex (fun c ↦ digit?_of_mem_hex8) (hex8_ne_nil n) ht (Or.inr rfl), digitsValue_hex8]

end Stdio
