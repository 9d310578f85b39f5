import Mathlib.Algebra.Order.Field.Rat
import Mathlib.Data.Int.Log
import Mathlib.Data.Nat.Log
import Mathlib.Data.Rat.Floor
import Mathlib.Tactic.FieldSimp
import Mathlib.Tactic.Linarith
import Mathlib.Tactic.Positivity
import Mathlib.Tactic.Ring

/-!
# Decimal text

Numbers as text.  `showNat` writes a natural number; `showDouble` writes a number in the default
format of an output stream, with six significant digits: rounded to even, without zeros at the end,
and with an exponent where the decimal point would be far from the digits.  `readNat` and
`readDouble` read decimal text exactly.

* `readNat_showNat` : a natural number is read back.
* `readDouble_showDouble` : what is read back of a number is its value with six digits.
* `sixDigitValue_eq_iff` : which numbers that leaves as they are.
-/

namespace Decimal

/-! ### Digits -/

/-- The character of a digit. -/
def digitChar (d : ℕ) : Char := Char.ofNat (48 + d)

/-- `k` digits of `n`, as characters. -/
def showDigits : ℕ → ℕ → List Char
  | 0, _ => []
  | k + 1, n => showDigits k (n / 10) ++ [digitChar (n % 10)]

/-- Read the digits at the beginning of a text, behind a number that is already read: the number,
and the text behind it. -/
def readDigits : List Char → ℕ → ℕ × List Char
  | [], n => (n, [])
  | c :: cs, n => if c.isDigit then readDigits cs (10 * n + (c.toNat - 48)) else (n, c :: cs)

/-- A text that does not go on with a digit. -/
def NoDigit (text : List Char) : Prop := ∀ c ∈ text.head?, c.isDigit = false

theorem isDigit_digitChar {d : ℕ} (h : d < 10) : (digitChar d).isDigit = true := by
  have all : ∀ d < 10, (digitChar d).isDigit = true := by decide
  exact all d h

theorem toNat_digitChar {d : ℕ} (h : d < 10) : (digitChar d).toNat - 48 = d := by
  have all : ∀ d < 10, (digitChar d).toNat - 48 = d := by decide
  exact all d h

@[simp] theorem length_showDigits (k n : ℕ) : (showDigits k n).length = k := by
  induction k generalizing n with
  | zero => rfl
  | succ k ih => rw [showDigits, List.length_append, ih, List.length_singleton]

theorem isDigit_of_mem_showDigits {k n : ℕ} {c : Char} (h : c ∈ showDigits k n) :
    c.isDigit = true := by
  induction k generalizing n with
  | zero => cases h
  | succ k ih =>
    rw [showDigits, List.mem_append, List.mem_singleton] at h
    rcases h with h | rfl
    · exact ih h
    · exact isDigit_digitChar (Nat.mod_lt _ (by decide))

/-- Digits that are read are appended to the number. -/
theorem readDigits_showDigits (k n m : ℕ) (rest : List Char) :
    readDigits (showDigits k n ++ rest) m = readDigits rest (m * 10 ^ k + n % 10 ^ k) := by
  induction k generalizing n rest with
  | zero => simp [showDigits, Nat.mod_one]
  | succ k ih =>
    have hlt : n % 10 < 10 := Nat.mod_lt _ (by decide)
    rw [showDigits, List.append_assoc, ih, List.singleton_append, readDigits,
      if_pos (isDigit_digitChar hlt), toNat_digitChar hlt, pow_succ', Nat.mod_mul]
    congr 1
    ring

theorem readDigits_of_noDigit {rest : List Char} (h : NoDigit rest) (n : ℕ) :
    readDigits rest n = (n, rest) := by
  cases rest with
  | nil => rfl
  | cons c cs => rw [readDigits, if_neg (by simp [h c rfl])]

/-! ### Natural numbers -/

/-- A natural number without zeros in front. -/
def showNat (n : ℕ) : List Char := showDigits (Nat.log 10 n + 1) n

/-- A text of digits only. -/
def readNat (text : List Char) : Option ℕ :=
  if text = [] then none
  else
    match readDigits text 0 with
    | (n, []) => some n
    | _ => none

theorem readNat_showDigits {k n : ℕ} (hk : 0 < k) (hn : n < 10 ^ k) :
    readNat (showDigits k n) = some n := by
  have h := readDigits_showDigits k n 0 []
  rw [List.append_nil, readDigits, Nat.zero_mul, Nat.zero_add, Nat.mod_eq_of_lt hn] at h
  have hne : showDigits k n ≠ [] := List.ne_nil_of_length_pos (by rwa [length_showDigits])
  rw [readNat, if_neg hne, h]

theorem readNat_showNat (n : ℕ) : readNat (showNat n) = some n :=
  readNat_showDigits (Nat.succ_pos _) (Nat.lt_pow_succ_log_self (by decide) n)

theorem readDigits_showNat (n : ℕ) {rest : List Char} (h : NoDigit rest) :
    readDigits (showNat n ++ rest) 0 = (n, rest) := by
  rw [showNat, readDigits_showDigits, Nat.zero_mul, Nat.zero_add,
    Nat.mod_eq_of_lt (Nat.lt_pow_succ_log_self (by decide) n), readDigits_of_noDigit h]

/-! ### Numbers with a decimal point -/

/-- Leave out zeros at the end of the `k` digits behind the decimal point of `n / 10 ^ k`. -/
def strip (n : ℕ) : ℕ → ℕ × ℕ
  | 0 => (n, 0)
  | k + 1 => if n % 10 = 0 then strip (n / 10) k else (n, k + 1)

/-- `n / 10 ^ k` with a decimal point. -/
def showFixed (n k : ℕ) : List Char :=
  match strip n k with
  | (n, 0) => showNat n
  | (n, k + 1) => showNat (n / 10 ^ (k + 1)) ++ '.' :: showDigits (k + 1) n

/-- At least two digits and the sign of an exponent. -/
def showExponent (x : ℤ) : List Char :=
  'e' :: (if x < 0 then '-' else '+') :: showDigits (max 2 (Nat.log 10 x.natAbs + 1)) x.natAbs

/-- A text may start with a sign. -/
def readSign : List Char → ℤ × List Char
  | '-' :: text => (-1, text)
  | '+' :: text => (1, text)
  | text => (1, text)

/-- Digits with or without a decimal point: the number, and the text behind it. -/
def readFixed (text : List Char) : ℚ × List Char :=
  match readDigits text 0 with
  | (n, '.' :: frac) =>
    let (m, rest) := readDigits frac n
    (m / 10 ^ (frac.length - rest.length), rest)
  | (n, rest) => (n, rest)

/-- An exponent at the end of a text, as a factor. -/
def readExponent : List Char → Option ℚ
  | [] => some 1
  | 'e' :: text =>
    let (sign, text) := readSign text
    match readNat text with
    | some x => some (10 ^ (sign * x))
    | none => none
  | _ => none

/-- The number in a text, exactly. -/
def readDouble (text : List Char) : Option ℚ := do
  let (sign, text) := readSign text
  let (n, rest) := readFixed text
  guard (rest.length < text.length)
  let factor ← readExponent rest
  some (sign * n * factor)

theorem strip_eq (n k : ℕ) : ((strip n k).1 / 10 ^ (strip n k).2 : ℚ) = n / 10 ^ k := by
  induction k generalizing n with
  | zero => rfl
  | succ k ih =>
    rw [strip]
    split_ifs with h
    · have hn : n = 10 * (n / 10) := by omega
      have hn' : (n : ℚ) = 10 * (n / 10 : ℕ) := by exact_mod_cast hn
      rw [ih, hn', pow_succ']
      field_simp
    · rfl

/-- The number is read back, and the text behind it is left. -/
theorem readFixed_showFixed (n k : ℕ) (rest : List Char) (h : NoDigit rest)
    (hdot : rest.head? ≠ some '.') :
    readFixed (showFixed n k ++ rest) = ((n / 10 ^ k : ℚ), rest) := by
  have heq := strip_eq n k
  unfold showFixed
  split
  · next m hm =>
    rw [hm] at heq
    rw [readFixed, readDigits_showNat m h, ← heq]
    split
    · next hrest =>
      obtain ⟨-, rfl⟩ := Prod.mk.inj hrest
      exact absurd rfl hdot
    · next hrest =>
      obtain ⟨rfl, rfl⟩ := Prod.mk.inj hrest
      rw [pow_zero, div_one]
  · next m j hm =>
    rw [hm] at heq
    rw [List.append_assoc, List.cons_append, readFixed,
      readDigits_showNat _ (by rintro c ⟨⟩; decide)]
    simp only [readDigits_showDigits, readDigits_of_noDigit h, List.length_append,
      length_showDigits, Nat.add_sub_cancel]
    have hdiv := Nat.div_add_mod' m (10 ^ (j + 1))
    rw [hdiv]
    exact Prod.ext heq rfl

theorem head_showDigits {k n : ℕ} (hk : 0 < k) (rest : List Char) :
    ∃ c cs, showDigits k n ++ rest = c :: cs ∧ c.isDigit = true := by
  have hne : showDigits k n ≠ [] := List.ne_nil_of_length_pos (by rwa [length_showDigits])
  obtain ⟨c, cs, hcs⟩ := List.exists_cons_of_ne_nil hne
  exact ⟨c, cs ++ rest, by rw [hcs, List.cons_append],
    isDigit_of_mem_showDigits (hcs ▸ List.mem_cons_self)⟩

/-- A text that starts with a digit has no sign. -/
theorem readSign_of_isDigit {c : Char} {cs : List Char} (h : c.isDigit = true) :
    readSign (c :: cs) = (1, c :: cs) := by
  unfold readSign
  split
  · next heq =>
    obtain ⟨rfl, -⟩ := List.cons.inj heq
    exact absurd h (by decide)
  · next heq =>
    obtain ⟨rfl, -⟩ := List.cons.inj heq
    exact absurd h (by decide)
  · rfl

theorem head_showFixed (n k : ℕ) (rest : List Char) :
    ∃ c cs, showFixed n k ++ rest = c :: cs ∧ c.isDigit = true := by
  unfold showFixed
  split
  · exact head_showDigits (Nat.succ_pos _) rest
  · rw [List.append_assoc]
    exact head_showDigits (Nat.succ_pos _) _

theorem length_showFixed_pos (n k : ℕ) : 0 < (showFixed n k).length := by
  obtain ⟨c, cs, hcs, -⟩ := head_showFixed n k []
  rw [List.append_nil] at hcs
  rw [hcs]
  exact Nat.succ_pos _

theorem readExponent_showExponent (x : ℤ) : readExponent (showExponent x) = some (10 ^ x) := by
  have hnat : readNat (showDigits (max 2 (Nat.log 10 x.natAbs + 1)) x.natAbs) = some x.natAbs := by
    refine readNat_showDigits (by omega)
      ((Nat.lt_pow_succ_log_self (b := 10) (by decide) x.natAbs).trans_le ?_)
    exact Nat.pow_le_pow_right (by decide) (Nat.le_max_right _ _)
  by_cases hneg : x < 0
  · simp only [showExponent, readExponent, if_pos hneg, readSign, hnat]
    rw [show -1 * (x.natAbs : ℤ) = x by omega]
  · simp only [showExponent, readExponent, if_neg hneg, readSign, hnat]
    rw [show 1 * (x.natAbs : ℤ) = x by omega]

/-! ### Six significant digits -/

/-- The nearest integer, and the even one of two. -/
def roundEven (q : ℚ) : ℤ :=
  if q - ⌊q⌋ < 1 / 2 then ⌊q⌋
  else if 1 / 2 < q - ⌊q⌋ then ⌊q⌋ + 1
  else if ⌊q⌋ % 2 = 0 then ⌊q⌋ else ⌊q⌋ + 1

/-- The six digits `n` of a positive number that is rounded to `n * 10 ^ (x - 5)`, and `x`. -/
def sixDigits (q : ℚ) : ℕ × ℤ :=
  let x := Int.log 10 q
  let n := (roundEven (q / 10 ^ (x - 5))).toNat
  -- the digits 9 carry over
  if n = 1000000 then (100000, x + 1) else (n, x)

/-- A positive number, with a decimal point between or behind its six digits or up to four zeros in
front of them, or with an exponent. -/
def showPositive (q : ℚ) : List Char :=
  let (n, x) := sixDigits q
  if -4 ≤ x ∧ x < 6 then showFixed n (5 - x).toNat else showFixed n 5 ++ showExponent x

/-- `operator<<(double)` -/
def showDouble (q : ℚ) : List Char :=
  if q = 0 then showNat 0 else if q < 0 then '-' :: showPositive (-q) else showPositive q

/-- The value of a positive number with six digits. -/
def roundPositive (q : ℚ) : ℚ := (sixDigits q).1 * 10 ^ ((sixDigits q).2 - 5)

/-- The value of a number with six digits. -/
def sixDigitValue (q : ℚ) : ℚ :=
  if q = 0 then 0 else if q < 0 then -roundPositive (-q) else roundPositive q

/-- The text of a positive number starts with a digit, and is a number with a decimal point and a
factor. -/
theorem readFixed_showPositive (q : ℚ) :
    (∃ c cs, showPositive q = c :: cs ∧ c.isDigit = true) ∧
      ∃ n rest factor, readFixed (showPositive q) = (n, rest) ∧
        rest.length < (showPositive q).length ∧ readExponent rest = some factor ∧
          n * factor = roundPositive q := by
  unfold showPositive roundPositive
  obtain ⟨n, x⟩ := sixDigits q
  simp only
  split_ifs with hx
  · obtain ⟨k, hk⟩ := Int.eq_ofNat_of_zero_le (show 0 ≤ 5 - x by omega)
    have hread := readFixed_showFixed n k [] (by simp [NoDigit]) (by simp)
    have hhead := head_showFixed n k []
    rw [List.append_nil] at hread hhead
    rw [hk, Int.toNat_natCast]
    refine ⟨hhead, _, _, 1, hread, length_showFixed_pos n k, rfl, ?_⟩
    rw [show x - 5 = -(k : ℤ) by omega, zpow_neg, zpow_natCast, mul_one]
    exact div_eq_mul_inv _ _
  · have hread := readFixed_showFixed n 5 (showExponent x) (by rintro c ⟨⟩; decide)
      (by simp [showExponent])
    refine ⟨head_showFixed n 5 _, _, _, _, hread, ?_, readExponent_showExponent x, ?_⟩
    · rw [List.length_append]
      have := length_showFixed_pos n 5
      omega
    · rw [zpow_sub₀ (by norm_num)]
      norm_num
      ring

theorem readDouble_showPositive (q : ℚ) :
    readDouble (showPositive q) = some (roundPositive q) ∧
      readDouble ('-' :: showPositive q) = some (-roundPositive q) := by
  obtain ⟨⟨c, cs, hcs, hc⟩, n, rest, factor, hfixed, hlen, hexp, heq⟩ := readFixed_showPositive q
  have hsign : readSign (showPositive q) = (1, showPositive q) := by
    rw [hcs]
    exact readSign_of_isDigit hc
  constructor
  · simp [readDouble, hsign, hfixed, hlen, hexp, ← heq]
  · simp [readDouble, readSign, hfixed, hlen, hexp, ← heq]

/-- What is read back of a number is its value with six digits. -/
theorem readDouble_showDouble (q : ℚ) : readDouble (showDouble q) = some (sixDigitValue q) := by
  unfold showDouble sixDigitValue
  split_ifs
  · decide +kernel
  · exact (readDouble_showPositive (-q)).2
  · exact (readDouble_showPositive q).1

/-! ### The characters of a number -/

/-- A character of a number. -/
def isNumeral (c : Char) : Bool := c.isDigit || c == '.' || c == '-' || c == '+' || c == 'e'

/-- A text that may be a number. -/
def Numeral (text : List Char) : Prop := text ≠ [] ∧ ∀ c ∈ text, isNumeral c = true

theorem numeral_showDigits {k : ℕ} (hk : 0 < k) (n : ℕ) : Numeral (showDigits k n) := by
  refine ⟨List.ne_nil_of_length_pos (by rwa [length_showDigits]), fun c hc => ?_⟩
  simp [isNumeral, isDigit_of_mem_showDigits hc]

theorem numeral_showNat (n : ℕ) : Numeral (showNat n) := numeral_showDigits (Nat.succ_pos _) n

theorem Numeral.cons {c : Char} {text : List Char} (hc : isNumeral c = true) (h : Numeral text) :
    Numeral (c :: text) :=
  ⟨List.cons_ne_nil _ _, List.forall_mem_cons.mpr ⟨hc, h.2⟩⟩

theorem Numeral.append {text text' : List Char} (h : Numeral text) (h' : Numeral text') :
    Numeral (text ++ text') :=
  ⟨by simp [h.1], List.forall_mem_append.mpr ⟨h.2, h'.2⟩⟩

theorem numeral_showFixed (n k : ℕ) : Numeral (showFixed n k) := by
  unfold showFixed
  split
  · exact numeral_showNat _
  · exact (numeral_showNat _).append ((numeral_showDigits (Nat.succ_pos _) _).cons (by decide))

theorem numeral_showExponent (x : ℤ) : Numeral (showExponent x) := by
  refine .cons (by decide) (.cons ?_ (numeral_showDigits (by omega) _))
  split_ifs <;> decide

theorem numeral_showPositive (q : ℚ) : Numeral (showPositive q) := by
  unfold showPositive
  obtain ⟨n, x⟩ := sixDigits q
  simp only
  split_ifs
  · exact numeral_showFixed _ _
  · exact (numeral_showFixed _ _).append (numeral_showExponent _)

theorem numeral_showDouble (q : ℚ) : Numeral (showDouble q) := by
  unfold showDouble
  split_ifs
  · exact numeral_showNat 0
  · exact (numeral_showPositive _).cons (by decide)
  · exact numeral_showPositive q

/-! ### Numbers with six digits -/

theorem roundEven_natCast (n : ℕ) : roundEven n = n := by
  rw [roundEven, Int.floor_natCast]
  norm_num

/-- A number of at most six significant digits. -/
def HasSixDigits (q : ℚ) : Prop := ∃ m e : ℤ, |m| < 10 ^ 6 ∧ q = m * 10 ^ e

theorem roundEven_le (q : ℚ) : roundEven q ≤ ⌊q⌋ + 1 := by
  unfold roundEven
  split_ifs <;> omega

/-- The scaled number that is rounded has six digits in front of the decimal point. -/
theorem scaled_bounds {q : ℚ} (hq : 0 < q) :
    10 ^ 5 ≤ q / 10 ^ (Int.log 10 q - 5) ∧ q / 10 ^ (Int.log 10 q - 5) < 10 ^ 6 := by
  have hle := Int.zpow_log_le_self (b := 10) (by decide) hq
  have hlt := Int.lt_zpow_succ_log_self (b := 10) (by decide) q
  set x := Int.log 10 q
  have hpos : (0 : ℚ) < 10 ^ (x - 5) := zpow_pos (by norm_num) _
  have h₅ : (10 : ℚ) ^ 5 * 10 ^ (x - 5) = 10 ^ x := by
    rw [← zpow_natCast, ← zpow_add₀ (by norm_num)]
    congr 1
    omega
  have h₆ : (10 : ℚ) ^ 6 * 10 ^ (x - 5) = 10 ^ (x + 1) := by
    rw [← zpow_natCast, ← zpow_add₀ (by norm_num)]
    congr 1
    omega
  rw [le_div_iff₀ hpos, div_lt_iff₀ hpos, h₅, h₆]
  exact ⟨by exact_mod_cast hle, by exact_mod_cast hlt⟩

theorem sixDigits_fst_lt {q : ℚ} (hq : 0 < q) : (sixDigits q).1 < 10 ^ 6 := by
  have hlt := Int.floor_lt (a := q / 10 ^ (Int.log 10 q - 5)) (z := 10 ^ 6) |>.mpr
    (by exact_mod_cast (scaled_bounds hq).2)
  have hle := roundEven_le (q / 10 ^ (Int.log 10 q - 5))
  simp only [sixDigits]
  split_ifs <;> omega

/-- Rounding leaves a positive number with six digits as it is, whatever its exponent. -/
theorem roundPositive_eq {q : ℚ} (hq : 0 < q) (h : HasSixDigits q) : roundPositive q = q := by
  obtain ⟨m, e, hm, rfl⟩ := h
  obtain ⟨hlo, hhi⟩ := scaled_bounds hq
  set x := Int.log 10 ((m : ℚ) * 10 ^ e) with hx
  have hten : ∀ k : ℤ, (0 : ℚ) < 10 ^ k := fun k => zpow_pos (by norm_num) k
  have hmpos : 0 < m := by
    have := (mul_pos_iff_of_pos_right (hten e)).mp hq
    exact_mod_cast this
  have hscaled : (m : ℚ) * 10 ^ e / 10 ^ (x - 5) = m * 10 ^ (e - (x - 5)) := by
    rw [zpow_sub₀ (by norm_num : (10 : ℚ) ≠ 0) e, mul_div_assoc]
  -- with fewer digits in front of the decimal point there would be more than six
  have hexp : 0 ≤ e - (x - 5) := by
    by_contra hneg
    have hle : (10 : ℚ) ^ (e - (x - 5)) ≤ 10 ^ (-1 : ℤ) :=
      zpow_le_zpow_right₀ (by norm_num) (by omega)
    have hm' : (m : ℚ) < 10 ^ 6 := by exact_mod_cast (abs_lt.mp hm).2
    have hmul := mul_le_mul_of_nonneg_left hle (Int.cast_nonneg hmpos.le : (0 : ℚ) ≤ m)
    rw [hscaled] at hlo
    norm_num at hmul hlo hm'
    linarith
  obtain ⟨j, hj⟩ := Int.eq_ofNat_of_zero_le hexp
  obtain ⟨n, rfl⟩ := Int.eq_ofNat_of_zero_le hmpos.le
  have hnat : ((n : ℤ) : ℚ) * 10 ^ e / 10 ^ (x - 5) = (n * 10 ^ j : ℕ) := by
    rw [hscaled, hj]
    push_cast
    rw [zpow_natCast]
  have hlt : n * 10 ^ j < 10 ^ 6 := by
    rw [hnat] at hhi
    exact_mod_cast hhi
  have hdigits : sixDigits (((n : ℤ) : ℚ) * 10 ^ e) = (n * 10 ^ j, x) := by
    simp only [sixDigits, ← hx]
    rw [hnat, roundEven_natCast, Int.toNat_natCast, if_neg (by omega)]
  rw [roundPositive, hdigits, ← hnat]
  exact div_mul_cancel₀ _ (hten _).ne'

theorem hasSixDigits_neg {q : ℚ} (h : HasSixDigits q) : HasSixDigits (-q) := by
  obtain ⟨m, e, hm, rfl⟩ := h
  exact ⟨-m, e, by rwa [abs_neg], by push_cast; ring⟩

theorem hasSixDigits_roundPositive {q : ℚ} (hq : 0 < q) : HasSixDigits (roundPositive q) :=
  ⟨(sixDigits q).1, (sixDigits q).2 - 5, by
    rw [Nat.abs_cast]
    exact_mod_cast sixDigits_fst_lt hq, by rw [roundPositive, Int.cast_natCast]⟩

theorem hasSixDigits_sixDigitValue (q : ℚ) : HasSixDigits (sixDigitValue q) := by
  unfold sixDigitValue
  rcases lt_trichotomy q 0 with hneg | rfl | hpos
  · rw [if_neg hneg.ne, if_pos hneg]
    exact hasSixDigits_neg (hasSixDigits_roundPositive (neg_pos.mpr hneg))
  · rw [if_pos rfl]
    exact ⟨0, 0, by norm_num, by norm_num⟩
  · rw [if_neg hpos.ne', if_neg hpos.le.not_gt]
    exact hasSixDigits_roundPositive hpos

/-- The numbers that are read back as they are. -/
theorem sixDigitValue_eq_iff (q : ℚ) : sixDigitValue q = q ↔ HasSixDigits q := by
  refine ⟨fun h => h ▸ hasSixDigits_sixDigitValue q, fun h => ?_⟩
  unfold sixDigitValue
  rcases lt_trichotomy q 0 with hneg | rfl | hpos
  · rw [if_neg hneg.ne, if_pos hneg, roundPositive_eq (neg_pos.mpr hneg) (hasSixDigits_neg h),
      neg_neg]
  · rw [if_pos rfl]
  · rw [if_neg hpos.ne', if_neg hpos.le.not_gt, roundPositive_eq hpos h]

/-- Nothing is lost a second time. -/
theorem sixDigitValue_sixDigitValue (q : ℚ) :
    sixDigitValue (sixDigitValue q) = sixDigitValue q :=
  (sixDigitValue_eq_iff _).mpr (hasSixDigits_sixDigitValue q)

end Decimal
