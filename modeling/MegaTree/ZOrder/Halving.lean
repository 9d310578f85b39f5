import Mathlib.Algebra.Order.Field.Basic
import Mathlib.Algebra.Order.Floor.Semiring
import Mathlib.Data.Nat.Digits.Lemmas
import Mathlib.Tactic.FieldSimp
import Mathlib.Tactic.Linarith
import Mathlib.Tactic.Ring

/-!
# Halving a box

A box is halved along its three axes again and again, and the octants in which a point lies are
written down.  The sequence of octants, read as an octal number, is that of the three cell numbers
with their bits spread apart and put side by side, and the lexicographic order of the sequences is
the order of the numbers.

* `cell_eq_floor` : the number of a cell, without the loop.
* `ofDigits_octantPath` : the octants as a number.
* `compare_ofDigits_reverse` : the lexicographic order of sequences of digits.
-/

namespace ZOrder

/-! ### Sequences of digits -/

theorem ofDigits_reverse_cons (b d : ℕ) (l : List ℕ) :
    Nat.ofDigits b (d :: l).reverse = d * b ^ l.length + Nat.ofDigits b l.reverse := by
  rw [List.reverse_cons, Nat.ofDigits_append, Nat.ofDigits_singleton, List.length_reverse,
    Nat.mul_comm, Nat.add_comm]

/-- Sequences of digits of the same length, the most significant digit first, are ordered like the
numbers that they stand for. -/
theorem compare_ofDigits_reverse {b : ℕ} (hb : 1 < b) {l l' : List ℕ} (hlen : l.length = l'.length)
    (hl : ∀ d ∈ l, d < b) (hl' : ∀ d ∈ l', d < b) :
    compare l l' = compare (Nat.ofDigits b l.reverse) (Nat.ofDigits b l'.reverse) := by
  induction l generalizing l' with
  | nil =>
    obtain rfl := List.length_eq_zero_iff.1 hlen.symm
    rfl
  | cons d l ih =>
    cases l' with
    | nil => cases hlen
    | cons d' l' =>
      have hlen' : l.length = l'.length := Nat.succ.inj hlen
      obtain ⟨-, hl⟩ := List.forall_mem_cons.1 hl
      obtain ⟨-, hl'⟩ := List.forall_mem_cons.1 hl'
      have hlt := Nat.ofDigits_lt_base_pow_length hb (l := l.reverse) (by simpa using hl)
      have hlt' := Nat.ofDigits_lt_base_pow_length hb (l := l'.reverse) (by simpa using hl')
      rw [List.length_reverse] at hlt hlt'
      rw [List.compare_cons_cons, ih hlen' hl hl', ofDigits_reverse_cons, ofDigits_reverse_cons,
        hlen']
      rw [hlen'] at hlt
      generalize Nat.ofDigits b l.reverse = x at hlt ⊢
      generalize Nat.ofDigits b l'.reverse = y at hlt' ⊢
      -- The first digits decide, unless they are equal.
      rcases Nat.lt_trichotomy d d' with h | rfl | h
      · have hmul : (d + 1) * b ^ l'.length ≤ d' * b ^ l'.length := Nat.mul_le_mul_right _ h
        rw [Nat.succ_mul] at hmul
        have hvalue : d * b ^ l'.length + x < d' * b ^ l'.length + y := by omega
        rw [Nat.compare_eq_lt.2 h, Nat.compare_eq_lt.2 hvalue]
        rfl
      · simp only [Nat.compare_eq_ite_lt, Nat.lt_irrefl, ↓reduceIte, Ordering.then,
          Nat.add_lt_add_iff_left]
      · have hmul : (d' + 1) * b ^ l'.length ≤ d * b ^ l'.length := Nat.mul_le_mul_right _ h
        rw [Nat.succ_mul] at hmul
        have hvalue : d' * b ^ l'.length + y < d * b ^ l'.length + x := by omega
        rw [Nat.compare_eq_gt.2 h, Nat.compare_eq_gt.2 hvalue]
        rfl

/-! ### One axis -/

section Axis

variable {K : Type*} [Field K] [LinearOrder K]

/-- The number of the cell in which `p` lies after an interval was halved `n` times; what lies on
the upper end belongs to the last cell. -/
def cell : ℕ → K → K → K → ℕ
  | 0, _, _, _ => 0
  | n + 1, lo, hi, p =>
    let mid := (lo + hi) / 2
    if mid ≤ p then 2 ^ n + cell n mid hi p else cell n lo mid p

theorem cell_lt (n : ℕ) (lo hi p : K) : cell n lo hi p < 2 ^ n := by
  induction n generalizing lo hi with
  | zero => exact Nat.one_pos
  | succ n ih =>
    rw [cell, pow_succ]
    split_ifs
    · have := ih ((lo + hi) / 2) hi
      omega
    · have := ih lo ((lo + hi) / 2)
      omega

variable [IsStrictOrderedRing K]

/-- The cell of a point that is not on the upper end contains it. -/
theorem cell_mul_le (n : ℕ) {lo hi p : K} (hlo : lo ≤ p) (hhi : p < hi) :
    cell n lo hi p * (hi - lo) ≤ (p - lo) * 2 ^ n ∧
      (p - lo) * 2 ^ n < (cell n lo hi p + 1) * (hi - lo) := by
  induction n generalizing lo hi with
  | zero =>
    simp only [cell, Nat.cast_zero, zero_mul, pow_zero, mul_one, zero_add, one_mul]
    exact ⟨sub_nonneg.2 hlo, sub_lt_sub_right hhi lo⟩
  | succ n ih =>
    rw [cell, pow_succ]
    split_ifs with h
    · obtain ⟨h₁, h₂⟩ := ih h hhi
      push_cast
      constructor <;> linarith
    · obtain ⟨h₁, h₂⟩ := ih hlo (lt_of_not_ge h)
      constructor <;> linarith

theorem cell_eq_floor [FloorSemiring K] (n : ℕ) {lo hi p : K} (hlo : lo ≤ p) (hhi : p < hi) :
    cell n lo hi p = ⌊(p - lo) / (hi - lo) * 2 ^ n⌋₊ := by
  obtain ⟨h₁, h₂⟩ := cell_mul_le n hlo hhi
  have hpos : 0 < hi - lo := sub_pos.2 (hlo.trans_lt hhi)
  have hp : 0 ≤ p - lo := sub_nonneg.2 hlo
  symm
  rw [Nat.floor_eq_iff (by positivity), div_mul_eq_mul_div, le_div_iff₀ hpos, div_lt_iff₀ hpos]
  exact ⟨h₁, h₂⟩

/-- The upper end belongs to the last cell. -/
theorem cell_self (n : ℕ) {lo hi : K} (h : lo ≤ hi) : cell n lo hi hi + 1 = 2 ^ n := by
  induction n generalizing lo with
  | zero => rfl
  | succ n ih =>
    have hmid : (lo + hi) / 2 ≤ hi := by linarith
    rw [cell, if_pos hmid, Nat.add_assoc, ih hmid, pow_succ]
    omega

end Axis

/-! ### Three axes -/

/-- The `n` low bits of a number, each with two zero bits above it. -/
def spread : ℕ → ℕ → ℕ
  | 0, _ => 0
  | n + 1, c => c / 2 ^ n * 8 ^ n + spread n (c % 2 ^ n)

section Box

variable {K : Type*} [Field K] [LinearOrder K]

/-- The octants in which `p` lies while a box is halved `n` times, numbered `4 z + 2 y + x`. -/
def octantPath : ℕ → (Fin 3 → K) → (Fin 3 → K) → (Fin 3 → K) → List ℕ
  | 0, _, _, _ => []
  | n + 1, lo, hi, p =>
    let mid a := (lo a + hi a) / 2
    let upper a := if mid a ≤ p a then 1 else 0
    (4 * upper 2 + 2 * upper 1 + upper 0) ::
      octantPath n (fun a => if mid a ≤ p a then mid a else lo a)
        (fun a => if mid a ≤ p a then hi a else mid a) p

theorem length_octantPath (n : ℕ) (lo hi p : Fin 3 → K) : (octantPath n lo hi p).length = n := by
  induction n generalizing lo hi with
  | zero => rfl
  | succ n ih => rw [octantPath, List.length_cons, ih]

theorem octantPath_lt (n : ℕ) (lo hi p : Fin 3 → K) : ∀ d ∈ octantPath n lo hi p, d < 8 := by
  induction n generalizing lo hi with
  | zero => exact fun d hd => absurd hd List.not_mem_nil
  | succ n ih =>
    refine List.forall_mem_cons.2 ⟨?_, ih _ _⟩
    beta_reduce
    split_ifs <;> decide

theorem spread_succ {n u c : ℕ} (hc : c < 2 ^ n) :
    spread (n + 1) (u * 2 ^ n + c) = u * 8 ^ n + spread n c := by
  rw [spread, Nat.mul_comm u, Nat.mul_add_div (Nat.two_pow_pos n), Nat.div_eq_of_lt hc,
    Nat.add_zero, Nat.mul_add_mod, Nat.mod_eq_of_lt hc]

/-- The octants of a point, as an octal number. -/
theorem ofDigits_octantPath (n : ℕ) (lo hi p : Fin 3 → K) :
    Nat.ofDigits 8 (octantPath n lo hi p).reverse =
      4 * spread n (cell n (lo 2) (hi 2) (p 2)) + 2 * spread n (cell n (lo 1) (hi 1) (p 1)) +
        spread n (cell n (lo 0) (hi 0) (p 0)) := by
  induction n generalizing lo hi with
  | zero => rfl
  | succ n ih =>
    have hcell (a : Fin 3) : spread (n + 1) (cell (n + 1) (lo a) (hi a) (p a)) =
        (if (lo a + hi a) / 2 ≤ p a then 1 else 0) * 8 ^ n +
          spread n (cell n (if (lo a + hi a) / 2 ≤ p a then (lo a + hi a) / 2 else lo a)
            (if (lo a + hi a) / 2 ≤ p a then hi a else (lo a + hi a) / 2) (p a)) := by
      rw [← spread_succ (cell_lt n _ _ _), cell]
      split_ifs <;> simp
    rw [octantPath, ofDigits_reverse_cons, length_octantPath, ih, hcell 0, hcell 1, hcell 2]
    ring

end Box

end ZOrder
