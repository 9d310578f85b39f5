import Mathlib.Algebra.BigOperators.Group.Finset.Basic
import Mathlib.Tactic.Linarith
import Mathlib.Tactic.LinearCombination
import Mathlib.Tactic.Positivity
import Mathlib.Tactic.Ring

/-!
# Running means in integers

A mean is kept as an integer `p`, together with the weight `N` of what it is the mean of, but
without the sum `s`.  When the sum changes by `Δ` and the weight by `d`, the new mean is computed
from the old one as `⌊(p * N + Δ) / (N + d)⌋`: the rounding errors add up.

`Drift lo hi s w p` says how far `p` is from `⌊s / w⌋`.  `Drift.update` bounds the drift after an
update.  It allows for a scale: when the true mean is `s / (c * N)`, so that `Δ` is `c` times too
large in the numerator, the update still drifts by only one unit if `Δ` is small against the weight.
-/

namespace RunningMean

/-- The integer `p` is at most `lo` below and at most `hi` above the mean `⌊s / w⌋`. -/
structure Drift (lo hi s w p : ℕ) : Prop where
  le_add : s / w ≤ p + lo
  add_le : p ≤ s / w + hi

variable {lo hi lo' hi' s s' w p p' N d c : ℕ} {Δ : ℤ}

theorem Drift.of_eq (h : p = s / w) : Drift lo hi s w p := ⟨by omega, by omega⟩

theorem Drift.mono (h : Drift lo hi s w p) (hl : lo ≤ lo') (hh : hi ≤ hi') :
    Drift lo' hi' s w p := ⟨by have := h.le_add; omega, by have := h.add_le; omega⟩

/-- One update of a running mean. -/
theorem Drift.update (hc : 0 < c) (hN : 0 < N + d) (h : N ≠ 0 → Drift lo hi s (c * N) p)
    (h0 : N = 0 → s = 0) (hs : (s' : ℤ) = s + Δ)
    (hp : (p' : ℤ) = ((p * N : ℕ) + Δ) / ((N + d : ℕ) : ℤ))
    (hup : (c - 1) * Δ ≤ c * (hi' * (N + d) - hi * N))
    (hdown : -c ≤ (c - 1) * Δ + c * (lo' * (N + d) - (lo + 1) * N)) :
    Drift lo' hi' s' (c * (N + d)) p' := by
  have hc' : (0 : ℤ) < c := by exact_mod_cast hc
  have hN' : (0 : ℤ) < N + d := by exact_mod_cast hN
  have hK : (0 : ℤ) < c * (N + d) := mul_pos hc' hN'
  -- the three divisions, with their remainders
  obtain ⟨q, R, hsum, hR0, hR, hq⟩ : ∃ q R : ℤ, (s : ℤ) = c * N * q + R ∧ 0 ≤ R ∧
      (R + 1 ≤ c * N ∨ N = 0 ∧ R = 0) ∧ N * q ≤ N * (p + lo) ∧ N * p ≤ N * (q + hi) := by
    by_cases hz : N = 0
    · exact ⟨0, 0, by rw [h0 hz]; simp, le_rfl, .inr ⟨hz, rfl⟩, by simp [hz], by simp [hz]⟩
    · have hm : 0 < c * N := Nat.mul_pos hc (Nat.pos_of_ne_zero hz)
      obtain ⟨h₁, h₂⟩ := h hz
      refine ⟨(s / (c * N) : ℕ), (s % (c * N) : ℕ), ?_, Int.natCast_nonneg _, .inl ?_, ?_, ?_⟩
      · have := Nat.div_add_mod s (c * N)
        exact_mod_cast this.symm
      · exact_mod_cast Nat.mod_lt s hm
      · exact_mod_cast Nat.mul_le_mul_left N h₁
      · exact_mod_cast Nat.mul_le_mul_left N h₂
  obtain ⟨r, hnew, hr0, hr⟩ : ∃ r : ℤ, p * N + Δ = (N + d) * p' + r ∧ 0 ≤ r ∧ r + 1 ≤ N + d := by
    refine ⟨(p * N + Δ) % (N + d), ?_, Int.emod_nonneg _ hN'.ne', Int.emod_lt_of_pos _ hN'⟩
    push_cast at hp
    rw [hp]
    exact (Int.mul_ediv_add_emod _ _).symm
  obtain ⟨q', R', hsum', hR0', hR', hq'⟩ : ∃ q' R' : ℤ, (s' : ℤ) = c * (N + d) * q' + R' ∧ 0 ≤ R' ∧
      R' + 1 ≤ c * (N + d) ∧ q' = (s' / (c * (N + d)) : ℕ) := by
    refine ⟨(s' / (c * (N + d)) : ℕ), (s' % (c * (N + d)) : ℕ), ?_, Int.natCast_nonneg _, ?_, rfl⟩
    · have := Nat.div_add_mod s' (c * (N + d))
      exact_mod_cast this.symm
    · exact_mod_cast Nat.mod_lt s' (Nat.mul_pos hc hN)
  -- the new error, multiplied by the new weight
  have key : c * (N + d) * (p' - q') = (c - 1) * Δ + c * (N * p - N * q) + R' - R - c * r := by
    linear_combination hsum' - hsum - hs - c * hnew
  have hcq := mul_le_mul_of_nonneg_left hq.1 hc'.le
  have hcp := mul_le_mul_of_nonneg_left hq.2 hc'.le
  have hcr := mul_nonneg hc'.le hr0
  have hcr' := mul_le_mul_of_nonneg_left hr hc'.le
  have high : p' - q' < hi' + 1 := by
    refine lt_of_mul_lt_mul_left ?_ hK.le
    rw [key]
    linarith
  have low : -(lo' + 1 : ℤ) < p' - q' := by
    refine lt_of_mul_lt_mul_left ?_ hK.le
    rw [key]
    rcases hR with hR | ⟨hz, hRz⟩
    · linarith
    · -- the first update: the old mean does not count, and the new sum is `Δ`
      have hΔ : 0 ≤ Δ := by
        have := Int.natCast_nonneg s'
        rw [hs, h0 hz] at this
        simpa using this
      have hcΔ : 0 ≤ (c - 1) * Δ := mul_nonneg (by linarith) hΔ
      have hlo : (0 : ℤ) ≤ c * (lo' * d) := by positivity
      subst hz hRz
      simp only [Nat.cast_zero, zero_add, zero_mul, mul_zero] at *
      linarith
  constructor <;> omega

end RunningMean
