import Mathlib.Algebra.Order.Field.Basic
import Mathlib.Data.List.MinMax
import Mathlib.Data.Nat.Cast.Order.Field
import Mathlib.Data.Rat.Defs
import Mathlib.Tactic.Linarith
import Mathlib.Tactic.Ring

/-!
# Running means of single values

Values are taken into an integer mean one at a time: the mean `p` of `N` values becomes
`⌊(p * N + x) / (N + 1)⌋`.  Every step rounds down, and the next one starts from the rounded mean.

`Tracks xs p` says what remains: `p` lies between the values, not above their mean, and below it by
at most half a unit for every value after the first.  `Tracks.concat` adds a value.
`next_of_le` shows that nothing better holds: ascending values may not move the mean at all.
-/

namespace RunningMean

/-- The mean after one more value. -/
def next (p N x : ℕ) : ℕ := (p * N + x) / (N + 1)

/-- The exact mean. -/
def exactMean (xs : List ℕ) : ℚ := xs.sum / xs.length

/-- What an integer mean of the values keeps. -/
structure Tracks (xs : List ℕ) (p : ℕ) : Prop where
  le_value : ∃ x ∈ xs, x ≤ p
  value_le : ∃ x ∈ xs, p ≤ x
  le_mean : p ≤ exactMean xs
  mean_le : exactMean xs ≤ p + (xs.length - 1) / 2

variable {p N x : ℕ} {xs : List ℕ}

/-- The two bounds that define the rounding. -/
theorem next_bounds (p N x : ℕ) :
    next p N x * (N + 1) ≤ p * N + x ∧ p * N + x ≤ next p N x * (N + 1) + N := by
  have h := Nat.div_add_mod (p * N + x) (N + 1)
  have hlt : (p * N + x) % (N + 1) < N + 1 := Nat.mod_lt _ (Nat.succ_pos N)
  rw [Nat.mul_comm] at h
  unfold next
  omega

theorem le_next {lo : ℕ} (hp : lo ≤ p) (hx : lo ≤ x) : lo ≤ next p N x := by
  rw [next, Nat.le_div_iff_mul_le (Nat.succ_pos N), Nat.mul_succ]
  exact Nat.add_le_add (Nat.mul_le_mul_right N hp) hx

theorem next_le {hi : ℕ} (hp : p ≤ hi) (hx : x ≤ hi) : next p N x ≤ hi := by
  refine Nat.div_le_of_le_mul ?_
  rw [Nat.mul_comm (N + 1), Nat.mul_succ]
  exact Nat.add_le_add (Nat.mul_le_mul_right N hp) hx

/-- A value that exceeds the mean by at most the number of values so far is lost. -/
theorem next_of_le (h₁ : p ≤ x) (h₂ : x ≤ p + N) : next p N x = p := by
  rw [next, Nat.div_eq_iff (Nat.succ_pos N)]
  constructor <;> · rw [Nat.mul_succ]; omega

theorem Tracks.single (x : ℕ) : Tracks [x] x where
  le_value := ⟨x, List.mem_singleton_self x, le_rfl⟩
  value_le := ⟨x, List.mem_singleton_self x, le_rfl⟩
  le_mean := by simp [exactMean]
  mean_le := by simp [exactMean]

/-- One value more. -/
theorem Tracks.concat (h : Tracks xs p) (x : ℕ) : Tracks (xs ++ [x]) (next p xs.length x) := by
  obtain ⟨⟨a, ha, hap⟩, ⟨b, hb, hpb⟩, hle, hge⟩ := h
  have hpos : (0 : ℚ) < xs.length := by exact_mod_cast List.length_pos_of_mem ha
  rw [exactMean, le_div_iff₀ hpos] at hle
  rw [exactMean, div_le_iff₀ hpos] at hge
  obtain ⟨hlow, hhigh⟩ := next_bounds p xs.length x
  have hlow' : (next p xs.length x : ℚ) * (xs.length + 1) ≤ p * xs.length + x := by
    exact_mod_cast hlow
  have hhigh' : (p : ℚ) * xs.length + x ≤ next p xs.length x * (xs.length + 1) + xs.length := by
    exact_mod_cast hhigh
  have hsum : exactMean (xs ++ [x]) = (xs.sum + x) / (xs.length + 1) := by simp [exactMean]
  constructor
  · rcases le_total a x with hax | hxa
    · exact ⟨a, List.mem_append_left _ ha, le_next hap hax⟩
    · exact ⟨x, by simp, le_next (hxa.trans hap) le_rfl⟩
  · rcases le_total x b with hxb | hbx
    · exact ⟨b, List.mem_append_left _ hb, next_le hpb hxb⟩
    · exact ⟨x, by simp, next_le (hpb.trans hbx) le_rfl⟩
  · rw [hsum, le_div_iff₀ (by positivity)]
    linarith
  · -- the errors so far add up to `N (N - 1) / 2`, and the last rounding adds at most `N`
    rw [hsum, div_le_iff₀ (by positivity)]
    simp only [List.length_append, List.length_singleton, Nat.cast_add, Nat.cast_one]
    linarith

end RunningMean
