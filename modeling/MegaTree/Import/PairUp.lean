import Mathlib.Data.List.Flatten
import Mathlib.Data.List.Perm.Basic
import Mathlib.Tactic.Basic

/-!
# Merging sorted lists two by two

One level of a bottom-up merge sort: neighbours in a list of lists are merged, a last list without
a neighbour is kept.

* `Merges r m` : `m` merges lists that are ordered by `r`.
* `pairUp m` : one level.  It keeps the elements (`flatten_pairUp_perm`) and the order of each list
  (`pairwise_of_mem_pairUp`), and it makes the list of lists shorter (`length_pairUp`).
-/

namespace MegaTree

variable {α : Type*} {r : α → α → Prop} {m : List α → List α → List α}

/-- `m` merges two lists that are ordered by `r` into one. -/
structure Merges (r : α → α → Prop) (m : List α → List α → List α) : Prop where
  perm : ∀ l₁ l₂, (m l₁ l₂).Perm (l₁ ++ l₂)
  pairwise : ∀ {l₁ l₂}, l₁.Pairwise r → l₂.Pairwise r → (m l₁ l₂).Pairwise r

/-- The lists at positions `2 * j` and `2 * j + 1` are merged. -/
def pairUp (m : List α → List α → List α) : List (List α) → List (List α)
  | [] => []
  | [l] => [l]
  | l₁ :: l₂ :: ls => m l₁ l₂ :: pairUp m ls

theorem length_pairUp (ls : List (List α)) : (pairUp m ls).length = (ls.length + 1) / 2 := by
  fun_induction pairUp m ls with
  | case1 => simp
  | case2 l => simp
  | case3 l₁ l₂ ls ih => simp only [List.length_cons, ih]; omega

theorem getElem?_pairUp {ls : List (List α)} {j : ℕ} {l₁ l₂ : List α}
    (h₁ : ls[2 * j]? = some l₁) (h₂ : ls[2 * j + 1]? = some l₂) :
    (pairUp m ls)[j]? = some (m l₁ l₂) := by
  fun_induction pairUp m ls generalizing j with
  | case1 => simp at h₁
  | case2 l => simp at h₂
  | case3 k₁ k₂ ls ih =>
    cases j with
    | zero => simp_all
    | succ j => exact ih (by simpa [Nat.mul_succ] using h₁) (by simpa [Nat.mul_succ] using h₂)

/-- A last list without a neighbour is kept. -/
theorem getElem?_pairUp_last {ls : List (List α)} {j : ℕ} {l : List α}
    (h : ls[2 * j]? = some l) (hlen : ls.length = 2 * j + 1) : (pairUp m ls)[j]? = some l := by
  fun_induction pairUp m ls generalizing j with
  | case1 => simp at h
  | case2 k =>
    obtain rfl : j = 0 := by simp only [List.length_singleton] at hlen; omega
    exact h
  | case3 k₁ k₂ ls ih =>
    cases j with
    | zero => simp at hlen
    | succ j =>
      refine ih (by simpa [Nat.mul_succ] using h) ?_
      simp only [List.length_cons] at hlen
      omega

theorem flatten_pairUp_perm (hm : Merges r m) (ls : List (List α)) :
    (pairUp m ls).flatten.Perm ls.flatten := by
  fun_induction pairUp m ls with
  | case1 => exact .refl _
  | case2 l => exact .refl _
  | case3 l₁ l₂ ls ih =>
    rw [List.flatten_cons, List.flatten_cons, List.flatten_cons, ← List.append_assoc]
    exact (hm.perm l₁ l₂).append ih

theorem pairwise_of_mem_pairUp (hm : Merges r m) {ls : List (List α)}
    (h : ∀ l ∈ ls, l.Pairwise r) : ∀ l ∈ pairUp m ls, l.Pairwise r := by
  fun_induction pairUp m ls with
  | case1 => exact h
  | case2 l => exact h
  | case3 l₁ l₂ ls ih =>
    simp only [List.forall_mem_cons] at h ⊢
    exact ⟨hm.pairwise h.1 h.2.1, ih h.2.2⟩

theorem ne_nil_of_mem_pairUp (hm : Merges r m) {ls : List (List α)} (h : ∀ l ∈ ls, l ≠ []) :
    ∀ l ∈ pairUp m ls, l ≠ [] := by
  fun_induction pairUp m ls with
  | case1 => exact h
  | case2 l => exact h
  | case3 l₁ l₂ ls ih =>
    simp only [List.forall_mem_cons] at h ⊢
    refine ⟨fun hnil => h.1 ?_, ih h.2.2⟩
    have hlen := (hm.perm l₁ l₂).length_eq
    rw [hnil, List.length_nil, List.length_append] at hlen
    exact List.length_eq_zero_iff.mp (by omega)

end MegaTree
