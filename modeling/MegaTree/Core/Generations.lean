import MegaTree.Core.FilePath

/-!
# Moving up several generations

`getParent(generations)` drops several digits with one shift of each word.  The mask of the digits
that move to the lower word is `(1 << 3 * generations) - 1`, where the `1` is an `int`: from eleven
generations on it is shifted by more than the width of its type.

* `movesUp_iff` : the result is that of so many single steps, with no shift too wide, exactly up to
  ten generations, and where the id has no digits left.
* `not_movesUp` : an id that uses the upper word, eleven generations up.
-/

namespace MegaTree

namespace LongId

/-- The shifts that `getParent(generations)` executes, each with the width of what is shifted: the
lower word, the `1` of the mask, the digits of the upper word and the upper word. -/
def parentShifts (id : LongId) (generations : ℕ) : List (ℕ × ℕ) :=
  if id.idLevel ≤ generations then []
  else
    let shift := 3 * generations
    [(shift, 64), (shift, 32), (64 - shift, 64), (shift, 64)]

/-- Moving up several generations is moving up one at a time, and no shift is too wide. -/
structure MovesUp (id : LongId) (generations : ℕ) : Prop where
  parent : id.getParent generations = (fun id => id.getParent 1)^[generations] id
  shifts : ∀ s ∈ id.parentShifts generations, s.1 < s.2

/-- A child knows its parent and its number, and is one level below. -/
def ChildrenReturn (id : LongId) : Prop :=
  id.idLevel < 42 → ∀ c : ChildNr, ∃ child, id.getChild c = .ok child ∧ child.getParent 1 = id ∧
    child.getChildNr = c ∧ child.idLevel = id.idLevel + 1

end LongId

open LongId

variable {π : Path} {g : ℕ}

/-- Single steps up drop single digits, and stay at the invalid id. -/
theorem iterate_getParent (h : π.length ≤ maxDepth) (g : ℕ) :
    (fun id : LongId => id.getParent 1)^[g] (idOf π) =
      if g ≤ π.length then idOf (π.drop g) else .ofValue 0 := by
  induction g generalizing π with
  | zero => simp
  | succ g ih =>
    rw [Function.iterate_succ_apply]
    cases π with
    | nil =>
      rw [getParent_of_le (by rw [idOf_idLevel]; rfl), if_neg (by simp)]
      exact Function.iterate_fixed (getParent_of_le (Nat.zero_le 1)) g
    | cons c π =>
      rw [List.length_cons] at h
      rw [getParent_idOf_cons h, ih (by omega)]
      simp

theorem childrenReturn_idOf (π : Path) : (idOf π).ChildrenReturn := by
  intro hlt c
  have hlen : π.length + 1 ≤ maxDepth := by
    rw [idOf_idLevel] at hlt
    simp only [maxDepth]
    omega
  exact ⟨idOf (c :: π), getChild_of_lt hlt c, getParent_idOf_cons hlen, getChildNr_idOf_cons hlen,
    childId_idLevel _ c⟩

/-- **Moving up several generations at once is moving up one at a time up to ten generations**, and
where no digit is left.  Beyond that the mask is computed with a shift that is too wide. -/
theorem movesUp_iff (h : π.length ≤ maxDepth) (h₁ : 1 ≤ g) (h₂ : g ≤ 21) :
    (idOf π).MovesUp g ∧ (idOf π).ChildrenReturn ↔ g ≤ 10 ∨ (idOf π).idLevel ≤ g := by
  constructor
  · rintro ⟨⟨-, hshifts⟩, -⟩
    by_contra hcon
    obtain ⟨hg, hlevel⟩ := not_or.1 hcon
    -- the mask of eleven or more digits
    have hmask : (3 * g, 32) ∈ (idOf π).parentShifts g := by
      rw [parentShifts, if_neg hlevel]
      simp
    have := hshifts _ hmask
    simp only at this
    omega
  · intro hcond
    refine ⟨⟨?_, fun s hs => ?_⟩, childrenReturn_idOf π⟩
    · rw [iterate_getParent h]
      split_ifs with hlen
      · have hg : g ≤ 10 := hcond.resolve_right (by rw [idOf_idLevel]; omega)
        exact getParent_idOf h h₁ hg hlen
      · exact getParent_of_le (by rw [idOf_idLevel]; omega)
    · unfold parentShifts at hs
      split_ifs at hs with hlevel
      · cases hs
      · have hg := hcond.resolve_right hlevel
        simp only [List.mem_cons, List.not_mem_nil, or_false] at hs
        rcases hs with rfl | rfl | rfl | rfl <;> simp only <;> omega

/-- The root file is six generations above the nodes of the seventh level. -/
theorem movesUp_six : (idOf (List.replicate 6 7)).MovesUp 6 :=
  ((movesUp_iff (π := List.replicate 6 7) (by decide) (by decide) (by decide)).2
    (.inl (by decide))).1

/-- Eleven generations above a node of level 31: the shift is too wide, and where the hardware takes
it modulo 32, digits of the upper word are lost. -/
theorem not_movesUp :
    ¬ (idOf (List.replicate 30 7)).MovesUp 11 ∧ (idOf (List.replicate 30 7)).getParent 11 ≠
      (fun id => id.getParent 1)^[11] (idOf (List.replicate 30 7)) := by
  have h : (idOf (List.replicate 30 7)).getParent 11 ≠
      (fun id => id.getParent 1)^[11] (idOf (List.replicate 30 7)) := by decide +kernel
  exact ⟨fun hup => h hup.parent, h⟩

end MegaTree
