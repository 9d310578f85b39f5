import MegaTree.Clip.Volume
import MegaTree.Web.CellObject
import Mathlib.Analysis.Convex.Topology
import Mathlib.Analysis.Normed.Group.Constructions
import Mathlib.Analysis.Normed.Ring.Basic
import Mathlib.Data.Matrix.Mul
import Mathlib.Analysis.Real.Sqrt

/-!
# The planes of the view frustum

`extract_frustum_planes` of `frustum_querier.js`, over any field with a square root, and the plane
values that `isInsideFrustum` compares.  The first coefficient of every plane is taken from the
entry in row 0 and column 3 of the projection matrix, not from the one in row 3 and column 0.

* `nonneg_planeValues_iff` : the planes are those of the clip volume of another matrix.
* `frustumPlanes_match` : for which matrices that is the right one.
-/

namespace MegaTree.Web

open Clip

variable {K : Type*}

section Planes

variable [Field K]

/-- The coefficients of a plane. -/
structure Plane (K : Type*) where
  a : K
  b : K
  c : K
  d : K

namespace Plane

variable (plane : Plane K)

/-- The value at a point: positive inside. -/
def value (pnt : Axis → K) : K :=
  plane.a * pnt 0 + plane.b * pnt 1 + plane.c * pnt 2 + plane.d

/-- The square of the length of the normal. -/
def normSq : K := plane.a * plane.a + plane.b * plane.b + plane.c * plane.c

/-- The four coefficients, divided by `norm`. -/
def normalize (sqrt : K → K) : List K :=
  let norm := sqrt plane.normSq
  [plane.a / norm, plane.b / norm, plane.c / norm, plane.d / norm]

end Plane

/-- The numbers for the planes, before they are normalised. -/
def extractedPlanes (t : Fin 16 → K) : List (Plane K) :=
  [ -- RIGHT
    ⟨t (0 + 3 * 4) - t (0 + 0 * 4), t (3 + 1 * 4) - t (0 + 1 * 4), t (3 + 2 * 4) - t (0 + 2 * 4),
      t (3 + 3 * 4) - t (0 + 3 * 4)⟩,
    -- LEFT
    ⟨t (0 + 3 * 4) + t (0 + 0 * 4), t (3 + 1 * 4) + t (0 + 1 * 4), t (3 + 2 * 4) + t (0 + 2 * 4),
      t (3 + 3 * 4) + t (0 + 3 * 4)⟩,
    -- BOTTOM
    ⟨t (0 + 3 * 4) + t (1 + 0 * 4), t (3 + 1 * 4) + t (1 + 1 * 4), t (3 + 2 * 4) + t (1 + 2 * 4),
      t (3 + 3 * 4) + t (1 + 3 * 4)⟩,
    -- TOP
    ⟨t (0 + 3 * 4) - t (1 + 0 * 4), t (3 + 1 * 4) - t (1 + 1 * 4), t (3 + 2 * 4) - t (1 + 2 * 4),
      t (3 + 3 * 4) - t (1 + 3 * 4)⟩,
    -- NEAR
    ⟨t (0 + 3 * 4) + t (2 + 0 * 4), t (3 + 1 * 4) + t (2 + 1 * 4), t (3 + 2 * 4) + t (2 + 2 * 4),
      t (3 + 3 * 4) + t (2 + 3 * 4)⟩,
    -- FAR
    ⟨t (0 + 3 * 4) - t (2 + 0 * 4), t (3 + 1 * 4) - t (2 + 1 * 4), t (3 + 2 * 4) - t (2 + 2 * 4),
      t (3 + 3 * 4) - t (2 + 3 * 4)⟩]

/-- `extract_frustum_planes(t)`: the 24 numbers of the array `frustum`. -/
def extractFrustumPlanes (sqrt : K → K) (t : Fin 16 → K) : List K :=
  (extractedPlanes t).flatMap fun plane => plane.normalize sqrt

/-- `n` of `isInsideFrustum` for the plane at `i`. -/
def planeValue (frustumPlanes : ℕ → K) (pnt : Axis → K) (i : ℕ) : K :=
  frustumPlanes i * pnt 0 + frustumPlanes (i + 1) * pnt 1 + frustumPlanes (i + 2) * pnt 2 +
    frustumPlanes (i + 3)

/-- The entries of the array `frustum_planes`. -/
def frustumPlanes (sqrt : K → K) (t : Fin 16 → K) (i : ℕ) : K :=
  (extractFrustumPlanes sqrt t).getD i 0

/-- The values of `i` in the loop of `isInsideFrustum`. -/
def planeIndices : List ℕ := [0, 4, 8, 12, 16, 20]

/-- The planes of an array are tested one by one: without a radius a point is outside if one of the
plane values is negative. -/
theorem isInsideFrustum_zero (frustumPlanes : ℕ → ℚ) (pnt : Vec) :
    isInsideFrustum frustumPlanes 0 pnt ≠ -1 ↔
      ∀ i ∈ planeIndices, 0 ≤ planeValue frustumPlanes pnt i := by
  have hloop : ∀ (planes : List ℕ) (minN : ℚ),
      insideLoop frustumPlanes 0 pnt planes minN ≠ -1 ↔
        ∀ i ∈ planes, 0 ≤ planeValue frustumPlanes pnt i := by
    intro planes
    induction planes with
    | nil =>
      intro minN
      rw [insideLoop]
      split_ifs <;> simp
    | cons i planes ih =>
      intro minN
      change (if planeValue frustumPlanes pnt i < -0 then _ else _) ≠ _ ↔ _
      rw [neg_zero, List.forall_mem_cons]
      split_ifs with hlt
      · exact iff_of_false (fun h => h rfl) fun h => absurd h.1 (not_le.2 hlt)
      · rw [ih, and_iff_right (not_lt.1 hlt)]
  exact hloop _ _

/-! ### Clip coordinates -/

/-- The entry in row `r` and column `c`. -/
def entry (t : Fin 16 → K) (r c : Fin 4) : K := t ⟨r + 4 * c, by omega⟩

/-- The clip coordinates of a point. -/
def clip (t : Fin 16 → K) (pnt : Axis → K) : Fin 4 → K :=
  Matrix.mulVec (Matrix.of (entry t)) ![pnt 0, pnt 1, pnt 2, 1]

theorem clip_apply (t : Fin 16 → K) (pnt : Axis → K) (r : Fin 4) :
    clip t pnt r = entry t r 0 * pnt 0 + entry t r 1 * pnt 1 + entry t r 2 * pnt 2 +
      entry t r 3 := by
  simp [clip, Matrix.mulVec, dotProduct, Fin.sum_univ_four]

/-- The matrix whose planes are extracted: its entry in row 3 and column 0 is the one in row 0 and
column 3. -/
def readMatrix (t : Fin 16 → K) : Fin 16 → K := Function.update t 3 (t 12)

theorem clip_readMatrix_of_ne (t : Fin 16 → K) (pnt : Axis → K) {r : Fin 4} (hr : r ≠ 3) :
    clip (readMatrix t) pnt r = clip t pnt r := by
  fin_cases r
  · simp [clip_apply, entry, readMatrix, Function.update, Fin.ext_iff]
  · simp [clip_apply, entry, readMatrix, Function.update, Fin.ext_iff]
  · simp [clip_apply, entry, readMatrix, Function.update, Fin.ext_iff]
  · exact absurd rfl hr

theorem clip_readMatrix (t : Fin 16 → K) (pnt : Axis → K) :
    clip (readMatrix t) pnt 3 = clip t pnt 3 + (t 12 - t 3) * pnt 0 := by
  simp [clip_apply, entry, readMatrix, Function.update, Fin.ext_iff]
  ring

/-- The planes compare the clip coordinates of the matrix that is read. -/
theorem value_extractedPlanes (t : Fin 16 → K) (pnt : Axis → K) :
    (extractedPlanes t).map (Plane.value · pnt) =
      let w := clip (readMatrix t) pnt 3
      [w - clip t pnt 0, w + clip t pnt 0, w + clip t pnt 1, w - clip t pnt 1, w + clip t pnt 2,
        w - clip t pnt 2] := by
  simp [extractedPlanes, Plane.value, clip_apply, entry, readMatrix, Function.update, Fin.ext_iff]
  refine ⟨?_, ?_, ?_, ?_, ?_, ?_⟩ <;> ring

/-- Every plane value is divided by the length of the normal. -/
theorem planeValues_eq (sqrt : K → K) (t : Fin 16 → K) (pnt : Axis → K) :
    planeIndices.map (planeValue (frustumPlanes sqrt t) pnt) =
      (extractedPlanes t).map fun plane => plane.value pnt / sqrt plane.normSq := by
  have hvalue : ∀ plane : Plane K,
      plane.value pnt / sqrt plane.normSq = plane.a / sqrt plane.normSq * pnt 0 +
        plane.b / sqrt plane.normSq * pnt 1 + plane.c / sqrt plane.normSq * pnt 2 +
        plane.d / sqrt plane.normSq := by
    intro plane
    rw [Plane.value]
    ring
  simp only [hvalue]
  rfl

end Planes

section Order

variable [Field K] [LinearOrder K] [IsStrictOrderedRing K]

/-- The normal of a plane is not zero. -/
def Plane.HasNormal (plane : Plane K) : Prop := ¬(plane.a = 0 ∧ plane.b = 0 ∧ plane.c = 0)

theorem Plane.normSq_pos {plane : Plane K} (h : plane.HasNormal) : 0 < plane.normSq := by
  have ha := mul_self_nonneg plane.a
  have hb := mul_self_nonneg plane.b
  have hc := mul_self_nonneg plane.c
  rw [Plane.normSq]
  by_contra hle
  refine h ⟨mul_self_eq_zero.1 ?_, mul_self_eq_zero.1 ?_, mul_self_eq_zero.1 ?_⟩ <;> linarith

/-- The point is between the six planes of the clip volume. -/
def InClip (t : Fin 16 → K) (pnt : Axis → K) : Prop :=
  let x := clip t pnt 0
  let y := clip t pnt 1
  let z := clip t pnt 2
  let w := clip t pnt 3
  (-w ≤ x ∧ x ≤ w) ∧ (-w ≤ y ∧ y ≤ w) ∧ (-w ≤ z ∧ z ≤ w)

/-- The planes are those of the clip volume of the matrix that is read. -/
theorem nonneg_planeValues_iff {sqrt : K → K} (hsqrt : ∀ x, 0 < x → 0 < sqrt x) {t : Fin 16 → K}
    (h : ∀ plane ∈ extractedPlanes t, plane.HasNormal) (pnt : Axis → K) :
    (∀ i ∈ planeIndices, 0 ≤ planeValue (frustumPlanes sqrt t) pnt i) ↔
      InClip (readMatrix t) pnt := by
  have hsign : (∀ i ∈ planeIndices, 0 ≤ planeValue (frustumPlanes sqrt t) pnt i) ↔
      ∀ plane ∈ extractedPlanes t, 0 ≤ plane.value pnt := by
    rw [← List.forall_mem_map (f := planeValue (frustumPlanes sqrt t) pnt) (P := (0 ≤ ·)),
      planeValues_eq, List.forall_mem_map]
    refine forall₂_congr fun plane hplane => ?_
    rw [le_div_iff₀ (hsqrt _ (Plane.normSq_pos (h plane hplane))), zero_mul]
  rw [hsign, ← List.forall_mem_map (f := (Plane.value · pnt)) (P := (0 ≤ ·)),
    value_extractedPlanes]
  simp only [InClip, clip_readMatrix_of_ne t pnt (by decide : (0 : Fin 4) ≠ 3),
    clip_readMatrix_of_ne t pnt (by decide : (1 : Fin 4) ≠ 3),
    clip_readMatrix_of_ne t pnt (by decide : (2 : Fin 4) ≠ 3), List.forall_mem_cons,
    List.not_mem_nil, false_implies, implies_true, and_true, sub_nonneg, neg_le_iff_add_nonneg]
  constructor
  · rintro ⟨hr, hl, hb, ht, hn, hf⟩
    exact ⟨⟨by linarith, hr⟩, ⟨by linarith, ht⟩, ⟨by linarith, hf⟩⟩
  · rintro ⟨⟨hl, hr⟩, ⟨hb, ht⟩, hn, hf⟩
    exact ⟨hr, by linarith, by linarith, ht, by linarith, hf⟩

end Order

/-! ### The matrices for which the planes are right -/

section Real

variable {t : Fin 16 → ℝ} {pnt : Axis → ℝ}

def clipVolume (t : Fin 16 → ℝ) : Set (Axis → ℝ) :=
  volume (fun pnt (k : Axis) => clip t pnt k.castSucc) fun pnt => clip t pnt 3

/-- The two sides of the plane through the camera that is normal to its first axis. -/
def side : Bool → Set (Axis → ℝ)
  | true => {pnt | 0 < pnt 0}
  | false => {pnt | pnt 0 < 0}

theorem mem_clipVolume : pnt ∈ clipVolume t ↔ InClip t pnt := by
  change ‖fun k : Axis => clip t pnt k.castSucc‖ ≤ _ ↔ _
  rw [pi_norm_le_iff_of_nonempty, Fin.forall_fin_succ, Fin.forall_fin_two]
  simp only [Real.norm_eq_abs, abs_le]
  rfl

theorem continuous_clip (t : Fin 16 → ℝ) (r : Fin 4) : Continuous fun pnt => clip t pnt r := by
  simp only [clip_apply]
  fun_prop

theorem isPreconnected_side (s : Bool) : IsPreconnected (side s) := by
  have hlinear := (LinearMap.proj 0 : (Axis → ℝ) →ₗ[ℝ] ℝ).isLinear
  cases s with
  | true => exact (convex_halfSpace_gt hlinear 0).isPreconnected
  | false => exact (convex_halfSpace_lt hlinear 0).isPreconnected

/-- Matrices with the same clip volume, if the weights differ only to the sides. -/
theorem clipVolume_readMatrix_iff (t : Fin 16 → ℝ) :
    clipVolume (readMatrix t) = clipVolume t ↔
      t 3 = t 12 ∨ ∀ s, Unsplit (side s) (clipVolume (readMatrix t)) (clipVolume t) := by
  have hcoords : (fun pnt (k : Axis) => clip (readMatrix t) pnt k.castSucc) =
      fun pnt k => clip t pnt k.castSucc := by
    funext pnt k
    exact clip_readMatrix_of_ne t pnt (Fin.castSucc_lt_last k).ne
  by_cases heq : t 3 = t 12
  · refine iff_of_true ?_ (.inl heq)
    rw [readMatrix, ← heq, Function.update_eq_self]
  · -- to the sides the weights are different
    have hne : ∀ pnt : Axis → ℝ,
        clip (readMatrix t) pnt 3 ≠ clip t pnt 3 ↔ pnt 0 ≠ 0 := by
      intro pnt
      rw [clip_readMatrix, ne_eq, add_eq_left, mul_eq_zero, sub_eq_zero,
        or_iff_right (Ne.symm heq)]
    rw [or_iff_right heq, clipVolume, clipVolume, hcoords]
    refine volume_eq_iff isPreconnected_side ?_ (continuous_clip _ 3) (continuous_clip _ 3) ?_ ?_
    · exact continuous_pi fun k => continuous_clip t _
    · intro s pnt hs
      rw [hne]
      cases s with
      | true => exact ne_of_gt hs
      | false => exact ne_of_lt hs
    · intro pnt hpnt
      rcases lt_or_gt_of_ne ((hne pnt).1 hpnt) with hlt | hgt
      · exact ⟨false, hlt⟩
      · exact ⟨true, hgt⟩

/-- **The planes match the clip volume** exactly if the matrix has the same entry in row 3 and
column 0 as in row 0 and column 3; or where they differ, if each of the two sides of the camera lies
in both clip volumes, that of the matrix and that of the matrix that is read, or in none of them. -/
theorem frustumPlanes_match (t : Fin 16 → ℝ)
    (h : ∀ plane ∈ extractedPlanes t, plane.HasNormal) :
    (∀ pnt, (∀ i ∈ planeIndices, 0 ≤ planeValue (frustumPlanes Real.sqrt t) pnt i) ↔
      InClip t pnt) ↔
      t 3 = t 12 ∨ ∀ s, Unsplit (side s) (clipVolume (readMatrix t)) (clipVolume t) := by
  rw [← clipVolume_readMatrix_iff, Set.ext_iff]
  refine forall_congr' fun pnt => ?_
  rw [nonneg_planeValues_iff (fun _ => Real.sqrt_pos.2) h, mem_clipVolume, mem_clipVolume]

/-- A perspective projection. -/
noncomputable def perspective : Fin 16 → ℝ :=
  ![1, 0, 0, 0, 0, 1, 0, 0, 0, 0, -(1 + 1), -1, 0, 0, -1, 0]

theorem frustumPlanes_match_perspective :
    (∀ i ∈ planeIndices, 0 ≤ planeValue (frustumPlanes Real.sqrt perspective) ![1, 0, -1] i) ↔
      InClip perspective ![1, 0, -1] := by
  refine (frustumPlanes_match perspective ?_).2 (.inl ?_) _
  · simp [extractedPlanes, Plane.HasNormal, perspective]
    norm_num
  · simp [perspective]

/-- A parallel projection of what lies to one side of the camera. -/
noncomputable def offCentre : Fin 16 → ℝ :=
  ![1 + 1, 0, 0, 0, 0, 1, 0, 0, 0, 0, -1, 0, -1, 0, 0, 1]

theorem not_frustumPlanes_match :
    ¬∀ t : Fin 16 → ℝ, (∀ plane ∈ extractedPlanes t, plane.HasNormal) →
      ∀ pnt, (∀ i ∈ planeIndices, 0 ≤ planeValue (frustumPlanes Real.sqrt t) pnt i) ↔
        InClip t pnt := by
  intro h
  have hnormal : ∀ plane ∈ extractedPlanes offCentre, plane.HasNormal := by
    simp [extractedPlanes, Plane.HasNormal, offCentre]
    norm_num
  have hread : InClip (readMatrix offCentre) ![1, 0, 0] :=
    (nonneg_planeValues_iff (fun _ => Real.sqrt_pos.2) hnormal _).1
      ((h offCentre hnormal ![1, 0, 0]).2 ?_)
  · have hright := hread.1.2
    rw [clip_readMatrix, clip_readMatrix_of_ne _ _ (by decide)] at hright
    simp [clip_apply, entry, offCentre] at hright
    exact absurd hright (by norm_num)
  · simp [InClip, clip_apply, entry, offCentre]

end Real

end MegaTree.Web
