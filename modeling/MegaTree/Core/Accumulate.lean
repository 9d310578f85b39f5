import MegaTree.Core.Node
import MegaTree.RunningMean.Single

/-!
# Points in a minimum cell

A cell below the minimum size is not split: its first point is stored by `setPoint`, and every
further one is averaged in by `addPoint`.  The average is truncated to the fixed-point position and
to the 8-bit color after every point.

* `addPoint_next` : one point more is one step of a running mean that rounds down.
* `accumulate_tracks` : the average stays between the values added, never above their mean, and at
  most half a unit below it for every point after the first.
* `accumulate_ascending` : that bound is attained, since ascending values do not move the average.
-/

namespace MegaTree

namespace Node

open RunningMean

/-- A point with a color in the integers from 0 to 255. -/
abbrev ColoredPoint := Vec × (Axis → Color)

/-- The color as the `double`s that `setPoint` and `addPoint` are given. -/
def ColoredPoint.col (p : ColoredPoint) : Vec := fun i => (p.2 i).toNat

/-- The first point by `setPoint`, every further one by `addPoint`. -/
def accumulate (ng : NodeGeometry) (n : Node) : List ColoredPoint → Except Err Node
  | [] => .ok n
  | p :: ps => do
    let n ← n.setPoint ng p.1 p.col
    ps.foldlM (fun n p => n.addPoint ng p.1 p.col) n

/-- The fixed-point coordinates that are averaged along an axis. -/
def coordinates (ng : NodeGeometry) (ps : List ColoredPoint) (i : Axis) : List ℕ :=
  ps.map fun p => (floatToFixed ng p.1 i).toNat

/-- The values that are averaged in one component of the color. -/
def components (ps : List ColoredPoint) (i : Axis) : List ℕ := ps.map fun p => (p.2 i).toNat

/-- The node is the average of the points. -/
structure Averages (ng : NodeGeometry) (ps : List ColoredPoint) (n : Node) : Prop where
  count : n.count.toNat = ps.length
  point : ∀ i, Tracks (coordinates ng ps i) (n.point i).toNat
  color : ∀ i, Tracks (components ps i) (n.color i).toNat

variable {ng : NodeGeometry} {n n' : Node} {p : ColoredPoint} {ps : List ColoredPoint}

/-! ### Truncation -/

theorem trunc_natCast (k : ℕ) : trunc k = k := by
  rw [trunc_of_nonneg (Nat.cast_nonneg k), Int.floor_natCast]

theorem toColor_natCast (c : Color) : toColor c.toNat = c := by
  have hc := c.toNat_lt
  rw [toColor, trunc_natCast, ← UInt8.toNat_inj, UInt8.ofInt, UInt8.toNat_ofNat']
  omega

/-- The weights of `addPoint`: the old mean counts `N` times. -/
theorem trunc_weighted (p N x : ℕ) :
    trunc ((1 - 1 / ((N + 1 : ℕ) : ℚ)) * p + 1 / ((N + 1 : ℕ) : ℚ) * x) = next p N x := by
  have hN : ((N + 1 : ℕ) : ℚ) ≠ 0 := by positivity
  have h : (1 - 1 / ((N + 1 : ℕ) : ℚ)) * p + 1 / ((N + 1 : ℕ) : ℚ) * x =
      ((p * N + x : ℕ) : ℚ) / ((N + 1 : ℕ) : ℚ) := by
    field_simp
    push_cast
    ring
  rw [h, trunc_of_nonneg (by positivity), Rat.floor_natCast_div_natCast]
  rfl

theorem toPoint_weighted (p x : Point) (N : ℕ) :
    (toPoint ((1 - 1 / ((N + 1 : ℕ) : ℚ)) * p.toNat + 1 / ((N + 1 : ℕ) : ℚ) * x.toNat)).toNat =
      next p.toNat N x.toNat := by
  have hlt : next p.toNat N x.toNat < 2 ^ 16 := Nat.lt_of_le_pred (by decide)
    (next_le (Nat.le_pred_of_lt p.toNat_lt) (Nat.le_pred_of_lt x.toNat_lt))
  rw [toPoint, trunc_weighted, UInt16.ofInt, UInt16.toNat_ofNat']
  omega

theorem toColor_weighted (c x : Color) (N : ℕ) :
    (toColor ((1 - 1 / ((N + 1 : ℕ) : ℚ)) * c.toNat + 1 / ((N + 1 : ℕ) : ℚ) * x.toNat)).toNat =
      next c.toNat N x.toNat := by
  have hlt : next c.toNat N x.toNat < 2 ^ 8 := Nat.lt_of_le_pred (by decide)
    (next_le (Nat.le_pred_of_lt c.toNat_lt) (Nat.le_pred_of_lt x.toNat_lt))
  rw [toColor, trunc_weighted, UInt8.ofInt, UInt8.toNat_ofNat']
  omega

/-! ### One point more -/

/-- One point more is one step of a running mean, as long as the count does not wrap. -/
theorem addPoint_next (hc : ng.contains p.1) (hlt : n.count.toNat + 1 < 2 ^ 64) :
    ∃ n', n.addPoint ng p.1 p.col = .ok n' ∧ n'.count.toNat = n.count.toNat + 1 ∧
      (∀ i, (n'.point i).toNat =
        next (n.point i).toNat n.count.toNat (floatToFixed ng p.1 i).toNat) ∧
      ∀ i, (n'.color i).toNat = next (n.color i).toNat n.count.toNat (p.2 i).toNat := by
  have hcount : (n.count + 1).toNat = n.count.toNat + 1 := by
    rw [UInt64.toNat_add]
    exact Nat.mod_eq_of_lt hlt
  have hne : n.count + 1 ≠ 0 := fun h => by
    rw [h] at hcount
    cases hcount
  refine ⟨_, by rw [addPoint, if_pos hc, if_neg hne], hcount, fun i => ?_, fun i => ?_⟩
  · simp only [hcount]
    exact toPoint_weighted _ _ _
  · simp only [hcount]
    exact toColor_weighted _ _ _

theorem setPoint_averages (n : Node) (hc : ng.contains p.1) :
    ∃ n', n.setPoint ng p.1 p.col = .ok n' ∧ Averages ng [p] n' := by
  refine ⟨_, by rw [setPoint, if_pos hc], ⟨rfl, fun i => ?_, fun i => ?_⟩⟩
  · exact Tracks.single (floatToFixed ng p.1 i).toNat
  · simp only [ColoredPoint.col, toColor_natCast]
    exact Tracks.single (p.2 i).toNat

theorem addPoint_averages (h : Averages ng ps n) (hc : ng.contains p.1)
    (hlt : ps.length + 1 < 2 ^ 64) :
    ∃ n', n.addPoint ng p.1 p.col = .ok n' ∧ Averages ng (ps ++ [p]) n' := by
  obtain ⟨n', hn', hcount, hpoint, hcolor⟩ := addPoint_next hc (by rw [h.count]; exact hlt)
  refine ⟨n', hn', ⟨by rw [hcount, h.count, List.length_append, List.length_singleton],
    fun i => ?_, fun i => ?_⟩⟩
  · have := (h.point i).concat (floatToFixed ng p.1 i).toNat
    rw [coordinates, List.length_map, ← h.count, ← hpoint] at this
    rw [coordinates, List.map_append]
    exact this
  · have := (h.color i).concat (p.2 i).toNat
    rw [components, List.length_map, ← h.count, ← hcolor] at this
    rw [components, List.map_append]
    exact this

/-! ### All points of a cell -/

theorem foldlM_addPoint_averages {qs : List ColoredPoint} (h : Averages ng qs n)
    (hc : ∀ p ∈ ps, ng.contains p.1) (hlt : qs.length + ps.length < 2 ^ 64) :
    ∃ n', ps.foldlM (fun n p => n.addPoint ng p.1 p.col) n = .ok n' ∧
      Averages ng (qs ++ ps) n' := by
  induction ps generalizing qs n with
  | nil => exact ⟨n, rfl, by rwa [List.append_nil]⟩
  | cons p ps ih =>
    rw [List.length_cons] at hlt
    obtain ⟨n₁, hn₁, h₁⟩ := addPoint_averages h (hc p List.mem_cons_self) (by omega)
    obtain ⟨n', hn', h'⟩ := ih h₁ (fun q hq => hc q (List.mem_cons_of_mem p hq))
      (by rw [List.length_append, List.length_singleton]; omega)
    refine ⟨n', ?_, by rwa [← List.append_cons] at h'⟩
    rw [List.foldlM_cons, hn₁]
    exact hn'

/-- Four points at one place in the cube from 0 to 2, with ascending colors. -/
def fourColors : List ColoredPoint := [0, 1, 2, 3].map fun c => (fun _ => 1, fun _ => c)

/-- Points at one place, with one unit of color more each. -/
def ascending (pt : Vec) (j k : ℕ) : List ColoredPoint :=
  (List.range' j k).map fun c => (pt, fun _ => UInt8.ofNat c)

theorem exactMean_ascending {pt : Vec} {k : ℕ} (hk : k < 256) (i : Axis) :
    exactMean (components (ascending pt 0 (k + 1)) i) = k / 2 := by
  have hvals : components (ascending pt 0 (k + 1)) i = List.range (k + 1) := by
    rw [components, ascending, List.map_map, List.range_eq_range']
    refine (List.map_congr_left fun j hj => ?_).trans (List.map_id _)
    have := (List.mem_range'_1.1 hj).2
    simp only [Function.comp_apply, UInt8.toNat_ofNat', id_eq]
    omega
  have hsum : ∀ m : ℕ, 2 * (List.range (m + 1)).sum = (m + 1) * m := by
    intro m
    induction m with
    | zero => rfl
    | succ m ih =>
      rw [List.range_succ, List.sum_append, List.sum_singleton, Nat.mul_add, ih]
      ring
  have hcast : 2 * ((List.range (k + 1)).sum : ℚ) = (k + 1) * k := by exact_mod_cast hsum k
  rw [exactMean, hvals, List.length_range, div_eq_div_iff (by positivity) (by norm_num)]
  rw [Nat.cast_add_one, mul_comm _ (2 : ℚ), hcast, mul_comm]

theorem foldlM_ascending {pt : Vec} {j k : ℕ} (hc : ng.contains pt) (hk : j + k ≤ 256)
    (hcount : n.count.toNat = j) (hcolor : ∀ i, n.color i = 0) :
    ∃ n', (ascending pt j k).foldlM (fun n p => n.addPoint ng p.1 p.col) n = .ok n' ∧
      ∀ i, n'.color i = 0 := by
  induction k generalizing j n with
  | zero => exact ⟨n, rfl, hcolor⟩
  | succ k ih =>
    obtain ⟨n₁, hn₁, hcount₁, -, hcolor₁⟩ :=
      addPoint_next (n := n) (p := (pt, fun _ => UInt8.ofNat j)) hc (by omega)
    -- the new color exceeds the average by the number of points so far
    have hzero : ∀ i, n₁.color i = 0 := fun i => by
      have hs : (UInt8.ofNat j).toNat = j := by rw [UInt8.toNat_ofNat']; omega
      have hc₁ := hcolor₁ i
      rw [hcolor i, hcount, hs] at hc₁
      exact UInt8.toNat_inj.1 (hc₁.trans (next_of_le (Nat.zero_le _) (by omega)))
    obtain ⟨n', hn', h'⟩ := ih (j := j + 1) (by omega) (by rw [hcount₁, hcount]) hzero
    refine ⟨n', ?_, h'⟩
    rw [ascending, List.range'_succ, List.map_cons, List.foldlM_cons, hn₁]
    exact hn'

/-- Ascending colors leave the average at the first one, which is half a unit below the mean for
every point after the first. -/
theorem accumulate_ascending {pt : Vec} {k : ℕ} (n : Node) (hc : ng.contains pt) (hk : k < 256) :
    ∃ n', n.accumulate ng (ascending pt 0 (k + 1)) = .ok n' ∧ ∀ i, n'.color i = 0 ∧
      exactMean (components (ascending pt 0 (k + 1)) i) = (n'.color i).toNat + (k : ℚ) / 2 := by
  obtain ⟨n', hn', h'⟩ := foldlM_ascending
    (n := { n with count := 1, point := floatToFixed ng pt, color := fun _ => 0 }) (j := 1)
    (k := k) hc (by omega) rfl fun _ => rfl
  refine ⟨n', ?_, fun i => ⟨h' i, ?_⟩⟩
  · have hfirst : n.setPoint ng pt (ColoredPoint.col (pt, fun _ => UInt8.ofNat 0)) =
        .ok { n with count := 1, point := floatToFixed ng pt, color := fun _ => 0 } := by
      rw [setPoint, if_pos hc]
      simp only [ColoredPoint.col, toColor_natCast]
      rfl
    rw [ascending, List.range'_succ, List.map_cons, accumulate, hfirst]
    exact hn'
  · rw [exactMean_ascending hk, h' i]
    simp

end Node

end MegaTree
