import Mathlib.Analysis.Normed.Group.Continuity
import Mathlib.Order.CompletePartialOrder
import Mathlib.Topology.Order.IntermediateValue

/-!
# Clip volumes

A point has coordinates and a weight; it is in the clip volume if no coordinate is longer than the
weight.  A wrong weight is seen at some point, unless it is right or the points where it is wrong
are all inside or all outside.

* `nonneg_iff_nonneg_iff` : two functions that are nowhere equal have the same sign on a connected
  set only if they do not change it.
* `volume_eq_iff` : when two weights have the same clip volume.
-/

namespace Clip

variable {ι E F : Type*} [TopologicalSpace E] [SeminormedAddCommGroup F]

/-- The points whose coordinates are no longer than their weight. -/
def volume (x : E → F) (w : E → ℝ) : Set E := {p | ‖x p‖ ≤ w p}

/-- A set of points lies in both sets, or in none of them. -/
def Unsplit (C V V' : Set E) : Prop := C ⊆ V ∩ V' ∨ Disjoint C (V ∪ V')

variable {C : Set E} {u v : E → ℝ}

/-- Where two continuous functions are nowhere equal, one of them changes its sign before the
other. -/
theorem nonneg_iff_nonneg_iff (hC : IsPreconnected C) (hu : Continuous u) (hv : Continuous v)
    (hne : ∀ p ∈ C, u p ≠ v p) :
    (∀ p ∈ C, 0 ≤ u p ↔ 0 ≤ v p) ↔
      (∀ p ∈ C, 0 ≤ u p ∧ 0 ≤ v p) ∨ ∀ p ∈ C, ¬0 ≤ u p ∧ ¬0 ≤ v p := by
  constructor
  · intro h
    by_contra hcon
    obtain ⟨hsome, hall⟩ := not_or.1 hcon
    push Not at hsome hall
    obtain ⟨a, ha, hneg⟩ := hsome
    obtain ⟨b, hb, hpos⟩ := hall
    have hua : u a < 0 := not_le.1 fun hge => absurd ((h a ha).1 hge) (not_le.2 (hneg hge))
    have hva : v a < 0 := not_le.1 fun hge => absurd ((h a ha).2 hge) (not_le.2 hua)
    have hub : 0 ≤ u b := by
      by_contra hlt
      exact hlt ((h b hb).2 (hpos (not_le.1 hlt)))
    have hvb : 0 ≤ v b := (h b hb).1 hub
    -- between the two points the functions are opposite to each other
    obtain ⟨z, hz, hsum⟩ := hC.intermediate_value ha hb (hu.add hv).continuousOn
      ⟨(add_neg hua hva).le, add_nonneg hub hvb⟩
    have hsum : u z + v z = 0 := hsum
    rcases le_or_gt 0 (u z) with hz₀ | hz₀
    · have hz₁ := (h z hz).1 hz₀
      exact hne z hz (by linarith)
    · exact absurd ((h z hz).2 (by linarith)) (not_le.2 hz₀)
  · rintro (h | h) p hp
    · exact iff_of_true (h p hp).1 (h p hp).2
    · exact iff_of_false (h p hp).1 (h p hp).2

variable {x : E → F} {w w' : E → ℝ}

omit [TopologicalSpace E] in
theorem mem_volume {p : E} : p ∈ volume x w ↔ 0 ≤ w p - ‖x p‖ := by
  rw [sub_nonneg]
  rfl

/-- On a connected set where the weights are nowhere equal. -/
theorem mem_volume_iff_mem_volume_iff (hC : IsPreconnected C) (hx : Continuous x)
    (hw : Continuous w) (hw' : Continuous w') (hne : ∀ p ∈ C, w p ≠ w' p) :
    (∀ p ∈ C, p ∈ volume x w ↔ p ∈ volume x w') ↔ Unsplit C (volume x w) (volume x w') := by
  have hmargin := nonneg_iff_nonneg_iff (u := fun p => w p - ‖x p‖) (v := fun p => w' p - ‖x p‖)
    hC (hw.sub hx.norm) (hw'.sub hx.norm) fun p hp heq => hne p hp (sub_left_inj.1 heq)
  simp only [mem_volume, Unsplit, Set.subset_def, Set.disjoint_left, Set.mem_inter_iff,
    Set.mem_union, not_or]
  exact hmargin

/-- Two weights have the same clip volume exactly if each connected piece of the points where they
differ lies in both volumes or in none. -/
theorem volume_eq_iff {C : ι → Set E} (hC : ∀ i, IsPreconnected (C i)) (hx : Continuous x)
    (hw : Continuous w) (hw' : Continuous w') (hne : ∀ i, ∀ p ∈ C i, w p ≠ w' p)
    (hcover : ∀ p, w p ≠ w' p → ∃ i, p ∈ C i) :
    volume x w = volume x w' ↔ ∀ i, Unsplit (C i) (volume x w) (volume x w') := by
  constructor
  · intro h i
    exact (mem_volume_iff_mem_volume_iff (hC i) hx hw hw' (hne i)).1 fun p _ => by rw [h]
  · intro h
    ext p
    by_cases heq : w p = w' p
    · rw [mem_volume, mem_volume, heq]
    · obtain ⟨i, hi⟩ := hcover p heq
      exact (mem_volume_iff_mem_volume_iff (hC i) hx hw hw' (hne i)).2 (h i) p hi

end Clip
