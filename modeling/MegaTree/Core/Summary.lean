import MegaTree.Core.Node
import MegaTree.SpaceTree.Basic
import Mathlib.Algebra.Order.BigOperators.Ring.Finset
import Mathlib.Order.Lattice.Nat
import Mathlib.Tactic.GCongr
import Mathlib.Tactic.Linarith

/-!
# Rounding of summaries

An interior node is `copyFromChildNodes` of its children, which divides twice, rounding down, at
every level.  In the units of a node its children are half as large, so that an error is halved
every time it is passed on: it stays below `2` units at any height.  The errors of the colors are
not halved, and add up.

* `Near` : the bounds, multiplied by the number of points; `near_branch` is one level.
* `copyFromChildNodes_near_mean` : the bounds for every interior node of a tree.
-/

namespace MegaTree

namespace Summary

open SpaceTree

/-! ### Means over the leaves -/

/-- The leaves below a node, with the children on the way to them. -/
def leavesBelow : Tree ChildNr Node → List (List ChildNr × Node)
  | .empty => []
  | .leaf n => [([], n)]
  | .branch kids => (List.finRange 8).flatMap fun i =>
    (leavesBelow (kids i)).map fun (path, n) => (i :: path, n)

/-- The point of a leaf in the fixed-point units of the node above it: a child is half as large, and
starts in the middle when it is the upper one. -/
def pointAbove (a : Axis) : List ChildNr → Node → ℚ
  | [], n => (n.point a).toNat
  | i :: path, n => (pointAbove a path n + if upper i a then 65536 else 0) / 2

/-- Number of points below a node. -/
def totalCount (t : Tree ChildNr Node) : ℕ :=
  ((leavesBelow t).map fun (_, n) => n.count.toNat).sum

/-- The sum of the points below a node, in its units. -/
def pointSum (a : Axis) (t : Tree ChildNr Node) : ℚ :=
  ((leavesBelow t).map fun (path, n) => n.count.toNat * pointAbove a path n).sum

/-- The sum of the colors below a node. -/
def colorSum (a : Axis) (t : Tree ChildNr Node) : ℚ :=
  ((leavesBelow t).map fun (_, n) => (n.count.toNat * (n.color a).toNat : ℚ)).sum

/-- Levels between a node and its deepest leaf. -/
def heightAbove : Tree ChildNr Node → ℕ
  | .empty => 0
  | .leaf _ => 0
  | .branch kids => (Finset.univ.sup fun i => heightAbove (kids i)) + 1

/-- `t` has the given node, and every interior node of `t` is `copyFromChildNodes` of its
children. -/
inductive Summarized : Tree ChildNr Node → Option Node → Prop
  | empty : Summarized .empty none
  | leaf (n : Node) : Summarized (.leaf n) (some n)
  | branch {kids : ChildNr → Tree ChildNr Node} {childNodes : ChildNr → Option Node} {n : Node}
      (hkids : ∀ i, Summarized (kids i) (childNodes i))
      (hnode : Node.copyFromChildNodes childNodes = .ok n) : Summarized (.branch kids) (some n)

/-- `t` is the tree below one of the nodes of a tree. -/
inductive Below (t : Tree ChildNr Node) : Tree ChildNr Node → Prop
  | refl : Below t t
  | kid {kids : ChildNr → Tree ChildNr Node} (i : ChildNr) : Below t (kids i) →
      Below t (.branch kids)

/-- What the loop of `copyFromChildNodes` has added up after `k` rounds, without wrapping. -/
def sumAfter (childNodes : ChildNr → Option Node) (k : ℕ) (f : ChildNr → Node → ℕ) : ℕ :=
  ∑ i : ChildNr with i.val < k, (childNodes i).elim 0 (f i)

/-- None of the sums of `copyFromChildNodes` wraps, at any moment of its loop. -/
def NoOverflow (childNodes : ChildNr → Option Node) : Prop :=
  ∀ k a, sumAfter childNodes k (fun _ c => c.count.toNat) < 2 ^ 64 ∧
    sumAfter childNodes k (fun i c =>
      c.count.toNat * ((c.point a).toNat + (Node.getChildBitOffset i a).toNat)) < 2 ^ 64 ∧
    sumAfter childNodes k (fun _ c => c.count.toNat * (c.color a).toNat) < 2 ^ 64

/-! ### Sums over the leaves of a branch -/

theorem sum_leavesBelow_branch {β : Type} [AddCommMonoid β] (f : List ChildNr × Node → β)
    (kids : ChildNr → Tree ChildNr Node) :
    ((leavesBelow (.branch kids)).map f).sum =
      ∑ i, ((leavesBelow (kids i)).map fun (path, n) => f (i :: path, n)).sum := by
  rw [leavesBelow, List.map_flatMap, List.flatMap_def, List.sum_flatten, List.map_map,
    Fin.sum_univ_def]
  simp only [Function.comp_def, List.map_map]

variable {kids : ChildNr → Tree ChildNr Node}

theorem totalCount_branch : totalCount (.branch kids) = ∑ i, totalCount (kids i) :=
  sum_leavesBelow_branch ..

theorem colorSum_branch (a : Axis) :
    colorSum a (.branch kids) = ∑ i, colorSum a (kids i) :=
  sum_leavesBelow_branch ..

theorem pointSum_branch (a : Axis) :
    pointSum a (.branch kids) =
      ∑ i, (pointSum a (kids i) + totalCount (kids i) * if upper i a then 65536 else 0) / 2 := by
  rw [pointSum, sum_leavesBelow_branch]
  refine Finset.sum_congr rfl fun i _ => ?_
  simp only [pointSum, totalCount, pointAbove]
  induction leavesBelow (kids i) with
  | nil => simp
  | cons x l ih =>
    simp only [List.map_cons, List.sum_cons, ih]
    push_cast
    ring

/-! ### The sums of the loop -/

variable {childNodes : ChildNr → Option Node}

/-- The sum over all children, without wrapping. -/
def sumAll (childNodes : ChildNr → Option Node) (f : ChildNr → Node → ℕ) : ℕ :=
  ∑ i, (childNodes i).elim 0 (f i)

theorem sumAfter_le_sumAll (k : ℕ) (f : ChildNr → Node → ℕ) :
    sumAfter childNodes k f ≤ sumAll childNodes f :=
  Finset.sum_le_sum_of_subset (Finset.filter_subset _ _)

/-- A sum that does not wrap is the sum of the machine. -/
theorem toNat_sumChildren (childNodes : ChildNr → Option Node) {f : ChildNr → Node → UInt64}
    {g : ChildNr → Node → ℕ}
    (hfg : ∀ i c, childNodes i = some c → (f i c).toNat = g i c)
    (hlt : sumAll childNodes g < 2 ^ 64) :
    (Node.sumChildren childNodes f).toNat = sumAll childNodes g := by
  rw [Node.sumChildren_toNat, ← Nat.mod_eq_of_lt hlt, sumAll]
  congr 1
  refine Finset.sum_congr rfl fun i _ => ?_
  cases hi : childNodes i with
  | none => rfl
  | some c => exact hfg i c hi

/-- The points are below `2 ^ 17` in the units of the parent and the counts below `2 ^ 46`, which
leaves one bit. -/
theorem sumAll_le {f : ChildNr → Node → ℕ} {b : ℕ} (hf : ∀ i c, f i c ≤ b) :
    sumAll childNodes (fun i c => c.count.toNat * f i c) ≤
      sumAll childNodes (fun _ c => c.count.toNat) * b := by
  rw [sumAll, sumAll, Finset.sum_mul]
  refine Finset.sum_le_sum fun i _ => ?_
  cases childNodes i with
  | none => exact Nat.zero_le _
  | some c => exact Nat.mul_le_mul_left _ (hf i c)

/-- A weighted mean of bounded values is bounded. -/
theorem sumAll_div_le (childNodes : ChildNr → Option Node) {f : ChildNr → Node → ℕ} {b : ℕ}
    (hf : ∀ i c, f i c ≤ b) :
    sumAll childNodes (fun i c => c.count.toNat * f i c) /
      sumAll childNodes (fun _ c => c.count.toNat) ≤ b :=
  Nat.div_le_of_le_mul (sumAll_le hf)

theorem toNat_getChildBitOffset (i : ChildNr) (a : Axis) :
    (Node.getChildBitOffset i a).toNat = if upper i a then 65536 else 0 := by
  rw [Node.getChildBitOffset]
  split_ifs <;> rfl

theorem point_add_offset_le (i : ChildNr) (c : Node) (a : Axis) :
    (c.point a).toNat + (Node.getChildBitOffset i a).toNat ≤ 131071 := by
  have := (c.point a).toNat_lt
  rw [toNat_getChildBitOffset]
  split_ifs <;> omega

theorem color_le (c : Node) (a : Axis) : (c.color a).toNat ≤ 255 :=
  Nat.le_of_lt_succ (c.color a).toNat_lt

section Exact

variable (hcount : sumAll childNodes (fun _ c => c.count.toNat) < 2 ^ 46)

include hcount

theorem sumAll_lt {f : ChildNr → Node → ℕ} {b : ℕ} (hf : ∀ i c, f i c ≤ b) (hb : b < 2 ^ 17) :
    sumAll childNodes (fun i c => c.count.toNat * f i c) < 2 ^ 64 :=
  calc sumAll childNodes (fun i c => c.count.toNat * f i c)
      ≤ sumAll childNodes (fun _ c => c.count.toNat) * b := sumAll_le hf
    _ ≤ 2 ^ 46 * 2 ^ 17 := Nat.mul_le_mul hcount.le hb.le
    _ < 2 ^ 64 := by decide

theorem noOverflow_of_lt : NoOverflow childNodes := fun k a =>
  ⟨(sumAfter_le_sumAll k _).trans_lt (hcount.trans (by decide)),
    (sumAfter_le_sumAll k _).trans_lt
      (sumAll_lt hcount (fun i c => point_add_offset_le i c a) (by decide)),
    (sumAfter_le_sumAll k _).trans_lt
      (sumAll_lt hcount (fun _ c => color_le c a) (by decide))⟩

theorem count_toNat_lt {i : ChildNr} {c : Node} (hi : childNodes i = some c) :
    c.count.toNat < 2 ^ 46 := by
  have h := Finset.single_le_sum (f := fun i => (childNodes i).elim 0 fun c => c.count.toNat)
    (fun _ _ => Nat.zero_le _) (Finset.mem_univ i)
  simp only [hi, Option.elim_some] at h
  exact h.trans_lt hcount

/-- The fields of a summary in terms of sums that do not wrap. -/
theorem copyFromChildNodes_exact {n : Node} (h : Node.copyFromChildNodes childNodes = .ok n) :
    n.count.toNat = sumAll childNodes (fun _ c => c.count.toNat) ∧ 0 < n.count.toNat ∧
      ∀ a, (n.point a).toNat = sumAll childNodes (fun i c => c.count.toNat *
          ((c.point a).toNat + (Node.getChildBitOffset i a).toNat)) / n.count.toNat / 2 ∧
        (n.color a).toNat =
          sumAll childNodes (fun _ c => c.count.toNat * (c.color a).toNat) / n.count.toNat := by
  simp only [Node.copyFromChildNodes] at h
  split_ifs at h with hzero
  obtain rfl := Except.ok.inj h
  have hsum : (Node.sumChildren childNodes fun _ c => c.count).toNat =
      sumAll childNodes fun _ c => c.count.toNat :=
    toNat_sumChildren childNodes (fun _ _ _ => rfl) (hcount.trans (by decide))
  have hpos : 0 < (Node.sumChildren childNodes fun _ c => c.count).toNat :=
    Nat.pos_of_ne_zero fun h => hzero (UInt64.toNat_inj.mp h)
  refine ⟨hsum, hpos, fun a => ⟨?_, ?_⟩⟩
  · have hpoint := toNat_sumChildren childNodes
      (f := fun i c => c.count * ((c.point a).toUInt64 + Node.getChildBitOffset i a))
      (fun i c hi => by
        have hp := point_add_offset_le i c a
        have hmul := Nat.mul_le_mul (count_toNat_lt hcount hi).le hp
        have hadd : ((c.point a).toUInt64 + Node.getChildBitOffset i a).toNat =
            (c.point a).toNat + (Node.getChildBitOffset i a).toNat := by
          rw [UInt64.toNat_add, UInt16.toNat_toUInt64, Nat.mod_eq_of_lt (by omega)]
        rw [UInt64.toNat_mul, hadd, Nat.mod_eq_of_lt (by omega)])
      (sumAll_lt hcount (fun i c => point_add_offset_le i c a) (by decide))
    have hle := sumAll_div_le childNodes fun i c => point_add_offset_le i c a
    simp only [UInt64.toNat_toUInt16, UInt64.toNat_shiftRight, UInt64.toNat_div, hpoint, hsum,
      UInt64.reduceToNat, Nat.reduceMod, Nat.shiftRight_one]
    exact Nat.mod_eq_of_lt (by omega)
  · have hcolor := toNat_sumChildren childNodes
      (f := fun _ c => c.count * (c.color a).toUInt64)
      (fun i c hi => by
        have hmul := Nat.mul_le_mul (count_toNat_lt hcount hi).le (color_le c a)
        rw [UInt64.toNat_mul, UInt8.toNat_toUInt64, Nat.mod_eq_of_lt (by omega)])
      (sumAll_lt hcount (fun _ c => color_le c a) (by decide))
    have hle := sumAll_div_le childNodes fun _ c => color_le c a
    simp only [UInt64.toNat_toUInt8, UInt64.toNat_div, hcolor, hsum]
    exact Nat.mod_eq_of_lt (by omega)

end Exact

/-! ### One level -/

/-- What a division that rounds down loses. -/
theorem div_bounds {x m d : ℕ} (hd : 0 < d) (h : m = x / d) :
    (m * d : ℚ) ≤ x ∧ (x : ℚ) < m * d + d := by
  have h₁ := Nat.div_mul_le_self x d
  have h₂ := Nat.lt_div_mul_add (a := x) hd
  rw [← h] at h₁ h₂
  exact ⟨by exact_mod_cast h₁, by exact_mod_cast h₂⟩

/-- How far a node may be from the leaves below it: multiplied by the number of points, so that it
says nothing of a leaf without points. -/
structure Near (t : Tree ChildNr Node) (n : Node) : Prop where
  count : n.count.toNat = totalCount t
  point_le : ∀ a, (n.count.toNat * (n.point a).toNat : ℚ) ≤ pointSum a t
  le_point : ∀ a, pointSum a t - 2 * totalCount t ≤ n.count.toNat * (n.point a).toNat
  color_le : ∀ a, (n.count.toNat * (n.color a).toNat : ℚ) ≤ colorSum a t
  le_color : ∀ a, colorSum a t - heightAbove t * totalCount t ≤
    n.count.toNat * (n.color a).toNat

theorem near_leaf (n : Node) : Near (.leaf n) n where
  count := by simp [totalCount, leavesBelow]
  point_le a := by simp [pointSum, leavesBelow, pointAbove]
  le_point a := by
    simp only [pointSum, leavesBelow, pointAbove, List.map_cons, List.map_nil, List.sum_cons,
      List.sum_nil, add_zero, sub_le_self_iff]
    positivity
  color_le a := by simp [colorSum, leavesBelow]
  le_color a := by simp [colorSum, leavesBelow, heightAbove]

/-- The node of a tree that may have none. -/
def NearOption (t : Tree ChildNr Node) : Option Node → Prop
  | none => t = .empty
  | some n => Near t n

@[simp] theorem totalCount_empty : totalCount .empty = 0 := rfl

@[simp] theorem pointSum_empty (a : Axis) : pointSum a .empty = 0 := rfl

@[simp] theorem colorSum_empty (a : Axis) : colorSum a .empty = 0 := rfl

section Branch

variable (hkids : ∀ i, NearOption (kids i) (childNodes i))

include hkids

theorem sumAll_count :
    sumAll childNodes (fun _ c => c.count.toNat) = totalCount (.branch kids) := by
  rw [totalCount_branch, sumAll]
  refine Finset.sum_congr rfl fun i _ => ?_
  have hi := hkids i
  cases hc : childNodes i with
  | none =>
    rw [hc] at hi
    rw [show kids i = .empty from hi]
    rfl
  | some c =>
    rw [hc] at hi
    exact hi.count

/-- The sum of the points is passed on with twice its value, and at most two units a point are
lost below. -/
theorem sumAll_point (a : Axis) :
    (sumAll childNodes (fun i c => c.count.toNat *
        ((c.point a).toNat + (Node.getChildBitOffset i a).toNat)) : ℚ) ≤
        2 * pointSum a (.branch kids) ∧
      2 * pointSum a (.branch kids) - 2 * totalCount (.branch kids) ≤
        sumAll childNodes fun i c => c.count.toNat *
          ((c.point a).toNat + (Node.getChildBitOffset i a).toNat) := by
  have hsum : 2 * pointSum a (.branch kids) =
      ∑ i, (pointSum a (kids i) + totalCount (kids i) * if upper i a then 65536 else 0) := by
    rw [pointSum_branch, Finset.mul_sum]
    exact Finset.sum_congr rfl fun i _ => by ring
  have hkid : ∀ i, ((childNodes i).elim 0 (fun c => c.count.toNat *
        ((c.point a).toNat + (Node.getChildBitOffset i a).toNat)) : ℕ) ≤
        pointSum a (kids i) + totalCount (kids i) * (if upper i a then 65536 else 0) ∧
      pointSum a (kids i) + totalCount (kids i) * (if upper i a then 65536 else 0) -
          2 * totalCount (kids i) ≤
        ((childNodes i).elim 0 (fun c => c.count.toNat *
          ((c.point a).toNat + (Node.getChildBitOffset i a).toNat)) : ℕ) := by
    intro i
    have hi := hkids i
    cases hc : childNodes i with
    | none =>
      rw [hc] at hi
      rw [show kids i = .empty from hi]
      simp
    | some c =>
      rw [hc] at hi
      have hle := hi.point_le a
      have hge := hi.le_point a
      simp only [Option.elim_some, toNat_getChildBitOffset, hi.count] at *
      push_cast
      constructor <;> linarith
  rw [hsum, totalCount_branch, sumAll]
  push_cast
  rw [Finset.mul_sum, ← Finset.sum_sub_distrib]
  exact ⟨Finset.sum_le_sum fun i _ => (hkid i).1, Finset.sum_le_sum fun i _ => (hkid i).2⟩

/-- What the colors have lost below grows by one unit a level. -/
theorem sumAll_color (a : Axis) :
    (sumAll childNodes (fun _ c => c.count.toNat * (c.color a).toNat) : ℚ) ≤
        colorSum a (.branch kids) ∧
      colorSum a (.branch kids) -
          (heightAbove (.branch kids) - 1) * totalCount (.branch kids) ≤
        sumAll childNodes fun _ c => c.count.toNat * (c.color a).toNat := by
  have hkid : ∀ i, ((childNodes i).elim 0 (fun c => c.count.toNat * (c.color a).toNat) : ℕ) ≤
        colorSum a (kids i) ∧
      colorSum a (kids i) - (heightAbove (.branch kids) - 1) * totalCount (kids i) ≤
        ((childNodes i).elim 0 (fun c => c.count.toNat * (c.color a).toNat) : ℕ) := by
    intro i
    have hi := hkids i
    cases hc : childNodes i with
    | none =>
      rw [hc] at hi
      rw [show kids i = .empty from hi]
      simp
    | some c =>
      rw [hc] at hi
      have hge := hi.le_color a
      have hheight : (heightAbove (kids i) : ℚ) ≤ heightAbove (.branch kids) - 1 := by
        have h := Finset.le_sup (f := fun i => heightAbove (kids i)) (Finset.mem_univ i)
        have h' : heightAbove (kids i) + 1 ≤ heightAbove (.branch kids) := Nat.succ_le_succ h
        have h'' : (heightAbove (kids i) : ℚ) + 1 ≤ heightAbove (.branch kids) := by
          exact_mod_cast h'
        linarith
      have hmul := mul_le_mul_of_nonneg_right hheight (Nat.cast_nonneg (totalCount (kids i)))
      simp only [Option.elim_some]
      push_cast
      exact ⟨hi.color_le a, by linarith⟩
  rw [colorSum_branch, totalCount_branch, sumAll]
  push_cast
  rw [Finset.mul_sum, ← Finset.sum_sub_distrib]
  exact ⟨Finset.sum_le_sum fun i _ => (hkid i).1, Finset.sum_le_sum fun i _ => (hkid i).2⟩

/-- One level: a summary is near its leaves, and strictly nearer than `Near` asks for. -/
theorem near_branch (hcount : totalCount (.branch kids) < 2 ^ 46) {n : Node}
    (hnode : Node.copyFromChildNodes childNodes = .ok n) :
    Near (.branch kids) n ∧ 0 < n.count.toNat ∧ ∀ a,
      pointSum a (.branch kids) - 2 * totalCount (.branch kids) <
          n.count.toNat * (n.point a).toNat ∧
        colorSum a (.branch kids) - heightAbove (.branch kids) * totalCount (.branch kids) <
          n.count.toNat * (n.color a).toNat := by
  have hsum := sumAll_count hkids
  obtain ⟨hn, hpos, hexact⟩ := copyFromChildNodes_exact (hsum ▸ hcount) hnode
  rw [hsum] at hn
  have hposQ : (0 : ℚ) < n.count.toNat := by exact_mod_cast hpos
  -- both divisions together are one division by twice the count
  have hpoint : ∀ a, (n.count.toNat * (n.point a).toNat : ℚ) ≤ pointSum a (.branch kids) ∧
      pointSum a (.branch kids) - 2 * totalCount (.branch kids) <
        n.count.toNat * (n.point a).toNat := by
    intro a
    obtain ⟨hle, hge⟩ := sumAll_point hkids a
    obtain ⟨h₁, h₂⟩ := div_bounds (d := n.count.toNat * 2) (by omega)
      ((hexact a).1.trans (Nat.div_div_eq_div_mul ..))
    push_cast at h₁ h₂
    rw [← hn] at hge ⊢
    constructor <;> linarith
  have hcolor : ∀ a, (n.count.toNat * (n.color a).toNat : ℚ) ≤ colorSum a (.branch kids) ∧
      colorSum a (.branch kids) - heightAbove (.branch kids) * totalCount (.branch kids) <
        n.count.toNat * (n.color a).toNat := by
    intro a
    obtain ⟨hle, hge⟩ := sumAll_color hkids a
    obtain ⟨h₁, h₂⟩ := div_bounds hpos (hexact a).2
    rw [← hn] at hge ⊢
    constructor <;> linarith
  exact ⟨⟨hn, fun a => (hpoint a).1, fun a => (hpoint a).2.le, fun a => (hcolor a).1,
    fun a => (hcolor a).2.le⟩, hpos, fun a => ⟨(hpoint a).2, (hcolor a).2⟩⟩

end Branch

/-! ### Every level -/

theorem totalCount_le_branch (i : ChildNr) : totalCount (kids i) ≤ totalCount (.branch kids) := by
  rw [totalCount_branch]
  exact Finset.single_le_sum (f := fun i => totalCount (kids i)) (fun _ _ => Nat.zero_le _)
    (Finset.mem_univ i)

theorem Summarized.near {t : Tree ChildNr Node} {o : Option Node} (h : Summarized t o)
    (hcount : totalCount t < 2 ^ 46) : NearOption t o := by
  induction h with
  | empty => rfl
  | leaf n => exact near_leaf n
  | branch hkids hnode ih =>
    exact (near_branch (fun i => ih i ((totalCount_le_branch i).trans_lt hcount)) hcount hnode).1

theorem Below.totalCount_le {t t₀ : Tree ChildNr Node} (h : Below t t₀) :
    totalCount t ≤ totalCount t₀ := by
  induction h with
  | refl => exact Nat.le_refl _
  | kid i _ ih => exact ih.trans (totalCount_le_branch i)

theorem Below.summarized {t t₀ : Tree ChildNr Node} {o₀ : Option Node} (h : Below t t₀)
    (hsum : Summarized t₀ o₀) : ∃ o, Summarized t o := by
  induction h generalizing o₀ with
  | refl => exact ⟨o₀, hsum⟩
  | kid i _ ih =>
    cases hsum with
    | branch hkids _ => exact ih (hkids i)

/-- The mean of the points of the leaves below a node, in its units. -/
def meanPoint (a : Axis) (t : Tree ChildNr Node) : ℚ := pointSum a t / totalCount t

/-- The mean of the colors of the leaves below a node. -/
def meanColor (a : Axis) (t : Tree ChildNr Node) : ℚ := colorSum a t / totalCount t

/-- Every interior node of a tree with less than `2 ^ 46` points is less than two units below the
mean of its leaves, its colors are less than one unit a level below theirs, and none of the sums
wraps. -/
theorem copyFromChildNodes_near_mean {t₀ : Tree ChildNr Node} {o₀ : Option Node}
    (h : Summarized t₀ o₀) (hcount : totalCount t₀ < 2 ^ 46) (hbelow : Below (.branch kids) t₀) :
    ∃ (childNodes : ChildNr → Option Node) (n : Node),
      (∀ i, Summarized (kids i) (childNodes i)) ∧ Node.copyFromChildNodes childNodes = .ok n ∧
        NoOverflow childNodes ∧ ∀ a,
          (meanPoint a (.branch kids) - 2 < (n.point a).toNat ∧
            (n.point a).toNat ≤ meanPoint a (.branch kids)) ∧
          meanColor a (.branch kids) - heightAbove (.branch kids) < (n.color a).toNat ∧
            (n.color a).toNat ≤ meanColor a (.branch kids) := by
  obtain ⟨o, hsum⟩ := hbelow.summarized h
  cases hsum with
  | branch hkids hnode =>
    rename_i childNodes n
    have hlt := hbelow.totalCount_le.trans_lt hcount
    have hnear := fun i => (hkids i).near ((totalCount_le_branch i).trans_lt hlt)
    obtain ⟨hn, hpos, hstrict⟩ := near_branch hnear hlt hnode
    have hposQ : (0 : ℚ) < totalCount (.branch kids) := by
      rw [← hn.count]
      exact_mod_cast hpos
    refine ⟨childNodes, n, hkids, hnode,
      noOverflow_of_lt (by rw [sumAll_count hnear]; exact hlt), fun a => ?_⟩
    have hpoint := hn.point_le a
    have hcolor := hn.color_le a
    obtain ⟨hpoint', hcolor'⟩ := hstrict a
    rw [hn.count] at hpoint hcolor hpoint' hcolor'
    simp only [meanPoint, meanColor, le_div_iff₀ hposQ, sub_lt_iff_lt_add, div_lt_iff₀ hposQ]
    refine ⟨⟨?_, ?_⟩, ?_, ?_⟩ <;> linarith

/-- A leaf of three points beside one of two. -/
def sampleKids (i : ChildNr) : Tree ChildNr Node :=
  if i = 0 then .leaf ⟨3, fun _ => 40001, ![10, 20, 30], 0⟩
  else if i = 7 then .leaf ⟨2, fun _ => 500, ![255, 0, 9], 0⟩
  else .empty

theorem copyFromChildNodes_near_mean_sample :
    ∃ (childNodes : ChildNr → Option Node) (n : Node),
      (∀ i, Summarized (sampleKids i) (childNodes i)) ∧
        Node.copyFromChildNodes childNodes = .ok n ∧ NoOverflow childNodes ∧ ∀ a,
          (meanPoint a (.branch sampleKids) - 2 < (n.point a).toNat ∧
            (n.point a).toNat ≤ meanPoint a (.branch sampleKids)) ∧
          meanColor a (.branch sampleKids) - heightAbove (.branch sampleKids) < (n.color a).toNat ∧
            (n.color a).toNat ≤ meanColor a (.branch sampleKids) := by
  have hkids : ∀ i, Summarized (sampleKids i)
      (if i = 0 then some ⟨3, fun _ => 40001, ![10, 20, 30], 0⟩
        else if i = 7 then some ⟨2, fun _ => 500, ![255, 0, 9], 0⟩ else none) := by
    intro i
    unfold sampleKids
    split_ifs
    · exact .leaf _
    · exact .leaf _
    · exact .empty
  exact copyFromChildNodes_near_mean (.branch hkids rfl) (by decide +kernel) .refl

end Summary

end MegaTree
