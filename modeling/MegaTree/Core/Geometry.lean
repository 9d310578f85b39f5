import MegaTree.Core.LongId
import Mathlib.Tactic.FieldSimp
import Mathlib.Tactic.Linarith

/-!
# Cells

`NodeGeometry` is the axis-parallel box of a node, half open on every axis, with exact rationals
for the corners.  `getChild` halves it and `whichChild` picks the half that a point lies in.

* `contains_whichChild` : a point of a cell lies in the child that `whichChild` names.
* `whichChild_of_contains` : it lies in no other child.
* `geomOf` : the cell of the node at a path, and `getSize_geomOf`, its edge length.
-/

namespace MegaTree

/-- `NodeGeometry`: minimum and maximum corner of a cell, and its level. -/
structure NodeGeometry where
  /-- Minimum corner. -/
  lo : Vec
  /-- Maximum corner. -/
  hi : Vec
  /-- The level of the cell; the root cell has level 1. -/
  level : ℕ

namespace NodeGeometry

/-- `NodeGeometry(tree_center, tree_size)` -/
def ofCenter (treeCenter : Vec) (treeSize : ℚ) : NodeGeometry where
  lo i := treeCenter i - treeSize / 2
  hi i := treeCenter i + treeSize / 2
  level := 1

variable (g : NodeGeometry)

/-- `getCenter(i)`, also the `mid` of `getChild` and the `center` of `whichChild`. -/
def getCenter (i : Axis) : ℚ := (g.lo i + g.hi i) / 2

/-- `getChild(to_child)` -/
def getChild (toChild : ChildNr) : NodeGeometry where
  lo i := if upper toChild i then g.getCenter i else g.lo i
  hi i := if upper toChild i then g.hi i else g.getCenter i
  level := g.level + 1

/-- `whichChild(pnt)` -/
def whichChild (pnt : Vec) : ChildNr := childOf fun i => decide (g.getCenter i ≤ pnt i)

/-- `getSize()`: the edge length, measured along `x`. -/
def getSize : ℚ := g.hi 0 - g.lo 0

/-- `contains(pt)` -/
def contains (pt : Vec) : Bool := decide (∀ i, g.lo i ≤ pt i ∧ pt i < g.hi i)

variable {g}

theorem contains_iff {pt : Vec} : g.contains pt = true ↔ ∀ i, g.lo i ≤ pt i ∧ pt i < g.hi i := by
  simp [contains]

theorem lt_of_contains {pt : Vec} (h : g.contains pt = true) (i : Axis) : g.lo i < g.hi i :=
  (contains_iff.1 h i).1.trans_lt (contains_iff.1 h i).2

theorem upper_whichChild (pt : Vec) (i : Axis) :
    upper (g.whichChild pt) i = decide (g.getCenter i ≤ pt i) := by
  rw [whichChild, upper_childOf]

/-- A point of a cell lies in the child that `whichChild` names. -/
theorem contains_whichChild {pt : Vec} (h : g.contains pt = true) :
    (g.getChild (g.whichChild pt)).contains pt = true := by
  rw [contains_iff] at h ⊢
  intro i
  simp only [getChild, upper_whichChild, decide_eq_true_eq]
  split_ifs with hc
  · exact ⟨hc, (h i).2⟩
  · exact ⟨(h i).1, not_le.1 hc⟩

/-- A point of a child cell is a point of the cell, and `whichChild` names that child. -/
theorem whichChild_of_contains {pt : Vec} {c : ChildNr} (hg : ∀ i, g.lo i < g.hi i)
    (h : (g.getChild c).contains pt = true) : g.contains pt = true ∧ g.whichChild pt = c := by
  rw [contains_iff] at h
  simp only [getChild] at h
  have hmid : ∀ i, g.lo i < g.getCenter i ∧ g.getCenter i < g.hi i := fun i => by
    have := hg i
    constructor <;> simp only [getCenter] <;> linarith
  constructor
  · rw [contains_iff]
    intro i
    have hi := h i
    have hm := hmid i
    split_ifs at hi
    · exact ⟨hm.1.le.trans hi.1, hi.2⟩
    · exact ⟨hi.1, hi.2.trans hm.2⟩
  · rw [← childOf_upper c]
    refine congrArg childOf (funext fun i => ?_)
    have hi := h i
    cases hu : upper c i with
    | true => rw [hu] at hi; exact decide_eq_true hi.1
    | false => rw [hu] at hi; exact decide_eq_false (not_le.2 hi.2)

theorem getChild_lt (hg : ∀ i, g.lo i < g.hi i) (c : ChildNr) (i : Axis) :
    (g.getChild c).lo i < (g.getChild c).hi i := by
  have := hg i
  simp only [getChild, getCenter]
  split_ifs <;> linarith

/-- A child cell lies inside its parent. -/
theorem getChild_subset (hg : ∀ i, g.lo i < g.hi i) (c : ChildNr) (i : Axis) :
    g.lo i ≤ (g.getChild c).lo i ∧ (g.getChild c).hi i ≤ g.hi i := by
  have := hg i
  simp only [getChild, getCenter]
  split_ifs <;> constructor <;> linarith

theorem getSize_getChild (c : ChildNr) : (g.getChild c).getSize = g.getSize / 2 := by
  simp only [getSize, getChild, getCenter]
  split_ifs <;> ring

end NodeGeometry

/-- The cell of the node at a path below a root cell. -/
def geomOf (root : NodeGeometry) : Path → NodeGeometry
  | [] => root
  | c :: π => (geomOf root π).getChild c

variable {root : NodeGeometry}

/-- A cell that contains a point lies in a root cell with positive edges. -/
theorem root_lt_of_contains {pt : Vec} {π : Path} (h : (geomOf root π).contains pt = true) :
    ∀ i, root.lo i < root.hi i := by
  have up : ∀ π : Path, (∀ i, (geomOf root π).lo i < (geomOf root π).hi i) →
      ∀ i, root.lo i < root.hi i := by
    intro π
    induction π with
    | nil => exact id
    | cons c π ih =>
      intro hc
      refine ih fun i => ?_
      have := hc i
      simp only [geomOf, NodeGeometry.getChild, NodeGeometry.getCenter] at this
      split_ifs at this <;> linarith
  exact up π (NodeGeometry.lt_of_contains h)

theorem geomOf_lt (hr : ∀ i, root.lo i < root.hi i) (π : Path) :
    ∀ i, (geomOf root π).lo i < (geomOf root π).hi i := by
  induction π with
  | nil => exact hr
  | cons c π ih => exact NodeGeometry.getChild_lt ih c

/-- The edge length halves with every step. -/
theorem getSize_geomOf (π : Path) : (geomOf root π).getSize = root.getSize / 2 ^ π.length := by
  induction π with
  | nil => simp [geomOf]
  | cons c π ih =>
    rw [geomOf, NodeGeometry.getSize_getChild, ih, List.length_cons, pow_succ]
    field_simp

end MegaTree
