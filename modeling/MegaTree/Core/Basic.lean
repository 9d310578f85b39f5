import Mathlib.Algebra.Order.Field.Rat
import Mathlib.Data.Fin.VecNotation
import Mathlib.Data.Fintype.Basic
import Mathlib.Tactic.FinCases

/-!
# Basic types

The fixed-width types of `tree_common.h` and the ways in which the code stops.

* `ShortId`, `Count`, `Color`, `Point` : the `typedef`s, as machine integers.
* `xBit`, `yBit`, `zBit` : the bit of a child number that belongs to each axis; `axisBit` is the
  same as a function of the axis.
* `Err` : the assertions and aborts that the modelled code can run into.
-/

namespace MegaTree

/-- Identifies a node inside its node file. -/
abbrev ShortId := UInt32

/-- Number of points summarised by a node. -/
abbrev Count := UInt64

/-- One color component. -/
abbrev Color := UInt8

/-- One coordinate as a fraction of the cell, in units of `1 / 65536`. -/
abbrev Point := UInt16

/-- A byte buffer. -/
abbrev ByteVec := List UInt8

/-- The number of a child: one bit per axis. -/
abbrev ChildNr := Fin 8

/-- The numerals of `ChildNr`. -/
scoped instance instNeZeroChildNr : NeZero 8 := ⟨by decide⟩

/-- An axis: `0` is `x`, `1` is `y` and `2` is `z`. -/
abbrev Axis := Fin 3

/-- The numerals of `Axis`. -/
scoped instance instNeZeroAxis : NeZero 3 := ⟨by decide⟩

/-- A `double[3]`, with exact rationals for the coordinates. -/
abbrev Vec := Axis → ℚ

/-- `X_BIT` -/
def xBit : ℕ := 2

/-- `Y_BIT` -/
def yBit : ℕ := 1

/-- `Z_BIT` -/
def zBit : ℕ := 0

/-- The bit of a child number that tells the two halves of axis `i` apart. -/
def axisBit : Axis → ℕ := ![xBit, yBit, zBit]

/-- Child `c` lies in the upper half of axis `i`: `c & (1 << X_BIT)` and its siblings. -/
def upper (c : ChildNr) (i : Axis) : Bool := c.val.testBit (axisBit i)

/-- The child number with the given half on each axis. -/
def childOf (b : Axis → Bool) : ChildNr :=
  ⟨(if b 0 then 4 else 0) + (if b 1 then 2 else 0) + (if b 2 then 1 else 0), by
    split_ifs <;> decide⟩

theorem upper_childOf (b : Axis → Bool) (i : Axis) : upper (childOf b) i = b i := by
  generalize h₀ : b 0 = x, h₁ : b 1 = y, h₂ : b 2 = z
  have hb : b = ![x, y, z] := by funext j; fin_cases j <;> assumption
  subst hb
  clear h₀ h₁ h₂
  revert x y z i
  decide

theorem childOf_upper (c : ChildNr) : childOf (upper c) = c := by
  revert c; decide

/-- How the modelled code stops: a failed assertion, an abort, or arithmetic without a value. -/
inductive Err
  /-- `assert(id_level < num*64/3)` in `LongId::getChild`. -/
  | depthLimit
  /-- A division by a count of zero (in `copyFromChildNodes`, `mergeChild` or `addPoint`). -/
  | divideByZero
  /-- The abort of `Node::setPoint` and the assertion of `Node::addPoint`. -/
  | notInGeometry
  /-- An assertion of `Node::copyToChildNode`. -/
  | wrongOctant
  /-- `assert(!parent_node.hasChild(child))` or `assert(parent_node.hasChild(child))`. -/
  | childExists
  /-- A `NULL` node or node file was dereferenced. -/
  | nullPointer
  /-- `assert(!node.isEmpty())` in the queries. -/
  | emptyNode
  /-- `assert(!nodes.empty())` in `TreeFastCache`. -/
  | emptyStack
  /-- `assert(file->getNodeState() == LOADED)` in `createChildNode`. -/
  | notLoaded
  /-- The bound on the recursion of the model was used up. -/
  | outOfFuel
  deriving DecidableEq, Repr

end MegaTree
