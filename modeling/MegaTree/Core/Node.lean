import MegaTree.Core.Geometry
import Mathlib.Algebra.BigOperators.Fin
import Mathlib.Data.Rat.Floor

/-!
# Nodes

`Node` has the count, the fixed-point position inside its cell, the color and the mask of existing
children.  The functions are those of `node.h`: conversions between positions and fixed point,
`setPoint` and `addPoint` for points, `copyToChildNode` for splitting a leaf and
`copyFromChildNodes` for the summary of an interior node.

Machine integers wrap as in the source.  Where the source divides by a count of zero the model
stops with `Err.divideByZero`: for `1.0 / (double)count` there is no rational result either.
-/

namespace MegaTree

/-- `BITS_D` -/
def bitsD : ℚ := 65536

/-- `BITS` -/
def bits : UInt64 := 65536

/-- `BITS_2` -/
def bits2 : Point := 32768

/-- Truncation of a `double` towards zero. -/
def trunc (q : ℚ) : ℤ := q.num.tdiv q.den

/-- `(Point)q`; out of range the conversion is undefined in C++, and wraps here. -/
def toPoint (q : ℚ) : Point := .ofInt (trunc q)

/-- `(Color)q`; out of range the conversion is undefined in C++, and wraps here. -/
def toColor (q : ℚ) : Color := .ofInt (trunc q)

/-- `float_to_fixed` -/
def floatToFixed (ng : NodeGeometry) (ptFloat : Vec) : Axis → Point := fun i =>
  toPoint (bitsD * (ptFloat i - ng.lo i) / (ng.hi i - ng.lo i))

/-- `fixed_to_float` -/
def fixedToFloat (ng : NodeGeometry) (ptFixed : Axis → Point) : Vec := fun i =>
  ng.lo i + (((ptFixed i).toNat + 1 / 2) / bitsD) * (ng.hi i - ng.lo i)

/-- `Node` -/
structure Node where
  /-- Number of points summarised by the node. -/
  count : Count
  /-- Position inside the cell. -/
  point : Axis → Point
  /-- Color. -/
  color : Axis → Color
  /-- Which children exist, one bit per child. -/
  children : UInt8
  deriving DecidableEq

namespace Node

/-- `1 << i` in a mask of children. -/
def childBit (i : ChildNr) : UInt8 := 1 <<< UInt8.ofNat i.val

/-- `Node()` -/
def new : Node := ⟨0, fun _ => 0, fun _ => 0, 0⟩

variable (n : Node)

/-- `isEmpty()` -/
def isEmpty : Bool := n.count == 0

/-- `isLeaf()` -/
def isLeaf : Bool := n.children == 0

/-- `hasChild(i)` -/
def hasChild (i : ChildNr) : Bool := (n.children >>> .ofNat i.val) &&& 1 == 1

/-- `setChild(i)` -/
def setChild (i : ChildNr) : Node := { n with children := n.children ||| childBit i }

/-- `reset()`: the position and the color keep what the object held before. -/
def reset : Node := { n with count := 0, children := 0 }

/-- `getChildBitOffset(child, child_position)`, the integer version. -/
def getChildBitOffset (child : ChildNr) (i : Axis) : UInt64 := if upper child i then bits else 0

/-- A sum over the existing children, accumulated in the order of the loop over `child_nodes`. -/
def sumChildren (childNodes : ChildNr → Option Node) (f : ChildNr → Node → UInt64) : UInt64 :=
  (List.finRange 8).foldl (fun acc i => match childNodes i with
    | some c => acc + f i c
    | none => acc) 0

/-- The mask of the existing children, accumulated by `children += (1 << i)`. -/
def childMask (childNodes : ChildNr → Option Node) : UInt8 :=
  (List.finRange 8).foldl (fun acc i => match childNodes i with
    | some _ => acc + childBit i
    | none => acc) 0

/-- `copyFromChildNodes(child_nodes)`: every field is recomputed. -/
def copyFromChildNodes (childNodes : ChildNr → Option Node) : Except Err Node :=
  let count := sumChildren childNodes fun _ c => c.count
  if count = 0 then .error .divideByZero
  else .ok {
    count := count
    children := childMask childNodes
    point := fun a => (((sumChildren childNodes fun i c =>
      c.count * ((c.point a).toUInt64 + getChildBitOffset i a)) / count) >>> 1).toUInt16
    color := fun a => ((sumChildren childNodes fun _ c =>
      c.count * (c.color a).toUInt64) / count).toUInt8 }

/-- `getChildForNodePoint()` -/
def getChildForNodePoint : ChildNr := childOf fun i => decide (bits2 ≤ n.point i)

/-- `copyToChildNode(child, child_node)`: the new contents of the child. -/
def copyToChildNode (child : ChildNr) (childNode : Node) : Except Err Node :=
  if ∀ i, upper child i = decide (bits2 ≤ n.point i) then
    .ok { childNode with point := fun i => n.point i <<< 1, color := n.color, count := n.count }
  else .error .wrongOctant

/-- `getPoint(ng, pnt)` -/
def getPoint (ng : NodeGeometry) : Vec := fixedToFloat ng n.point

/-- `getColor(col)` -/
def getColor : Vec := fun i => (n.color i).toNat

/-- `setPoint(ng, pt, col)` with the default count of one. -/
def setPoint (ng : NodeGeometry) (pt col : Vec) : Except Err Node :=
  if ng.contains pt then
    .ok { n with count := 1, point := floatToFixed ng pt, color := fun i => toColor (col i) }
  else .error .notInGeometry

/-- `addPoint(ng, pt_float, col)`: the running average. -/
def addPoint (ng : NodeGeometry) (ptFloat col : Vec) : Except Err Node :=
  if ng.contains ptFloat then
    let pt := floatToFixed ng ptFloat
    let count := n.count + 1
    if count = 0 then .error .divideByZero
    else
      let f : ℚ := 1 / count.toNat
      .ok { n with
        count := count
        point := fun i => toPoint ((1 - f) * (n.point i).toNat + f * (pt i).toNat)
        color := fun i => toColor ((1 - f) * (n.color i).toNat + f * col i) }
  else .error .notInGeometry

variable {n}

/-! ### Counts and emptiness -/

theorem isEmpty_iff : n.isEmpty = true ↔ n.count = 0 := by simp [isEmpty]

theorem isLeaf_iff : n.isLeaf = true ↔ n.children = 0 := by simp [isLeaf]

@[simp] theorem isEmpty_reset (n : Node) : n.reset.isEmpty = true := rfl

@[simp] theorem isLeaf_reset (n : Node) : n.reset.isLeaf = true := rfl

@[simp] theorem count_setChild (i : ChildNr) : (n.setChild i).count = n.count := rfl

/-! ### The mask of children -/

theorem hasChild_eq (n : Node) (i : ChildNr) : n.hasChild i = n.children.toNat.testBit i.val := by
  have hi : (UInt8.ofNat i.val).toNat % 8 = i.val := by
    rw [UInt8.toNat_ofNat']; omega
  rw [hasChild, Bool.eq_iff_iff, beq_iff_eq, ← UInt8.toNat_inj, UInt8.toNat_and,
    UInt8.toNat_shiftRight, hi, Nat.testBit]
  simp [Nat.and_comm]

theorem hasChild_setChild (i j : ChildNr) :
    (n.setChild i).hasChild j = (decide (j = i) || n.hasChild j) := by
  have hi : (UInt8.ofNat i.val).toNat % 8 = i.val := by
    rw [UInt8.toNat_ofNat']; omega
  have hone : (childBit i).toNat = 1 <<< i.val := by
    rw [childBit, UInt8.toNat_shiftLeft, hi, Nat.mod_eq_of_lt]
    · rfl
    · rw [Nat.shiftLeft_eq, UInt8.toNat_one, Nat.one_mul]
      exact Nat.pow_lt_pow_right (by decide) i.isLt
  rw [hasChild_eq, hasChild_eq, setChild, UInt8.toNat_or, Nat.testBit_or, hone,
    Nat.shiftLeft_eq, Nat.one_mul, Nat.testBit_two_pow]
  rw [Bool.or_comm]
  congr 1
  exact decide_eq_decide.2 ⟨fun h => Fin.ext h.symm, fun h => congrArg Fin.val h.symm⟩

/-- Two masks with the same bits are equal. -/
theorem children_ext {a b : UInt8}
    (h : ∀ i : ChildNr, a.toNat.testBit i.val = b.toNat.testBit i.val) : a = b := by
  apply UInt8.toNat_inj.1
  apply Nat.eq_of_testBit_eq
  intro k
  by_cases hk : k < 8
  · exact h ⟨k, hk⟩
  · have hb : ∀ x : UInt8, x.toNat.testBit k = false := fun x =>
      Nat.testBit_lt_two_pow (x.toNat_lt.trans_le (Nat.pow_le_pow_right (by decide) (by omega)))
    rw [hb, hb]

theorem isLeaf_iff_hasChild : n.isLeaf = true ↔ ∀ i, n.hasChild i = false := by
  rw [isLeaf_iff]
  constructor
  · intro h i; rw [hasChild_eq, h]; exact Nat.zero_testBit _
  · intro h
    refine children_ext fun i => ?_
    rw [← hasChild_eq, h]
    exact (Nat.zero_testBit _).symm

theorem hasChild_reset (i : ChildNr) : n.reset.hasChild i = false :=
  isLeaf_iff_hasChild.1 (isLeaf_reset n) i

/-- The mask that `copyFromChildNodes` accumulates has exactly the bits of the given children. -/
theorem testBit_childMask (childNodes : ChildNr → Option Node) (i : ChildNr) :
    (childMask childNodes).toNat.testBit i.val = (childNodes i).isSome := by
  have key : ∀ b : ChildNr → Bool, ((List.finRange 8).foldl (fun acc i =>
      if b i then acc + childBit i else acc) (0 : UInt8)).toNat.testBit i.val = b i := by
    have h8 : ∀ b₀ b₁ b₂ b₃ b₄ b₅ b₆ b₇ : Bool, ∀ i : ChildNr,
        ((List.finRange 8).foldl (fun acc i => if ![b₀, b₁, b₂, b₃, b₄, b₅, b₆, b₇] i then
          acc + childBit i else acc) (0 : UInt8)).toNat.testBit i.val =
        ![b₀, b₁, b₂, b₃, b₄, b₅, b₆, b₇] i := by decide +kernel
    intro b
    have hb : b = ![b 0, b 1, b 2, b 3, b 4, b 5, b 6, b 7] := by
      funext j; fin_cases j <;> rfl
    rw [hb]
    exact h8 _ _ _ _ _ _ _ _ i
  rw [← key fun i => (childNodes i).isSome, childMask]
  congr 2
  refine congrArg (fun f => List.foldl f 0 (List.finRange 8)) ?_
  funext acc j
  cases childNodes j <;> rfl

theorem sumChildren_toNat (childNodes : ChildNr → Option Node) (f : ChildNr → Node → UInt64) :
    (sumChildren childNodes f).toNat =
      (∑ i, match childNodes i with | some c => (f i c).toNat | none => 0) % 2 ^ 64 := by
  have key : ∀ (l : List ChildNr) (acc : UInt64),
      (l.foldl (fun acc i => match childNodes i with
        | some c => acc + f i c
        | none => acc) acc).toNat = (acc.toNat + (l.map fun i => match childNodes i with
        | some c => (f i c).toNat
        | none => 0).sum) % 2 ^ 64 := by
    intro l
    induction l with
    | nil => intro acc; simp [Nat.mod_eq_of_lt acc.toNat_lt]
    | cons i l ih =>
      intro acc
      simp only [List.foldl_cons, List.map_cons, List.sum_cons]
      rw [ih]
      cases childNodes i with
      | none => simp
      | some c => simp only [UInt64.toNat_add, Nat.mod_add_mod, Nat.add_assoc]
  rw [sumChildren, key, Fin.sum_univ_def]
  simp

theorem hasChild_of_copyFromChildNodes {childNodes : ChildNr → Option Node} {n : Node}
    (h : copyFromChildNodes childNodes = .ok n) (i : ChildNr) :
    n.hasChild i = (childNodes i).isSome := by
  simp only [copyFromChildNodes] at h
  split_ifs at h
  obtain rfl := Except.ok.inj h
  rw [hasChild_eq, testBit_childMask]

theorem count_of_copyFromChildNodes {childNodes : ChildNr → Option Node} {n : Node}
    (h : copyFromChildNodes childNodes = .ok n) :
    n.count = sumChildren childNodes (fun _ c => c.count) ∧ n.count ≠ 0 := by
  simp only [copyFromChildNodes] at h
  split_ifs at h with hz
  obtain rfl := Except.ok.inj h
  exact ⟨rfl, hz⟩

theorem copyFromChildNodes_error {childNodes : ChildNr → Option Node} {e : Err}
    (h : copyFromChildNodes childNodes = .error e) :
    e = .divideByZero ∧ sumChildren childNodes (fun _ c => c.count) = 0 := by
  simp only [copyFromChildNodes] at h
  split_ifs at h with hz
  exact ⟨(Except.error.inj h).symm, hz⟩

/-! ### Positions -/

/-- The representative point of a node lies strictly inside its cell. -/
theorem getPoint_mem {ng : NodeGeometry} {i : Axis} (h : ng.lo i < ng.hi i) :
    ng.lo i < n.getPoint ng i ∧ n.getPoint ng i < ng.hi i := by
  have hp : ((n.point i).toNat : ℚ) ≤ 65535 := by
    have := (n.point i).toNat_lt
    exact_mod_cast (show (n.point i).toNat ≤ 65535 by omega)
  have h0 : (0 : ℚ) ≤ (n.point i).toNat := Nat.cast_nonneg _
  set t : ℚ := (((n.point i).toNat : ℚ) + 1 / 2) / bitsD with ht
  have ht0 : 0 < t := by rw [ht, bitsD]; positivity
  have ht1 : t < 1 := by rw [ht, bitsD, div_lt_one (by norm_num)]; linarith
  have hd : 0 < ng.hi i - ng.lo i := by linarith
  simp only [getPoint, fixedToFloat, ← ht]
  constructor
  · have := mul_pos ht0 hd; linarith
  · have := mul_lt_mul_of_pos_right ht1 hd; linarith

/-! ### Fixed point -/

theorem trunc_of_nonneg {q : ℚ} (h : 0 ≤ q) : trunc q = ⌊q⌋ := by
  rw [trunc, Rat.floor_def', Int.tdiv_eq_ediv_of_nonneg (Rat.num_nonneg.2 h)]

/-- In range the conversion to fixed point rounds down. -/
theorem toPoint_toNat {q : ℚ} (h₀ : 0 ≤ q) (h₁ : q < bitsD) :
    ((toPoint q).toNat : ℚ) ≤ q ∧ q < (toPoint q).toNat + 1 := by
  have hlo : 0 ≤ ⌊q⌋ := Int.floor_nonneg.2 h₀
  have hhi : ⌊q⌋ < 65536 := Int.floor_lt.2 (by simpa [bitsD] using h₁)
  have hnat : ((toPoint q).toNat : ℤ) = ⌊q⌋ := by
    rw [toPoint, trunc_of_nonneg h₀, UInt16.ofInt, UInt16.toNat_ofNat']
    omega
  have hcast : ((toPoint q).toNat : ℚ) = ((⌊q⌋ : ℤ) : ℚ) := by
    rw [← hnat]
    exact (Int.cast_natCast _).symm
  rw [hcast]
  exact ⟨Int.floor_le q, Int.lt_floor_add_one q⟩

/-- The bits of a position that is handed down to a child. -/
theorem toNat_shiftLeft_one (x : Point) :
    (x <<< 1).toNat = 2 * x.toNat - if bits2 ≤ x then 65536 else 0 := by
  have hx := x.toNat_lt
  have hle : bits2 ≤ x ↔ 32768 ≤ x.toNat := UInt16.le_iff_toNat_le
  rw [UInt16.toNat_shiftLeft, show (1 : UInt16).toNat % 16 = 1 from rfl, Nat.shiftLeft_eq]
  split_ifs with h
  · rw [hle] at h
    omega
  · rw [hle] at h
    omega

end Node

end MegaTree
