import MegaTree.Core.NodeFile
import Mathlib.Tactic.Ring

/-!
# The format of the viewer

`VizStorage` turns a node file into the bytes that the viewer draws: the byte of child files, then
six bytes per node.  The position of a node is the center of its cell in the file, which the loop
over the octal digits of its short id shifts into place, and the lowest bit of the last color byte
says whether the node has children.

* `convert_serialize` : the output for a node file, record by record.
* `toNat_localPoint` : what the loop over the digits computes.
-/

namespace MegaTree

namespace VizStorage

/-- One round of the loop of `convert` that moves a point from the frame of its node to that of the
node file. -/
def shiftPoint (shortId : ShortId) (pnt : Axis → Point) (i : ℕ) (a : Axis) : Point :=
  let which := (shortId >>> .ofNat (i * 3)) &&& (7 : UInt32)
  (pnt a >>> 1) ||| (if which &&& ((1 : UInt32) <<< .ofNat (axisBit a)) ≠ 0 then 0x8000 else 0)

/-- The point of a node in the frame of the node file: the center of its cell. -/
def localPoint (subtreeWidth : ℕ) (shortId : ShortId) : Axis → Point :=
  (List.range subtreeWidth).foldl (shiftPoint shortId) fun _ => 32768

/-- Whether the node is a leaf, stashed into the lowest bit of a color. -/
def stash (children color : UInt8) : UInt8 := if children = 0 then color &&& 0xfe else color ||| 1

/-- The six bytes of a node. -/
def convertNode (subtreeWidth : ℕ) (shortId : ShortId) (n : Node) : ByteVec :=
  let pnt := localPoint subtreeWidth shortId
  [(pnt 0 >>> 8).toUInt8, (pnt 1 >>> 8).toUInt8, (pnt 2 >>> 8).toUInt8,
    n.color 0, n.color 1, stash n.children (n.color 2)]

/-- The loop of `convert`, which reads the same record as `deserializeNode` and skips the point.
Every round moves the offset, so `fuel` rounds suffice for a buffer of that many bytes. -/
def convertNodes (subtreeWidth : ℕ) (data : ByteVec) : ℕ → ℕ → Option ByteVec
  | 0, _ => none
  | fuel + 1, offset =>
    if offset < data.length then
      match deserializeNode data offset with
      | some (n, shortId, offset') =>
        (convertNodes subtreeWidth data fuel offset').map (convertNode subtreeWidth shortId n ++ ·)
      | none => none
    else some []

/-- `convert(data, res)`, or `none` where a read leaves the buffer. -/
def convert (subtreeWidth : ℕ) (data : ByteVec) : Option ByteVec := do
  let children ← readLe data 0 1
  let nodes ← convertNodes subtreeWidth data (data.length + 1) 1
  some (.ofNat children :: nodes)

/-! ### A node file -/

@[simp] theorem length_convertNode (w : ℕ) (s : ShortId) (n : Node) :
    (convertNode w s n).length = 6 := rfl

theorem convertNodes_of_drop {data : ByteVec} {w fuel offset : ℕ} {l : List (ShortId × Node)}
    (ho : offset ≤ data.length) (hf : l.length < fuel)
    (h : data.drop offset = l.flatMap fun x => serializeNode x.2 x.1) :
    convertNodes w data fuel offset = some (l.flatMap fun x => convertNode w x.1 x.2) := by
  induction l generalizing fuel offset with
  | nil =>
    obtain ⟨fuel, rfl⟩ := Nat.exists_eq_succ_of_ne_zero (Nat.ne_of_gt hf)
    have hlen := congrArg List.length h
    rw [List.length_drop, List.flatMap_nil, List.length_nil] at hlen
    rw [convertNodes, if_neg (by omega), List.flatMap_nil]
  | cons x l ih =>
    obtain ⟨fuel, rfl⟩ := Nat.exists_eq_succ_of_ne_zero (Nat.ne_of_gt (Nat.zero_lt_of_lt hf))
    obtain ⟨hlt, hle, hd, h'⟩ := deserializeNode_of_records h
    have hrest : convertNodes w data fuel (offset + nodeSize) = _ := ih hle (by simpa using hf) h'
    rw [convertNodes, if_pos hlt]
    simp only [hd, hrest, Option.map_some, List.flatMap_cons]

/-- The output for a node file: its child byte, and one record per node in the order of the
file. -/
theorem convert_serialize (w : ℕ) (f : FileData) :
    convert w (serialize f) =
      some (f.childFiles :: f.nodeCache.toList.flatMap fun x => convertNode w x.1 x.2) := by
  have hdrop : (serialize f).drop 0 =
      [f.childFiles] ++ f.nodeCache.toList.flatMap fun x => serializeNode x.2 x.1 := rfl
  have hbyte := (readLe_of_drop hdrop (k := 1) rfl (by decide)).1
  have hlen : f.nodeCache.toList.length ≤ (serialize f).length := by
    rw [serialize, List.length_cons, List.length_flatMap]
    simp only [length_serializeNode, List.map_const', List.sum_replicate, smul_eq_mul, nodeSize]
    omega
  rw [convert, hbyte, convertNodes_of_drop (by simp [serialize]) (Nat.lt_succ_of_le hlen) rfl]
  simp [ofLeBytes]

/-! ### The position of a node -/

/-- The octal digit of a short id at a position, `0` for the least significant one. -/
def digit (s : ShortId) (i : ℕ) : ChildNr := ⟨s.toNat / 8 ^ i % 8, Nat.mod_lt _ (by decide)⟩

/-- The place of a node along an axis, in units of the cells that are `w` levels below the file. -/
def place (s : ShortId) (a : Axis) : ℕ → ℕ
  | 0 => 0
  | w + 1 => place s a w + if upper (digit s w) a then 2 ^ w else 0

theorem place_lt (s : ShortId) (a : Axis) (w : ℕ) : place s a w < 2 ^ w := by
  induction w with
  | zero => exact Nat.one_pos
  | succ w ih =>
    rw [place, pow_succ]
    split_ifs <;> omega

theorem which_toNat (s : ShortId) {i : ℕ} (hi : i < 10) :
    ((s >>> .ofNat (i * 3)) &&& (7 : UInt32)).toNat = (digit s i).val := by
  have hshift : (UInt32.ofNat (i * 3)).toNat % 32 = i * 3 := by
    rw [UInt32.toNat_ofNat']
    omega
  rw [UInt32.toNat_and, UInt32.toNat_shiftRight, hshift, Nat.shiftRight_eq_div_pow,
    show (7 : UInt32).toNat = 2 ^ 3 - 1 from rfl, Nat.and_two_pow_sub_one_eq_mod, Nat.mul_comm i 3,
    pow_mul]
  rfl

/-- The test of one bit of a digit. -/
theorem which_ne_zero_iff (s : ShortId) {i : ℕ} (hi : i < 10) (a : Axis) :
    ((s >>> .ofNat (i * 3)) &&& (7 : UInt32)) &&& ((1 : UInt32) <<< .ofNat (axisBit a)) ≠ 0 ↔
      upper (digit s i) a = true := by
  have all : ∀ (d : ChildNr) (a : Axis),
      UInt32.ofNat d.val &&& ((1 : UInt32) <<< .ofNat (axisBit a)) ≠ 0 ↔ upper d a = true := by
    decide +kernel
  rw [← all, ← which_toNat s hi, UInt32.ofNat_toNat]

/-- A round halves the point and puts the bit of the digit on top. -/
theorem toNat_shiftPoint (s : ShortId) (pnt : Axis → Point) {i : ℕ} (hi : i < 10) (a : Axis) :
    (shiftPoint s pnt i a).toNat =
      (pnt a).toNat / 2 + if upper (digit s i) a then 32768 else 0 := by
  have hlt := (pnt a).toNat_lt
  have hhalf : (pnt a >>> 1).toNat = (pnt a).toNat / 2 := by
    rw [UInt16.toNat_shiftRight]
    exact Nat.shiftRight_eq_div_pow _ 1
  simp only [shiftPoint, which_ne_zero_iff s hi]
  split_ifs
  · rw [UInt16.toNat_or, hhalf, show (0x8000 : UInt16).toNat = 2 ^ 15 * 1 from rfl, Nat.or_comm,
      ← Nat.two_pow_add_eq_or_of_lt (by omega), Nat.add_comm]
  · rw [UInt16.or_zero, hhalf, Nat.add_zero]

/-- After the digits the point is the center of the cell of the node. -/
theorem toNat_localPoint (s : ShortId) (a : Axis) {w : ℕ} (hw : w < 10) :
    (localPoint w s a).toNat = (2 * place s a w + 1) * 2 ^ (15 - w) := by
  induction w with
  | zero => simp [localPoint, place]
  | succ w ih =>
    obtain ⟨k, hk⟩ : ∃ k, 15 - w = k + 1 := ⟨14 - w, by omega⟩
    have hk' : 15 - (w + 1) = k := by omega
    have hpow : 2 ^ (w + 1) * 2 ^ k = 32768 := by
      rw [← pow_add, show w + 1 + k = 15 by omega]
      rfl
    have hround := toNat_shiftPoint s (localPoint w s) (i := w) (by omega) a
    rw [ih (by omega), hk, pow_succ, ← Nat.mul_assoc, Nat.mul_div_cancel _ (by decide)] at hround
    rw [localPoint, List.range_succ, List.foldl_append]
    refine hround.trans ?_
    rw [hk', place]
    split_ifs
    · rw [← hpow]
      ring
    · ring

end VizStorage

end MegaTree
