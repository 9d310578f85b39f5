import MegaTree.Viz.VizStorage
import Mathlib.Data.Nat.Bitwise
import Mathlib.Data.Rat.Floor
import Mathlib.Tactic.FieldSimp
import Mathlib.Tactic.Linarith

/-!
# Cells of the viewer

A `Cell` holds the converted bytes of one node file.  `getPoint` computes positions from them,
`pickValid` decides which of its points can be picked, and `keepsVertex` is the test of the vertex
shader for points that are drawn.

* `convert_getPoint` : the points of a cell lie in the cells of their nodes.
* `pickValid_iff_keepsVertex` : when picking agrees with drawing.
-/

namespace MegaTree

open VizStorage

/-- `getRootGeom(tree_metadata)` -/
def getRootGeom (rootCenter : Vec) (rootSize : ℚ) : NodeGeometry := .ofCenter rootCenter rootSize

/-- `Cell` -/
structure Cell where
  /-- Which child files exist, one bit per child. -/
  children : UInt8
  /-- Six bytes per point. -/
  data : ByteVec
  geometry : NodeGeometry
  /-- The octants in which the summaries are drawn, one bit per octant. -/
  showChildren : ℕ

namespace Cell

/-- `new Cell(id, geometry, buffer)` -/
def new (geometry : NodeGeometry) (buffer : ByteVec) : Cell where
  children := buffer.headD 0
  data := buffer.drop 1
  geometry := geometry
  showChildren := 0

variable (cell : Cell)

/-- `show_children = m` -/
def setShowChildren (m : ℕ) : Cell := { cell with showChildren := m }

/-- `scale` -/
def scale : ℚ := cell.geometry.hi 0 - cell.geometry.lo 0

/-- `offset` -/
def offset : Vec := cell.geometry.lo

/-- `data[k]` -/
def byte (k : ℕ) : ℕ := (cell.data.getD k 0).toNat

/-- `getPoint(i)` -/
def getPoint (i : ℕ) : Vec := fun a => cell.byte (6 * i + a) * cell.scale / 255 + cell.offset a

/-- `pickValid(i)` -/
def pickValid (i : ℕ) : Bool :=
  if cell.byte (6 * i + 5) &&& 1 = 1 then true
  else
    let child := ((cell.byte (6 * i) >>> 7) <<< 2) &&& ((cell.byte (6 * i + 1) >>> 7) <<< 1) &&&
      (cell.byte (6 * i + 2) >>> 7)
    if cell.showChildren &&& (1 <<< child) = 0 then true else false

/-! ### The vertex shader -/

/-- The uniform `show_children[i]` that `render` sets. -/
def uniformShowChildren (i : ℕ) : ℕ := if cell.showChildren &&& (1 <<< i) = 0 then 0 else 1

/-- `ps_Vertex` of point `i`: unsigned bytes, normalized. -/
def psVertex (i : ℕ) (a : Axis) : ℚ := cell.byte (6 * i + a) / 255

/-- `ps_Color` of point `i`. -/
def psColor (i : ℕ) (a : Axis) : ℚ := cell.byte (6 * i + 3 + a) / 255

/-- `mod` of the shading language. -/
def glslMod (x y : ℚ) : ℚ := x - y * ⌊x / y⌋

/-- The test of `main` in `cell.vsh` for point `i`: whether it is not moved off the screen. -/
def keepsVertex (i : ℕ) : Bool :=
  if glslMod (255 * cell.psColor i 2) 2 = 1 then
    let child := (if cell.psVertex i 0 > 1 / 2 then 4 else 0) +
      (if cell.psVertex i 1 > 1 / 2 then 2 else 0) + (if cell.psVertex i 2 > 1 / 2 then 1 else 0)
    cell.uniformShowChildren child ≠ 0
  else true

end Cell

/-! ### The bytes of a point -/

theorem getElem?_flatMap_convertNode (w : ℕ) (l : List (ShortId × Node)) {i k : ℕ}
    (hi : i < l.length) (hk : k < 6) :
    (l.flatMap fun x => convertNode w x.1 x.2)[6 * i + k]? =
      (convertNode w l[i].1 l[i].2)[k]? := by
  induction l generalizing i with
  | nil => simp at hi
  | cons x l ih =>
    rw [List.flatMap_cons]
    cases i with
    | zero =>
      rw [List.getElem?_append_left (by simpa using hk)]
      simp
    | succ i =>
      rw [List.getElem?_append_right (by simp; omega), length_convertNode,
        show 6 * (i + 1) + k - 6 = 6 * i + k by omega, ih (by simpa using hi)]
      simp

/-- A byte of a cell made from a node file. -/
theorem byte_convert {w : ℕ} {f : FileData} {res : ByteVec} (h : convert w (serialize f) = some res)
    (g : NodeGeometry) {i k : ℕ} (hi : i < f.nodeCache.toList.length) (hk : k < 6) :
    (Cell.new g res).byte (6 * i + k) =
      ((convertNode w f.nodeCache.toList[i].1 f.nodeCache.toList[i].2).getD k 0).toNat := by
  rw [convert_serialize] at h
  obtain rfl := Option.some.inj h
  simp only [Cell.byte, Cell.new, List.drop_succ_cons, List.drop_zero, List.getD_eq_getElem?_getD]
  rw [getElem?_flatMap_convertNode w _ hi hk]

/-! ### Positions -/

/-- The geometry that is reached from that of a file through `w` digits of a short id, the most
significant one first. -/
def descend (g : NodeGeometry) : ℕ → ShortId → NodeGeometry
  | 0, _ => g
  | w + 1, s => descend (g.getChild (digit s w)) w s

theorem descend_lo (g : NodeGeometry) (w : ℕ) (s : ShortId) (a : Axis) :
    (descend g w s).lo a = g.lo a + (g.hi a - g.lo a) * place s a w / 2 ^ w ∧
      (descend g w s).hi a = g.lo a + (g.hi a - g.lo a) * (place s a w + 1) / 2 ^ w := by
  induction w generalizing g with
  | zero => simp [descend, place]
  | succ w ih =>
    obtain ⟨hlo, hhi⟩ := ih (g.getChild (digit s w))
    rw [descend, hlo, hhi, place]
    simp only [NodeGeometry.getChild, NodeGeometry.getCenter]
    split_ifs <;> push_cast <;> constructor <;> field_simp <;> ring

/-- Every cell of a tree is a cube. -/
theorem edge_geomOf (center : Vec) (size : ℚ) (path : Path) (a : Axis) :
    (geomOf (getRootGeom center size) path).hi a - (geomOf (getRootGeom center size) path).lo a =
      size / 2 ^ path.length := by
  induction path with
  | nil =>
    simp only [geomOf, getRootGeom, NodeGeometry.ofCenter, List.length_nil]
    ring
  | cons c path ih =>
    rw [List.length_cons, pow_succ, ← div_div, ← ih]
    simp only [geomOf, NodeGeometry.getChild, NodeGeometry.getCenter]
    split_ifs <;> ring

/-- The byte of a coordinate: the center of the cell of the node in 256 steps. -/
theorem toNat_getD_convertNode {w : ℕ} (hw : w ≤ 7) (s : ShortId) (n : Node) (a : Axis) :
    ((convertNode w s n).getD a 0).toNat = (2 * place s a w + 1) * 2 ^ (7 - w) := by
  have hbyte : ((localPoint w s a >>> 8).toUInt8).toNat = (2 * place s a w + 1) * 2 ^ (7 - w) := by
    have hpoint := toNat_localPoint s a (w := w) (by omega)
    have hpow : (2 : ℕ) ^ (15 - w) = 2 ^ (7 - w) * 2 ^ 8 := by
      rw [← pow_add]
      congr 1
      omega
    have hlt := (localPoint w s a).toNat_lt
    rw [UInt16.toNat_toUInt8, UInt16.toNat_shiftRight, show (8 : UInt16).toNat % 16 = 8 from rfl,
      Nat.shiftRight_eq_div_pow, Nat.mod_eq_of_lt (by omega), hpoint, hpow, ← Nat.mul_assoc,
      Nat.mul_div_cancel _ (by decide)]
  rw [← hbyte]
  fin_cases a <;> rfl

/-- The off-by-one in the scale (255 for 256 steps) moves a center by less than half a cell. -/
theorem center_mem {lo size : ℚ} (hsize : 0 < size) {w k : ℕ} (hw : w ≤ 6) (hk : k < 2 ^ w) :
    lo + size * k / 2 ^ w ≤ ((2 * k + 1) * 2 ^ (7 - w) : ℕ) * size / 255 + lo ∧
      ((2 * k + 1) * 2 ^ (7 - w) : ℕ) * size / 255 + lo < lo + size * (k + 1) / 2 ^ w := by
  have hpow : (2 : ℚ) ^ (7 - w) = 128 / 2 ^ w := by
    rw [eq_div_iff (by positivity), ← pow_add, show 7 - w + w = 7 by omega]
    norm_num
  have hk' : (k : ℚ) ≤ 63 := by
    have hle : k + 1 ≤ 2 ^ 6 := hk.trans_le (Nat.pow_le_pow_right (by decide) hw)
    exact_mod_cast (show k ≤ 63 by omega)
  have hcell : 0 < size / 2 ^ w := by positivity
  have hbyte : ((2 * k + 1) * 2 ^ (7 - w) : ℕ) * size / 255 + lo =
      lo + size / 2 ^ w * ((2 * k + 1) * 128 / 255) := by
    push_cast
    rw [hpow]
    ring
  rw [hbyte, mul_div_right_comm size k, mul_div_right_comm size (k + 1 : ℚ)]
  constructor
  · gcongr
    linarith
  · gcongr
    linarith

/-- After the conversion of a node file the viewer has one record per node, made from that node, and
the position that it computes for the record lies in the cell of the node. -/
theorem convert_getPoint {w : ℕ} (hw : 1 ≤ w ∧ w ≤ 6) (f : FileData) (center : Vec) {size : ℚ}
    (hsize : 0 < size) (path : Path) :
    ∃ res, convert w (serialize f) = some res ∧
      res.length = 1 + 6 * f.nodeCache.toList.length ∧
      ∀ i (hi : i < f.nodeCache.toList.length),
        (res.drop (1 + 6 * i)).take 6 =
          convertNode w f.nodeCache.toList[i].1 f.nodeCache.toList[i].2 ∧
        (descend (geomOf (getRootGeom center size) path) w f.nodeCache.toList[i].1).contains
          ((Cell.new (geomOf (getRootGeom center size) path) res).getPoint i) = true := by
  refine ⟨_, convert_serialize w f, ?_, fun i hi => ⟨?_, ?_⟩⟩
  · simp [List.length_flatMap, Nat.mul_comm, Nat.add_comm]
  · apply List.ext_getElem?
    intro k
    rw [List.getElem?_take]
    split_ifs with hk
    · rw [List.getElem?_drop, show 1 + 6 * i + k = 6 * i + k + 1 by omega, List.getElem?_cons_succ,
        getElem?_flatMap_convertNode w _ hi hk]
    · exact (List.getElem?_eq_none (by simpa using hk)).symm
  · have hedge := edge_geomOf center size path
    set g := geomOf (getRootGeom center size) path
    set s := f.nodeCache.toList[i].1
    have hcell : 0 < size / 2 ^ path.length := by positivity
    rw [NodeGeometry.contains_iff]
    intro a
    obtain ⟨hlo, hhi⟩ := descend_lo g w s a
    have hbyte := byte_convert (convert_serialize w f) g hi (show a.val < 6 by omega)
    rw [toNat_getD_convertNode (by omega)] at hbyte
    simp only [Cell.getPoint, hbyte, hlo, hhi, Cell.scale, Cell.offset]
    rw [show (Cell.new g _).geometry = g from rfl, hedge, hedge]
    exact center_mem hcell hw.2 (place_lt s a w)

/-- Two levels below the root cell of a tree, with digits 1 and 7. -/
theorem convert_getPoint_sample :
    ∃ res, convert 2 (serialize (FileData.empty.setNode 0o17 .new)) = some res ∧
      res.length = 1 + 6 * (FileData.empty.setNode 0o17 .new).nodeCache.toList.length ∧
      ∀ i (hi : i < (FileData.empty.setNode 0o17 .new).nodeCache.toList.length),
        (res.drop (1 + 6 * i)).take 6 = convertNode 2
          (FileData.empty.setNode 0o17 .new).nodeCache.toList[i].1
          (FileData.empty.setNode 0o17 .new).nodeCache.toList[i].2 ∧
        (descend (geomOf (getRootGeom 0 8) [3]) 2
          (FileData.empty.setNode 0o17 .new).nodeCache.toList[i].1).contains
          ((Cell.new (geomOf (getRootGeom 0 8) [3]) res).getPoint i) = true :=
  convert_getPoint ⟨by decide, by decide⟩ _ 0 (by norm_num) [3]

/-! ### Picking and drawing -/

namespace Cell

/-- The octant of a cell that point `i` lies in. -/
def octant (cell : Cell) (i : ℕ) : ChildNr := childOf fun a => decide (128 ≤ cell.byte (6 * i + a))

theorem byte_lt (cell : Cell) (k : ℕ) : cell.byte k < 256 := UInt8.toNat_lt _

theorem and_shiftLeft_eq_zero_iff (m i : ℕ) : m &&& (1 <<< i) = 0 ↔ m.testBit i = false := by
  rw [Nat.one_shiftLeft, Nat.and_two_pow]
  cases m.testBit i <;> simp

/-- The `&` between the three bits of the octant leaves nothing of it. -/
theorem pickValid_eq (cell : Cell) (i : ℕ) :
    cell.pickValid i =
      (decide (cell.byte (6 * i + 5) % 2 = 1) || !cell.showChildren.testBit 0) := by
  have htop : ∀ k, cell.byte k >>> 7 = 0 ∨ cell.byte k >>> 7 = 1 := by
    intro k
    have := cell.byte_lt k
    rw [Nat.shiftRight_eq_div_pow]
    omega
  have hchild : ((cell.byte (6 * i) >>> 7) <<< 2) &&& ((cell.byte (6 * i + 1) >>> 7) <<< 1) &&&
      (cell.byte (6 * i + 2) >>> 7) = 0 := by
    rcases htop (6 * i) with h₀ | h₀ <;> rcases htop (6 * i + 1) with h₁ | h₁ <;>
      rcases htop (6 * i + 2) with h₂ | h₂ <;> rw [h₀, h₁, h₂] <;> rfl
  simp only [pickValid, hchild, and_shiftLeft_eq_zero_iff, Nat.and_one_is_mod]
  by_cases hlow : cell.byte (6 * i + 5) % 2 = 1 <;> cases cell.showChildren.testBit 0 <;>
    simp [hlow]

theorem psVertex_gt_iff (cell : Cell) (i : ℕ) (a : Axis) :
    cell.psVertex i a > 1 / 2 ↔ 128 ≤ cell.byte (6 * i + a) := by
  rw [psVertex, gt_iff_lt, div_lt_div_iff₀ (by norm_num) (by norm_num)]
  constructor
  · intro h
    have : 255 < 2 * cell.byte (6 * i + a) := by
      have : (255 : ℚ) < 2 * cell.byte (6 * i + a) := by linarith
      exact_mod_cast this
    omega
  · intro h
    have : (128 : ℚ) ≤ cell.byte (6 * i + a) := by exact_mod_cast h
    linarith

theorem glslMod_psColor (cell : Cell) (i : ℕ) :
    glslMod (255 * cell.psColor i 2) 2 = ((cell.byte (6 * i + 5) % 2 : ℕ) : ℚ) := by
  have hcolor : 255 * cell.psColor i 2 = cell.byte (6 * i + 5) := by
    rw [psColor]
    exact mul_div_cancel₀ _ (by norm_num)
  have hfloor : ⌊(cell.byte (6 * i + 5) : ℚ) / 2⌋ = ((cell.byte (6 * i + 5) / 2 : ℕ) : ℤ) := by
    exact_mod_cast Rat.floor_natCast_div_natCast (cell.byte (6 * i + 5)) 2
  have hmod := Nat.mod_add_div (cell.byte (6 * i + 5)) 2
  rw [glslMod, hcolor, hfloor, Int.cast_natCast]
  have : ((cell.byte (6 * i + 5) % 2 : ℕ) : ℚ) + 2 * (cell.byte (6 * i + 5) / 2 : ℕ) =
      cell.byte (6 * i + 5) := by exact_mod_cast hmod
  linarith

/-- The shader keeps leaves, and summaries in an octant that is shown. -/
theorem keepsVertex_eq (cell : Cell) (i : ℕ) :
    cell.keepsVertex i = (decide (cell.byte (6 * i + 5) % 2 = 0) ||
      cell.showChildren.testBit (cell.octant i).val) := by
  have hoctant : (if cell.psVertex i 0 > 1 / 2 then 4 else 0) +
      (if cell.psVertex i 1 > 1 / 2 then 2 else 0) +
      (if cell.psVertex i 2 > 1 / 2 then 1 else 0) = (cell.octant i).val := by
    simp only [psVertex_gt_iff, octant, childOf, decide_eq_true_eq]
  simp only [keepsVertex, glslMod_psColor, hoctant, uniformShowChildren, and_shiftLeft_eq_zero_iff]
  have hlow : cell.byte (6 * i + 5) % 2 = 0 ∨ cell.byte (6 * i + 5) % 2 = 1 := by omega
  rcases hlow with hlow | hlow <;> cases cell.showChildren.testBit (cell.octant i).val <;>
    simp [hlow]

end Cell

/-- The lowest bit of the last color byte of a converted node. -/
theorem byte_five_convert {w : ℕ} {f : FileData} {res : ByteVec}
    (h : convert w (serialize f) = some res) (g : NodeGeometry) {i : ℕ}
    (hi : i < f.nodeCache.toList.length) :
    (Cell.new g res).byte (6 * i + 5) % 2 = if f.nodeCache.toList[i].2.isLeaf then 0 else 1 := by
  have hstash : ∀ children color : UInt8,
      (stash children color).toNat % 2 = if children = 0 then 0 else 1 := by
    intro children color
    unfold stash
    split_ifs
    · rw [UInt8.toNat_and, ← Nat.and_one_is_mod, Nat.and_assoc]
      exact Nat.and_zero _
    · rw [UInt8.toNat_or, ← Nat.and_one_is_mod, Nat.and_or_distrib_right, Nat.and_one_is_mod]
      have hlow := Nat.mod_two_eq_zero_or_one color.toNat
      rcases hlow with hlow | hlow <;> rw [hlow] <;> rfl
  rw [byte_convert h g hi (by decide)]
  simp only [Node.isLeaf_iff]
  exact hstash _ _

/-- The shader keeps a node on the screen when it is a leaf or the bit of its octant is set, and
`pickValid` agrees exactly for leaves when the lowest bit of `show_children` is clear, and for other
nodes when the bit of their octant is set. -/
theorem pickValid_iff_keepsVertex {w : ℕ} {f : FileData} {res : ByteVec}
    (h : convert w (serialize f) = some res) (g : NodeGeometry) (m : ℕ) {i : ℕ}
    (hi : i < f.nodeCache.toList.length) :
    (((Cell.new g res).setShowChildren m).keepsVertex i = true ↔
      f.nodeCache.toList[i].2.isLeaf = true ∨
        m.testBit ((Cell.new g res).octant i).val = true) ∧
    ((((Cell.new g res).setShowChildren m).pickValid i = true ↔
        ((Cell.new g res).setShowChildren m).keepsVertex i = true) ↔
      if f.nodeCache.toList[i].2.isLeaf then m.testBit 0 = false
      else m.testBit ((Cell.new g res).octant i).val = true) := by
  have hlow := byte_five_convert h g hi
  rw [Cell.keepsVertex_eq, Cell.pickValid_eq,
    show ((Cell.new g res).setShowChildren m).byte = (Cell.new g res).byte from rfl,
    show ((Cell.new g res).setShowChildren m).octant = (Cell.new g res).octant from rfl,
    show ((Cell.new g res).setShowChildren m).showChildren = m from rfl, hlow]
  split_ifs with hleaf
  · simp [hleaf]
  · simp [hleaf]

/-- A leaf, with no octant shown. -/
theorem pickValid_iff_keepsVertex_leaf :
    ∃ res, convert 2 (serialize (FileData.empty.setNode 0o17 .new)) = some res ∧
      (((Cell.new (getRootGeom 0 8) res).setShowChildren 0).pickValid 0 = true ↔
        ((Cell.new (getRootGeom 0 8) res).setShowChildren 0).keepsVertex 0 = true) :=
  ⟨_, convert_serialize .., (pickValid_iff_keepsVertex (convert_serialize ..) _ 0 (by decide)).2.mpr
    (by decide)⟩

/-- A leaf in a cell whose octants are all shown is drawn, and cannot be picked. -/
theorem not_pickValid_iff_keepsVertex :
    ¬ ∀ (w : ℕ) (f : FileData) (res : ByteVec) (g : NodeGeometry) (m i : ℕ),
      convert w (serialize f) = some res → i < f.nodeCache.toList.length →
        (((Cell.new g res).setShowChildren m).pickValid i = true ↔
          ((Cell.new g res).setShowChildren m).keepsVertex i = true) := by
  intro h
  have hres : convert 2 (serialize (FileData.empty.setNode 0o17 .new)) =
      some [0, 96, 96, 224, 0, 0, 0] := by decide +kernel
  have hbad := h 2 _ _ (getRootGeom 0 8) 255 0 hres (by decide)
  rw [Cell.keepsVertex_eq, Cell.pickValid_eq] at hbad
  exact absurd hbad (by decide +kernel)

end MegaTree
