import MegaTree.Core.Basic
import MegaTree.Import.SortLas
import MegaTree.ZOrder.Halving

/-!
# The keys of `sort_las`

The key of a point is the Morton code of its coordinates as ten-bit fractions of the extents of all
files.  The octants of ten halvings of the box have the same order, except that `getExtents` starts
its maxima with the smallest positive double and that a point on an upper face is scaled to 1024,
which the ten-bit mask turns into 0.

* `getExtents_eq` : the extents that the program computes.
* `toNat_encodeMorton3` : the code, as a number.
* `keysFollow_iff` : when the keys have the order of the octants.
-/

namespace MegaTree

namespace SortLas

open ZOrder

/-- `DBL_MAX` -/
def dblMax : ℚ := (2 - 1 / 2 ^ 52) * 2 ^ 1023

/-- `DBL_MIN`: the smallest positive normal double. -/
def dblMin : ℚ := 1 / 2 ^ 1022

/-- The extents in the header of a LAS file, which are doubles. -/
structure Header where
  min : Axis → ℚ
  max : Axis → ℚ
  finite : ∀ a, |min a| ≤ dblMax ∧ |max a| ≤ dblMax

/-- The coordinates of a point. -/
def LasPoint.coord (p : LasPoint ℚ) : Axis → ℚ := ![p.x, p.y, p.z]

/-- A LAS file, whose header bounds its points. -/
structure LasFile where
  header : Header
  points : List (LasPoint ℚ)
  bounded : ∀ p ∈ points, ∀ a, header.min a ≤ p.coord a ∧ p.coord a ≤ header.max a

/-- `getExtents(las_filenames, lo, hi)` -/
def getExtents (files : List LasFile) : (Axis → ℚ) × (Axis → ℚ) :=
  files.foldl (fun (lo, hi) f =>
    (fun a => min (lo a) (f.header.min a), fun a => max (hi a) (f.header.max a)))
    (fun _ => dblMax, fun _ => dblMin)

/-- The key of a point. -/
def mortonKey (files : List LasFile) (p : LasPoint ℚ) : UInt32 :=
  (readPoint .exact (getExtents files).1 (getExtents files).2 p).morton

/-- The box `[lo, hi]` of all headers. -/
structure Extents (files : List LasFile) (lo hi : Axis → ℚ) : Prop where
  least : ∀ a, IsLeast {x | ∃ f ∈ files, f.header.min a = x} (lo a)
  greatest : ∀ a, IsGreatest {x | ∃ f ∈ files, f.header.max a = x} (hi a)
  lt : ∀ a, lo a < hi a

/-- The point lies in the box. -/
def InBox (lo hi : Axis → ℚ) (p : LasPoint ℚ) : Prop := ∀ a, lo a ≤ p.coord a ∧ p.coord a ≤ hi a

/-- The point lies on none of the upper faces of the box. -/
def OffUpper (hi : Axis → ℚ) (p : LasPoint ℚ) : Prop := ∀ a, p.coord a ≠ hi a

/-- The keys of two points compare like the octants in which they lie while the box is halved ten
times. -/
def KeysFollow (files : List LasFile) (lo hi : Axis → ℚ) (p q : LasPoint ℚ) : Prop :=
  compare (mortonKey files p) (mortonKey files q) =
    compare (octantPath 10 lo hi p.coord) (octantPath 10 lo hi q.coord)

variable {files : List LasFile} {lo hi : Axis → ℚ} {p q : LasPoint ℚ}

/-! ### The extents -/

theorem le_foldl_min {α : Type*} (g : α → ℚ) (l : List α) (i x : ℚ) :
    x ≤ l.foldl (fun m y => min m (g y)) i ↔ x ≤ i ∧ ∀ y ∈ l, x ≤ g y := by
  induction l generalizing i with
  | nil => simp
  | cons y l ih => simp [ih, and_assoc]

theorem foldl_max_le {α : Type*} (g : α → ℚ) (l : List α) (i x : ℚ) :
    l.foldl (fun m y => max m (g y)) i ≤ x ↔ i ≤ x ∧ ∀ y ∈ l, g y ≤ x := by
  induction l generalizing i with
  | nil => simp
  | cons y l ih => simp [ih, and_assoc]

theorem foldl_extents (files : List LasFile) (lo hi : Axis → ℚ) (a : Axis) :
    let e := files.foldl (fun (lo, hi) f =>
      (fun a => min (lo a) (f.header.min a), fun a => max (hi a) (f.header.max a))) (lo, hi)
    e.1 a = files.foldl (fun m f => min m (f.header.min a)) (lo a) ∧
      e.2 a = files.foldl (fun m f => max m (f.header.max a)) (hi a) := by
  induction files generalizing lo hi with
  | nil => exact ⟨rfl, rfl⟩
  | cons f files ih => exact ih _ _

/-- The minima come out right, the maxima at least as large as the smallest positive double. -/
theorem getExtents_eq (h : Extents files lo hi) (a : Axis) :
    (getExtents files).1 a = lo a ∧ (getExtents files).2 a = max dblMin (hi a) := by
  obtain ⟨hmin, hmax⟩ := foldl_extents files (fun _ => dblMax) (fun _ => dblMin) a
  obtain ⟨⟨f, hf, hlo⟩, hleast⟩ := h.least a
  obtain ⟨⟨g, hg, hhi⟩, hgreatest⟩ := h.greatest a
  constructor
  · refine hmin.trans (le_antisymm ?_ ?_)
    · rw [← hlo]
      exact ((le_foldl_min (fun f : LasFile => f.header.min a) files dblMax _).1 le_rfl).2 f hf
    · refine (le_foldl_min (fun f : LasFile => f.header.min a) files dblMax _).2 ⟨?_, ?_⟩
      · rw [← hlo]
        exact (le_abs_self _).trans (f.header.finite a).1
      · exact fun y hy => hleast ⟨y, hy, rfl⟩
  · refine hmax.trans (le_antisymm ?_ ?_)
    · refine (foldl_max_le (fun f : LasFile => f.header.max a) files dblMin _).2
        ⟨le_max_left _ _, fun y hy => (hgreatest ⟨y, hy, rfl⟩).trans (le_max_right _ _)⟩
    · obtain ⟨hinit, hall⟩ :=
        (foldl_max_le (fun f : LasFile => f.header.max a) files dblMin _).1 le_rfl
      exact max_le hinit (hhi ▸ hall g hg)

/-- The points that are read lie in the box. -/
theorem inBox_of_mem (h : Extents files lo hi) {f : LasFile} (hf : f ∈ files) (hp : p ∈ f.points) :
    InBox lo hi p := fun a =>
  ⟨((h.least a).2 ⟨f, hf, rfl⟩).trans (f.bounded p hp a).1,
    (f.bounded p hp a).2.trans ((h.greatest a).2 ⟨f, hf, rfl⟩)⟩

/-! ### The code -/

theorem spread_lt (n : ℕ) {c : ℕ} (hc : c < 2 ^ n) : 7 * spread n c < 8 ^ n := by
  induction n generalizing c with
  | zero => exact Nat.one_pos
  | succ n ih =>
    have hrest := ih (Nat.mod_lt c (Nat.two_pow_pos n))
    have htop : c / 2 ^ n ≤ 1 := by
      rw [← Nat.lt_succ_iff, Nat.div_lt_iff_lt_mul (Nat.two_pow_pos n)]
      rw [pow_succ] at hc
      omega
    have hmul : c / 2 ^ n * 8 ^ n ≤ 1 * 8 ^ n := Nat.mul_le_mul_right _ htop
    rw [spread, pow_succ]
    omega

/-- The spreading by shifts and masks, also of the one value that does not fit the mask. -/
theorem toNat_part1By2 {c : ℕ} (hc : c ≤ 1024) :
    (part1By2 (.ofNat c)).toNat = spread 10 (c % 1024) := by
  have all : ∀ c : Fin 1025, (part1By2 (.ofNat c.val)).toNat = spread 10 (c.val % 1024) := by
    decide +kernel
  exact all ⟨c, Nat.lt_succ_of_le hc⟩

theorem toNat_encodeMorton3 {x y z : ℕ} (hx : x ≤ 1024) (hy : y ≤ 1024) (hz : z ≤ 1024) :
    (encodeMorton3 (.ofNat x) (.ofNat y) (.ofNat z)).toNat =
      4 * spread 10 (z % 1024) + 2 * spread 10 (y % 1024) + spread 10 (x % 1024) := by
  have hx' := spread_lt 10 (Nat.mod_lt x (Nat.two_pow_pos 10))
  have hy' := spread_lt 10 (Nat.mod_lt y (Nat.two_pow_pos 10))
  have hz' := spread_lt 10 (Nat.mod_lt z (Nat.two_pow_pos 10))
  rw [encodeMorton3, UInt32.toNat_add, UInt32.toNat_add, UInt32.toNat_shiftLeft,
    UInt32.toNat_shiftLeft, toNat_part1By2 hx, toNat_part1By2 hy, toNat_part1By2 hz,
    show (2 : UInt32).toNat % 32 = 2 from rfl, show (1 : UInt32).toNat % 32 = 1 from rfl,
    Nat.shiftLeft_eq, Nat.shiftLeft_eq]
  norm_num at hx' hy' hz'
  omega

/-- The fixed-point coordinate of a point, for the extents that the program computes. -/
def fixedAt (lo hi : Axis → ℚ) (p : LasPoint ℚ) (a : Axis) : ℕ :=
  ⌊(p.coord a - lo a) / (max dblMin (hi a) - lo a) * 2 ^ 10⌋₊

theorem fixedAt_le (hlt : ∀ a, lo a < hi a) (hp : InBox lo hi p) (a : Axis) :
    fixedAt lo hi p a ≤ 1024 := by
  have hpos : 0 < max dblMin (hi a) - lo a := sub_pos.2 ((hlt a).trans_le (le_max_right _ _))
  have hle : p.coord a - lo a ≤ max dblMin (hi a) - lo a :=
    sub_le_sub_right ((hp a).2.trans (le_max_right _ _)) _
  have hone : (p.coord a - lo a) / (max dblMin (hi a) - lo a) ≤ 1 := (div_le_one hpos).2 hle
  refine Nat.floor_le_of_le ?_
  push_cast
  linarith

theorem toNat_mortonKey (h : Extents files lo hi) (hp : InBox lo hi p) :
    (mortonKey files p).toNat = 4 * spread 10 (fixedAt lo hi p 2 % 1024) +
      2 * spread 10 (fixedAt lo hi p 1 % 1024) + spread 10 (fixedAt lo hi p 0 % 1024) := by
  have hle := fixedAt_le h.lt hp
  have hscale : (1024 : ℚ) = 2 ^ 10 := by norm_num
  rw [← toNat_encodeMorton3 (hle 0) (hle 1) (hle 2)]
  simp only [mortonKey, readPoint, Doubles.exact, fixedAt, (getExtents_eq h _).1,
    (getExtents_eq h _).2, Int.floor_toNat, hscale]
  rfl

theorem compare_eq_toNat (x y : UInt32) : compare x y = compare x.toNat y.toNat := by
  simp only [compare, compareOfLessAndEq, UInt32.lt_iff_toNat_lt, ← UInt32.toNat_inj]

theorem compare_octantPath (x y : Axis → ℚ) :
    compare (octantPath 10 lo hi x) (octantPath 10 lo hi y) =
      compare (Nat.ofDigits 8 (octantPath 10 lo hi x).reverse)
        (Nat.ofDigits 8 (octantPath 10 lo hi y).reverse) :=
  compare_ofDigits_reverse (by decide) (by rw [length_octantPath, length_octantPath])
    (octantPath_lt 10 lo hi x) (octantPath_lt 10 lo hi y)

/-! ### Points off the upper faces -/

theorem fixedAt_eq_cell (hp : InBox lo hi p) (hmax : ∀ a, dblMin ≤ hi a) {a : Axis}
    (hoff : p.coord a ≠ hi a) : fixedAt lo hi p a = cell 10 (lo a) (hi a) (p.coord a) := by
  rw [fixedAt, max_eq_right (hmax a), cell_eq_floor 10 (hp a).1 (lt_of_le_of_ne (hp a).2 hoff)]

/-- The key of a point off the upper faces is the number of its octants. -/
theorem toNat_mortonKey_of_offUpper (h : Extents files lo hi) (hmax : ∀ a, dblMin ≤ hi a)
    (hp : InBox lo hi p) (hoff : OffUpper hi p) :
    (mortonKey files p).toNat = Nat.ofDigits 8 (octantPath 10 lo hi p.coord).reverse := by
  have hcell (a : Axis) : fixedAt lo hi p a % 1024 = cell 10 (lo a) (hi a) (p.coord a) := by
    rw [fixedAt_eq_cell hp hmax (hoff a)]
    exact Nat.mod_eq_of_lt (cell_lt 10 _ _ _)
  rw [toNat_mortonKey h hp, ofDigits_octantPath, hcell 0, hcell 1, hcell 2]

theorem keysFollow_of_offUpper (h : Extents files lo hi) (hmax : ∀ a, dblMin ≤ hi a)
    (hp : InBox lo hi p) (hq : InBox lo hi q) (hpo : OffUpper hi p) (hqo : OffUpper hi q) :
    KeysFollow files lo hi p q := by
  rw [KeysFollow, compare_eq_toNat, compare_octantPath, toNat_mortonKey_of_offUpper h hmax hp hpo,
    toNat_mortonKey_of_offUpper h hmax hq hqo]

/-! ### Points on an upper face -/

/-- A point that lies in the same cell and off the upper faces. -/
def inside (lo hi : Axis → ℚ) (p : LasPoint ℚ) : LasPoint ℚ :=
  let shift a := if p.coord a = hi a then hi a - (hi a - lo a) / 2048 else p.coord a
  ⟨shift 0, shift 1, shift 2, 0⟩

theorem coord_inside (p : LasPoint ℚ) (a : Axis) : (inside lo hi p).coord a =
    if p.coord a = hi a then hi a - (hi a - lo a) / 2048 else p.coord a := by
  fin_cases a <;> rfl

theorem inBox_inside (hlt : ∀ a, lo a < hi a) (hp : InBox lo hi p) :
    InBox lo hi (inside lo hi p) := by
  intro a
  have := hlt a
  rw [coord_inside]
  split_ifs
  · constructor <;> linarith
  · exact hp a

theorem offUpper_inside (hlt : ∀ a, lo a < hi a) : OffUpper hi (inside lo hi p) := by
  intro a
  have := hlt a
  rw [coord_inside]
  split_ifs with h
  · exact ne_of_lt (by linarith)
  · exact h

theorem cell_inside (hlt : ∀ a, lo a < hi a) (a : Axis) :
    cell 10 (lo a) (hi a) ((inside lo hi p).coord a) = cell 10 (lo a) (hi a) (p.coord a) := by
  have hpos : 0 < hi a - lo a := sub_pos.2 (hlt a)
  rw [coord_inside]
  split_ifs with h
  · have hlast := cell_self 10 (hlt a).le
    have hfloor : ⌊(hi a - (hi a - lo a) / 2048 - lo a) / (hi a - lo a) * 2 ^ 10⌋₊ = 1023 := by
      have hvalue : (hi a - (hi a - lo a) / 2048 - lo a) / (hi a - lo a) * 2 ^ 10 = 2047 / 2 := by
        field_simp
        ring
      rw [hvalue]
      exact (Nat.floor_eq_iff (by norm_num)).2 (by norm_num)
    rw [cell_eq_floor 10 (by linarith) (by linarith), hfloor, h]
    omega
  · rfl

theorem fixedAt_of_eq (hlt : ∀ a, lo a < hi a) (hmax : ∀ a, dblMin ≤ hi a) {a : Axis}
    (h : p.coord a = hi a) : fixedAt lo hi p a = 1024 := by
  rw [fixedAt, max_eq_right (hmax a), h, div_self (sub_pos.2 (hlt a)).ne']
  norm_num

/-- The key of a point on an upper face is too small. -/
theorem mortonKey_lt_inside (h : Extents files lo hi) (hmax : ∀ a, dblMin ≤ hi a)
    (hp : InBox lo hi p) (hon : ¬ OffUpper hi p) :
    (mortonKey files p).toNat < (mortonKey files (inside lo hi p)).toNat := by
  have hin := inBox_inside h.lt hp
  have hoff : OffUpper hi (inside lo hi p) := offUpper_inside h.lt
  have hupper {a : Axis} (ha : p.coord a = hi a) :
      spread 10 (fixedAt lo hi p a % 1024) < spread 10 (cell 10 (lo a) (hi a) (p.coord a)) := by
    have hlast : cell 10 (lo a) (hi a) (p.coord a) = 1023 := by
      have := cell_self 10 (h.lt a).le
      rw [ha]
      omega
    rw [fixedAt_of_eq h.lt hmax ha, hlast]
    decide +kernel
  have hle (a : Axis) :
      spread 10 (fixedAt lo hi p a % 1024) ≤ spread 10 (cell 10 (lo a) (hi a) (p.coord a)) := by
    by_cases ha : p.coord a = hi a
    · exact (hupper ha).le
    · have hcell : cell 10 (lo a) (hi a) (p.coord a) % 1024 = _ :=
        Nat.mod_eq_of_lt (cell_lt 10 _ _ _)
      rw [fixedAt_eq_cell hp hmax ha, hcell]
  obtain ⟨a, ha⟩ : ∃ a, p.coord a = hi a := by
    by_contra hno
    exact hon fun a ha => hno ⟨a, ha⟩
  have h₀ := hle 0
  have h₁ := hle 1
  have h₂ := hle 2
  have hstrict := hupper ha
  rw [toNat_mortonKey h hp, toNat_mortonKey_of_offUpper h hmax hin hoff, ofDigits_octantPath,
    cell_inside h.lt, cell_inside h.lt, cell_inside h.lt]
  fin_cases a <;> simp only [Fin.zero_eta, Fin.mk_one, Fin.reduceFinMk] at hstrict <;> omega

/-- A point on an upper face is not ordered like its octants against a point in its cell. -/
theorem not_keysFollow_inside (h : Extents files lo hi) (hmax : ∀ a, dblMin ≤ hi a)
    (hp : InBox lo hi p) (hon : ¬ OffUpper hi p) : ¬ KeysFollow files lo hi p (inside lo hi p) := by
  intro hfollow
  have hkey := Nat.compare_eq_lt.2 (mortonKey_lt_inside h hmax hp hon)
  rw [KeysFollow, compare_eq_toNat, hkey, compare_octantPath, ofDigits_octantPath,
    ofDigits_octantPath,
    cell_inside h.lt, cell_inside h.lt, cell_inside h.lt, Nat.compare_eq_eq.2 rfl] at hfollow
  cases hfollow

/-! ### Extents below the smallest positive double -/

/-- The lower corner of the box, moved into the next cell along one axis. -/
def corner (lo hi : Axis → ℚ) (a : Axis) (k : ℚ) : LasPoint ℚ :=
  let coord b := if b = a then lo b + k * (hi b - lo b) / 1024 else lo b
  ⟨coord 0, coord 1, coord 2, 0⟩

theorem coord_corner (a b : Axis) (k : ℚ) : (corner lo hi a k).coord b =
    if b = a then lo b + k * (hi b - lo b) / 1024 else lo b := by
  fin_cases b <;> rfl

theorem inBox_corner (hlt : ∀ a, lo a < hi a) (a : Axis) {k : ℚ} (h₀ : 0 ≤ k) (h₁ : k ≤ 1) :
    InBox lo hi (corner lo hi a k) ∧ OffUpper hi (corner lo hi a k) := by
  have hcoord (b : Axis) : lo b ≤ (corner lo hi a k).coord b ∧
    (corner lo hi a k).coord b < hi b := by
    have hpos := sub_pos.2 (hlt b)
    have hnonneg := mul_nonneg h₀ hpos.le
    have hle := mul_le_of_le_one_left hpos.le h₁
    rw [coord_corner]
    split_ifs
    · constructor <;> linarith
    · constructor <;> linarith
  exact ⟨fun b => ⟨(hcoord b).1, (hcoord b).2.le⟩, fun b => (hcoord b).2.ne⟩

theorem cell_corner (hlt : ∀ a, lo a < hi a) (a b : Axis) {k : ℚ} (h₀ : 0 ≤ k) (h₁ : k ≤ 1) :
    cell 10 (lo b) (hi b) ((corner lo hi a k).coord b) = if b = a then ⌊k⌋₊ else 0 := by
  obtain ⟨hin, hoff⟩ := inBox_corner hlt a h₀ h₁
  have hpos := sub_pos.2 (hlt b)
  rw [cell_eq_floor 10 (hin b).1 (lt_of_le_of_ne (hin b).2 (hoff b)), coord_corner]
  split_ifs
  · congr 1
    field_simp
    ring
  · simp

/-- On an axis whose maximum is too small the first two cells are one. -/
theorem fixedAt_corner (hlt : ∀ a, lo a < hi a) {a : Axis} (hmax : hi a < dblMin) (b : Axis) {k : ℚ}
    (h₁ : k ≤ 1) : fixedAt lo hi (corner lo hi a k) b = 0 := by
  rw [fixedAt, coord_corner, Nat.floor_eq_zero]
  split_ifs with h
  · subst h
    have hpos := sub_pos.2 (hlt b)
    have hle := mul_le_of_le_one_left hpos.le h₁
    have hpos' : 0 < dblMin - lo b := by linarith
    rw [max_eq_left hmax.le, add_sub_cancel_left, div_mul_eq_mul_div, div_lt_one hpos']
    linarith
  · rw [sub_self, zero_div, zero_mul]
    exact one_pos

/-- Two points in neighbouring cells get one key where a maximum is below the smallest positive
double. -/
theorem not_keysFollow_corner (h : Extents files lo hi) {a : Axis} (hmax : hi a < dblMin) :
    ¬ KeysFollow files lo hi (corner lo hi a 0) (corner lo hi a 1) := by
  intro hfollow
  have hkey {k : ℚ} (h₀ : 0 ≤ k) (h₁ : k ≤ 1) : (mortonKey files (corner lo hi a k)).toNat = 0 := by
    rw [toNat_mortonKey h (inBox_corner h.lt a h₀ h₁).1, fixedAt_corner h.lt hmax 0 h₁,
      fixedAt_corner h.lt hmax 1 h₁, fixedAt_corner h.lt hmax 2 h₁]
    rfl
  rw [KeysFollow, compare_eq_toNat, hkey le_rfl zero_le_one, hkey zero_le_one le_rfl,
    compare_octantPath, ofDigits_octantPath, ofDigits_octantPath] at hfollow
  simp only [cell_corner h.lt a _ le_rfl zero_le_one, cell_corner h.lt a _ zero_le_one le_rfl,
    Nat.floor_zero, Nat.floor_one, ite_self] at hfollow
  revert hfollow
  fin_cases a <;> decide +kernel

/-! ### Cubes -/

/-- A file whose header is the cube with these corners. -/
def cubeFile (lo hi : ℚ) (hfinite : |lo| ≤ dblMax ∧ |hi| ≤ dblMax) (points : List (LasPoint ℚ))
    (h : ∀ p ∈ points, InBox (fun _ => lo) (fun _ => hi) p) : LasFile :=
  ⟨⟨fun _ => lo, fun _ => hi, fun _ => hfinite⟩, points, h⟩

theorem extents_cubeFile {lo hi : ℚ} (hlt : lo < hi) (hfinite : |lo| ≤ dblMax ∧ |hi| ≤ dblMax)
    (points : List (LasPoint ℚ)) (h : ∀ p ∈ points, InBox (fun _ => lo) (fun _ => hi) p) :
    Extents [cubeFile lo hi hfinite points h] (fun _ => lo) (fun _ => hi) where
  least _ := ⟨⟨_, List.mem_singleton_self _, rfl⟩, by
    rintro x ⟨f, hf, rfl⟩
    rw [List.mem_singleton.1 hf]
    exact le_rfl⟩
  greatest _ := ⟨⟨_, List.mem_singleton_self _, rfl⟩, by
    rintro x ⟨f, hf, rfl⟩
    rw [List.mem_singleton.1 hf]
    exact le_rfl⟩
  lt _ := hlt

theorem two_le_dblMax : 2 ≤ dblMax := by
  have hpow : (2 : ℚ) ^ 1 ≤ 2 ^ 1023 := pow_le_pow_right₀ one_le_two (by decide)
  have hone : (1 : ℚ) ≤ 2 - 1 / 2 ^ 52 := by norm_num
  calc (2 : ℚ) = 1 * 2 ^ 1 := by norm_num
    _ ≤ (2 - 1 / 2 ^ 52) * 2 ^ 1023 := mul_le_mul hone hpow (by positivity) (by linarith)

theorem dblMin_le_one : dblMin ≤ 1 := by
  rw [dblMin, one_div]
  exact inv_le_one_of_one_le₀ (one_le_pow₀ one_le_two)

/-- The unit cube, with its upper corner and a point in the same cell. -/
def unitFile : LasFile :=
  cubeFile 0 1 (by simpa using ⟨zero_le_two.trans two_le_dblMax, one_le_two.trans two_le_dblMax⟩)
    [⟨1, 1, 1, 0⟩, inside (fun _ => 0) (fun _ => 1) ⟨1, 1, 1, 0⟩] (by
      have hcorner : InBox (fun _ => 0) (fun _ => 1) ⟨1, 1, 1, 0⟩ := fun a => by
        fin_cases a <;> exact ⟨zero_le_one, le_rfl⟩
      simpa using ⟨hcorner, inBox_inside (fun _ => zero_lt_one) hcorner⟩)

/-- A cube with negative coordinates, with points in two cells. -/
def negativeFile : LasFile :=
  cubeFile (-2) (-1) (by simpa using ⟨two_le_dblMax, one_le_two.trans two_le_dblMax⟩)
    [corner (fun _ => -2) (fun _ => -1) 0 0, corner (fun _ => -2) (fun _ => -1) 0 1] (by
      have hlt : ∀ _ : Axis, (-2 : ℚ) < -1 := fun _ => by norm_num
      simpa using ⟨(inBox_corner hlt 0 le_rfl zero_le_one).1,
        (inBox_corner hlt 0 zero_le_one le_rfl).1⟩)

/-! ### All points -/

/-- **The keys have the order of the octants** for all points of the box that lie off its upper
faces exactly where no maximum is below the smallest positive double; and there a point is ordered
like its octants against all of these points exactly if it is one of them. -/
theorem keysFollow_iff (h : Extents files lo hi) :
    ((∀ p q, InBox lo hi p → InBox lo hi q → OffUpper hi p → OffUpper hi q →
        KeysFollow files lo hi p q) ↔ ∀ a, dblMin ≤ hi a) ∧
      ((∀ a, dblMin ≤ hi a) → ∀ p, InBox lo hi p →
        ((∀ q, InBox lo hi q → OffUpper hi q → KeysFollow files lo hi p q) ↔ OffUpper hi p)) ∧
      ∀ f ∈ files, ∀ p ∈ f.points, InBox lo hi p := by
  refine ⟨⟨fun hall a => ?_, fun hmax p q hp hq => keysFollow_of_offUpper h hmax hp hq⟩,
    fun hmax p hp => ⟨fun hall => ?_, fun hpo q hq hqo =>
      keysFollow_of_offUpper h hmax hp hq hpo hqo⟩, fun f hf p hp => inBox_of_mem h hf hp⟩
  · by_contra hmax
    obtain ⟨hp, hpo⟩ := inBox_corner h.lt a le_rfl zero_le_one
    obtain ⟨hq, hqo⟩ := inBox_corner h.lt a zero_le_one le_rfl
    exact not_keysFollow_corner h (lt_of_not_ge hmax) (hall _ _ hp hq hpo hqo)
  · by_contra hon
    exact not_keysFollow_inside h hmax hp hon
      (hall _ (inBox_inside h.lt hp) (offUpper_inside h.lt))

/-- Two points of the unit cube off its upper faces. -/
theorem keysFollow_unitFile : KeysFollow [unitFile] (fun _ => 0) (fun _ => 1)
    (corner (fun _ => 0) (fun _ => 1) 0 0) (corner (fun _ => 0) (fun _ => 1) 0 1) :=
  have hlt : ∀ _ : Axis, (0 : ℚ) < 1 := fun _ => one_pos
  have hp := inBox_corner hlt 0 le_rfl zero_le_one
  have hq := inBox_corner hlt 0 zero_le_one le_rfl
  (keysFollow_iff (extents_cubeFile one_pos _ _ _)).1.2 (fun _ => dblMin_le_one) _ _ hp.1 hq.1
    hp.2 hq.2

/-- The upper corner of the unit cube, and a cube with negative coordinates. -/
theorem not_keysFollow :
    (Extents [unitFile] (fun _ => 0) (fun _ => 1) ∧ ∃ p ∈ unitFile.points, ∃ q ∈ unitFile.points,
      ¬ KeysFollow [unitFile] (fun _ => 0) (fun _ => 1) p q) ∧
    (Extents [negativeFile] (fun _ => -2) (fun _ => -1) ∧ ∃ p ∈ negativeFile.points,
      ∃ q ∈ negativeFile.points, ¬ KeysFollow [negativeFile] (fun _ => -2) (fun _ => -1) p q) := by
  have hunit : Extents [unitFile] (fun _ => 0) (fun _ => 1) := extents_cubeFile one_pos _ _ _
  have hnegative : Extents [negativeFile] (fun _ => -2) (fun _ => -1) :=
    extents_cubeFile (by norm_num) _ _ _
  refine ⟨⟨hunit, _, List.mem_cons_self, _, List.mem_cons_of_mem _ List.mem_cons_self, ?_⟩,
    ⟨hnegative, _, List.mem_cons_self, _, List.mem_cons_of_mem _ List.mem_cons_self, ?_⟩⟩
  · refine not_keysFollow_inside hunit (fun _ => dblMin_le_one)
      (inBox_of_mem hunit List.mem_cons_self List.mem_cons_self) fun hoff => hoff 0 rfl
  · refine not_keysFollow_corner hnegative ?_
    have hpos : 0 < dblMin := by
      rw [dblMin]
      positivity
    exact lt_trans (by norm_num) hpos

end SortLas

end MegaTree
