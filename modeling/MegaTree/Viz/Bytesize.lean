import MegaTree.Viz.Bounds
import MegaTree.Viz.Cell
import Mathlib.Data.Nat.ModEq

/-!
# The two encoders of the viewer

`NodeFile::serializeBytesize` writes the six bytes per node of the viewer straight from a node
file.  It shifts the octal digits of a short id into 8-bit integers, from the top, where
`VizStorage::convert` shifts a 16-bit center down: the one finds the lower corner of the cell of a
node, the other its center.

* `toNat_bytesizePoint` : what the loop over the digits and the overflowing shift compute.
* `encodersAgree_iff` : the two outputs agree on the files that a 32-bit offset can address.
-/

namespace MegaTree

open Std VizStorage

/-! ### Encoding from the node file -/

/-- One round of the loop over the digits of a short id: `x = (x << 1) | bit`. -/
def bytesizeDigit (shortId : ShortId) (a : Axis) (x : UInt8) (i : ℕ) : UInt8 :=
  let which := (shortId >>> .ofNat (i * 3)) &&& (7 : UInt32)
  (x <<< 1) ||| (if which &&& ((1 : UInt32) <<< .ofNat (axisBit a)) ≠ 0 then 1 else 0)

/-- The position of a node along an axis; the shift by two digits overflows. -/
def bytesizePoint (shortId : ShortId) (a : Axis) : UInt8 :=
  (List.range 8).reverse.foldl (bytesizeDigit shortId a) 0 <<< 2

/-- The six bytes of a node. -/
def bytesizeNode (shortId : ShortId) (n : Node) : ByteVec :=
  [bytesizePoint shortId 0, bytesizePoint shortId 1, bytesizePoint shortId 2,
    n.color 0, n.color 1, n.color 2]

/-- `serializeBytesize(buffer)`, whose offset is a `size_t`. -/
def serializeBytesize (f : FileData) : ByteVec :=
  f.childFiles :: f.nodeCache.toList.flatMap fun x => bytesizeNode x.1 x.2

theorem toNat_bytesizeDigit (s : ShortId) (a : Axis) (x : UInt8) {i : ℕ} (hi : i < 10) :
    (bytesizeDigit s a x i).toNat =
      (2 * x.toNat + if upper (digit s i) a then 1 else 0) % 256 := by
  have hlt := x.toNat_lt
  have hdouble : (x <<< 1).toNat = 2 ^ 1 * (x.toNat % 128) := by
    rw [UInt8.toNat_shiftLeft, show (1 : UInt8).toNat % 8 = 1 from rfl, Nat.shiftLeft_eq]
    omega
  simp only [bytesizeDigit, which_ne_zero_iff s hi]
  split_ifs
  · rw [UInt8.toNat_or, hdouble, show (1 : UInt8).toNat = 1 from rfl,
      ← Nat.two_pow_add_eq_or_of_lt (by decide)]
    omega
  · rw [UInt8.or_zero, hdouble]
    omega

/-- The digits below `n`, from the top, shifted into `x`. -/
theorem toNat_foldl_bytesizeDigit (s : ShortId) (a : Axis) {n : ℕ} (hn : n ≤ 10) (x : UInt8) :
    ((List.range n).reverse.foldl (bytesizeDigit s a) x).toNat =
      (x.toNat * 2 ^ n + place s a n) % 256 := by
  induction n generalizing x with
  | zero =>
    have hlt := x.toNat_lt
    simp [place, Nat.mod_eq_of_lt hlt]
  | succ n ih =>
    rw [List.range_succ, List.reverse_append, List.reverse_singleton, List.singleton_append,
      List.foldl_cons, ih (by omega), toNat_bytesizeDigit s a x (by omega), place]
    -- What overflows on the way is lost in the end as well.
    refine (((Nat.mod_modEq _ 256).mul_right _).add_right _).trans (congrArg (· % 256) ?_)
    split_ifs <;> ring

/-- The lower corner of the cell of a node, in 256 steps. -/
theorem toNat_bytesizePoint (s : ShortId) (a : Axis) :
    (bytesizePoint s a).toNat = 4 * place s a 6 := by
  have hall := toNat_foldl_bytesizeDigit s a (n := 8) (by decide) 0
  have hlow := place_lt s a 6
  have hplace : place s a 8 = place s a 6 + (if upper (digit s 6) a then 64 else 0) +
      if upper (digit s 7) a then 128 else 0 := rfl
  rw [UInt8.toNat_zero, Nat.zero_mul, Nat.zero_add, hplace] at hall
  rw [bytesizePoint, UInt8.toNat_shiftLeft, hall, show (2 : UInt8).toNat % 8 = 2 from rfl,
    Nat.shiftLeft_eq]
  split_ifs <;> omega

/-! ### The two outputs -/

/-- The bytes of the node `i` in an output of the viewer format. -/
def entry (bytes : ByteVec) (i : ℕ) : ByteVec := (bytes.drop (1 + i * stride)).take stride

/-- The bytes of a node in the two outputs: the center and the lower corner of its cell, and its
color, where the lowest bit of the last byte is not compared. -/
structure SameNode (center corner : ByteVec) : Prop where
  position : ∀ a < 3, (center.getD a 0).toNat = (corner.getD a 0).toNat + 2
  color : ∀ a, 3 ≤ a → a < 5 → center[a]? = corner[a]?
  last : center.getD 5 0 ||| 1 = corner.getD 5 0 ||| 1

/-- The outputs `center` and `corner` agree on the nodes of a file. -/
structure SameNodes (f : FileData) (center corner : ByteVec) : Prop where
  length : center.length = corner.length
  childFiles : center.head? = corner.head?
  order : ∀ i s n, f.nodeCache.toList[i]? = some (s, n) →
    entry center i = convertNode 6 s n ∧ entry corner i = bytesizeNode s n
  nodes : ∀ i < f.nodeCache.size, SameNode (entry center i) (entry corner i)

/-- `convert` returns on what `serialize` wrote, and its output agrees with that of
`serializeBytesize`. -/
def EncodersAgree (f : FileData) (beyond : ℕ → UInt8) : Prop :=
  ∃ k, ¬ (Converting.rounds 6 (rawSerialize f) beyond k).Running (rawSerialize f) ∧
    SameNodes f (Converting.rounds 6 (rawSerialize f) beyond k).res.buffer (serializeBytesize f)

theorem sameNode (s : ShortId) (n : Node) : SameNode (convertNode 6 s n) (bytesizeNode s n) where
  position a ha := by
    have hcenter := toNat_getD_convertNode (w := 6) (by decide) s n ⟨a, ha⟩
    have hcorner := toNat_bytesizePoint s ⟨a, ha⟩
    have hget : (bytesizeNode s n).getD a 0 = bytesizePoint s ⟨a, ha⟩ := by
      interval_cases a <;> rfl
    rw [hget, hcorner]
    refine hcenter.trans ?_
    omega
  color a h₃ h₅ := by interval_cases a <;> rfl
  last := by
    show stash n.children (n.color 2) ||| 1 = n.color 2 ||| 1
    rw [stash]
    split_ifs
    · have all : ∀ c : BitVec 8, c &&& 0xfe ||| 1 = c ||| 1 := by decide +kernel
      exact UInt8.toBitVec_inj.1 (all _)
    · rw [UInt8.or_assoc, UInt8.or_self]

/-- The entries in an output that starts with one byte and has six bytes per node. -/
theorem entry_flatMap {α : Type*} (b : UInt8) (g : α → ByteVec) (hg : ∀ x, (g x).length = stride)
    (l : List α) {i : ℕ} {x : α} (h : l[i]? = some x) : entry (b :: l.flatMap g) i = g x := by
  have hskip (b : UInt8) (i : ℕ) (l : ByteVec) :
      entry (b :: l) i = (l.drop (i * stride)).take stride := by
    rw [entry, Nat.add_comm, List.drop_succ_cons]
  induction l generalizing i with
  | nil => cases h
  | cons y l ih =>
    rw [hskip, List.flatMap_cons]
    cases i with
    | zero =>
      obtain rfl := Option.some.inj h
      rw [Nat.zero_mul, List.drop_zero, List.take_left' (hg y)]
    | succ i =>
      rw [Nat.succ_mul, Nat.add_comm, ← List.drop_drop, List.drop_left' (hg y), ← hskip b]
      exact ih h

theorem length_flatMap_stride {α : Type*} (g : α → ByteVec) (hg : ∀ x, (g x).length = stride)
    (l : List α) : (l.flatMap g).length = l.length * stride := by
  rw [List.length_flatMap, List.map_congr_left fun x _ => hg x, List.map_const',
    List.sum_replicate, smul_eq_mul]

theorem sameNodes (f : FileData) :
    SameNodes f (f.childFiles :: f.nodeCache.toList.flatMap fun x => convertNode 6 x.1 x.2)
      (serializeBytesize f) := by
  have hcenter (x : ShortId × Node) : (convertNode 6 x.1 x.2).length = stride := rfl
  have hcorner (x : ShortId × Node) : (bytesizeNode x.1 x.2).length = stride := rfl
  rw [serializeBytesize]
  refine ⟨?_, rfl, fun i s n h => ?_, fun i hi => ?_⟩
  · rw [List.length_cons, List.length_cons, length_flatMap_stride _ hcenter,
      length_flatMap_stride _ hcorner]
  · rw [entry_flatMap _ _ hcenter _ h, entry_flatMap _ _ hcorner _ h]
    exact ⟨rfl, rfl⟩
  · rw [← ExtTreeMap.length_toList] at hi
    have h := List.getElem?_eq_getElem hi
    rw [entry_flatMap _ _ hcenter _ h, entry_flatMap _ _ hcorner _ h]
    exact sameNode _ _

/-- The two encoders agree exactly on the files whose length fits a 32-bit offset. -/
theorem encodersAgree_iff (f : FileData) (beyond : ℕ → UInt8) :
    EncodersAgree f beyond ↔ 1 + f.nodeCache.size * nodeSize < 2 ^ 32 := by
  constructor
  · rintro ⟨k, hstop, -⟩
    rw [Converting.Running, Nat.not_lt, length_rawSerialize] at hstop
    exact Nat.lt_of_le_of_lt hstop (UInt32.toNat_lt _)
  · intro h
    have hlen : (rawSerialize f).length = 1 + f.nodeCache.size * nodeSize := length_rawSerialize f
    obtain ⟨hstop, hconvert⟩ := convert_eq 6 beyond (hlen ▸ h)
      (by rw [hlen, Nat.add_mul_mod_self_right]; rfl)
    refine ⟨_, hstop, ?_⟩
    rw [rawSerialize_eq h, convert_serialize] at hconvert
    rw [rawSerialize_eq h, ← Option.some.inj hconvert]
    exact sameNodes f

/-- A file with the short ids below `n`. -/
def denseFile (n : ℕ) : FileData :=
  ⟨0, (List.range n).foldl (fun m i => m.insert (.ofNat i) ⟨1, fun _ => 0, fun _ => 0, 0⟩) ∅⟩

theorem denseFile_succ (n : ℕ) : (denseFile (n + 1)).nodeCache =
    (denseFile n).nodeCache.insert (.ofNat n) ⟨1, fun _ => 0, fun _ => 0, 0⟩ := by
  rw [denseFile, List.range_succ, List.foldl_append]
  rfl

theorem toNat_lt_of_mem_denseFile {n : ℕ} {s : ShortId} (h : s ∈ (denseFile n).nodeCache) :
    s.toNat < n := by
  induction n with
  | zero => exact absurd h ExtTreeMap.not_mem_empty
  | succ n ih =>
    rw [denseFile_succ, ExtTreeMap.mem_insert] at h
    obtain h | h := h
    · rw [← LawfulEqCmp.eq_of_compare h, UInt32.toNat_ofNat']
      exact Nat.lt_succ_of_le (Nat.mod_le _ _)
    · exact Nat.lt_succ_of_lt (ih h)

theorem size_denseFile {n : ℕ} (hn : n ≤ 2 ^ 32) : (denseFile n).nodeCache.size = n := by
  induction n with
  | zero => rfl
  | succ n ih =>
    have hnew : UInt32.ofNat n ∉ (denseFile n).nodeCache := by
      intro hmem
      have hlt := toNat_lt_of_mem_denseFile hmem
      rw [UInt32.toNat_ofNat', Nat.mod_eq_of_lt (by omega)] at hlt
      exact Nat.lt_irrefl n hlt
    rw [denseFile_succ, ExtTreeMap.size_insert,
      if_neg (ExtTreeMap.mem_iff_contains.not.1 hnew), ih (by omega)]

/-- The smallest file whose length does not fit. -/
theorem not_encodersAgree : ¬ EncodersAgree (denseFile 195225787) fun _ => 0 := by
  rintro ⟨k, hstop, -⟩
  rw [Converting.Running, Nat.not_lt, length_rawSerialize, size_denseFile (by decide)] at hstop
  have hlt := UInt32.toNat_lt
    (Converting.rounds 6 (rawSerialize (denseFile 195225787)) (fun _ => 0) k).data.offset
  exact absurd (Nat.lt_of_le_of_lt hstop hlt) (by decide)

end MegaTree
