import MegaTree.SpaceTree.Track
import MegaTree.Store.Insert
import Mathlib.Algebra.Order.BigOperators.Group.Multiset
import Mathlib.Tactic.GCongr

/-!
# How far a leaf is from its points

A point is cut to 16 bits in the first cell that is fine enough for it.  From then on `corner`, the
place that the bits stand for, does not move: every time the leaf is divided, the cell loses as much
as the bits (`corner_push`).  `Located` keeps how many bits are used up, and that the points of a
leaf are at most one unit above its corner.

`newTree_addPoints_accurate` : the points can be assigned to the leaves such that the counts are
right and every point is closer than `min_cell_size` to the representative point of its leaf.
-/

namespace MegaTree

open Effect SpaceTree

/-! ### The place that the bits stand for -/

/-- A cell with equal edges. -/
def IsCube (g : NodeGeometry) : Prop := 0 < g.getSize ∧ ∀ i, g.hi i - g.lo i = g.getSize

/-- The lower corner of the points that are cut to the position of a node. -/
def corner (g : NodeGeometry) (a : Node) (i : Axis) : ℚ :=
  g.lo i + g.getSize * (a.point i).toNat / bitsD

variable {cfg : Config} {g : NodeGeometry} {a : Node} {p : Vec × Vec}

theorem IsCube.child (h : IsCube g) (c : ChildNr) : IsCube (g.getChild c) := by
  refine ⟨?_, fun i => ?_⟩
  · rw [NodeGeometry.getSize_getChild]
    exact half_pos h.1
  · have hi := h.2 i
    rw [NodeGeometry.getSize_getChild]
    simp only [NodeGeometry.getChild, NodeGeometry.getCenter]
    split_ifs <;> linarith

theorem isCube_ofCenter {center : Vec} {size : ℚ} (h : 0 < size) :
    IsCube (.ofCenter center size) := by
  have hs : (NodeGeometry.ofCenter center size).getSize = size := by
    simp [NodeGeometry.getSize, NodeGeometry.ofCenter]
  refine ⟨by rw [hs]; exact h, fun i => ?_⟩
  rw [hs]
  simp [NodeGeometry.ofCenter]

/-- Dividing a leaf does not move its corner. -/
theorem corner_push (h : IsCube g) (i : Axis) :
    corner (g.getChild ((pointPolicy cfg).push a).1) ((pointPolicy cfg).push a).2 i =
      corner g a i := by
  have hi := h.2 i
  have hup : upper a.getChildForNodePoint i = decide (bits2 ≤ a.point i) := by
    rw [Node.getChildForNodePoint, upper_childOf]
  have hlo : (g.getChild a.getChildForNodePoint).lo i =
      if bits2 ≤ a.point i then g.getCenter i else g.lo i := by
    simp only [NodeGeometry.getChild, hup, decide_eq_true_eq]
  have hle : bits2 ≤ a.point i ↔ 32768 ≤ (a.point i).toNat := UInt16.le_iff_toNat_le
  change (g.getChild a.getChildForNodePoint).lo i +
    (g.getChild a.getChildForNodePoint).getSize * (a.point i <<< 1).toNat / bitsD = _
  rw [hlo, NodeGeometry.getSize_getChild, Node.toNat_shiftLeft_one, corner]
  split_ifs with hb
  · rw [hle] at hb
    rw [Nat.cast_sub (by omega), NodeGeometry.getCenter]
    push_cast
    simp only [bitsD]
    linarith
  · rw [Nat.sub_zero]
    push_cast
    ring

/-- The corner of a node is in its cell. -/
theorem lo_le_corner (h : IsCube g) (i : Axis) : g.lo i ≤ corner g a i := by
  have hs := h.1
  have : 0 ≤ g.getSize * (a.point i).toNat / bitsD := by
    rw [bitsD]
    positivity
  rw [corner]
  linarith

/-- A point of a cell is at most one unit above the corner of its cut. -/
theorem corner_single (h : IsCube g) (hp : g.contains p.1 = true) (i : Axis) :
    corner g ((pointPolicy cfg).single g p) i ≤ p.1 i ∧
      p.1 i < corner g ((pointPolicy cfg).single g p) i + g.getSize / bitsD := by
  obtain ⟨hlo, hhi⟩ := NodeGeometry.contains_iff.1 hp i
  have hs := h.1
  have hi := h.2 i
  have hb : (0 : ℚ) < bitsD := by norm_num [bitsD]
  have hpos : 0 < g.hi i - g.lo i := by rw [hi]; exact hs
  have hdec : p.1 i = g.lo i + g.getSize * (bitsD * (p.1 i - g.lo i) / (g.hi i - g.lo i)) / bitsD := by
    rw [← hi]
    field_simp
    ring
  set q := bitsD * (p.1 i - g.lo i) / (g.hi i - g.lo i) with hq
  have h₀ : 0 ≤ q := by
    rw [hq]
    exact div_nonneg (mul_nonneg hb.le (by linarith)) hpos.le
  have h₁ : q < bitsD := by
    rw [hq, div_lt_iff₀ hpos]
    exact mul_lt_mul_of_pos_left (by linarith) hb
  obtain ⟨hl, hu⟩ := Node.toPoint_toNat h₀ h₁
  have hcorner : corner g ((pointPolicy cfg).single g p) i =
      g.lo i + g.getSize * (toPoint q).toNat / bitsD := rfl
  rw [hcorner, hdec]
  constructor
  · gcongr
  · have : g.getSize * q / bitsD < g.getSize * ((toPoint q).toNat + 1) / bitsD := by gcongr
    calc g.lo i + g.getSize * q / bitsD
        < g.lo i + g.getSize * ((toPoint q).toNat + 1) / bitsD := by linarith
      _ = g.lo i + g.getSize * (toPoint q).toNat / bitsD + g.getSize / bitsD := by ring

/-! ### The invariant of the leaves -/

/-- A leaf and its points.  In a cell that may still be divided there is one point, of whose 16 bits
`k` are used up. -/
structure Located (cfg : Config) (g : NodeGeometry) (x : Node × Multiset (Vec × Vec)) : Prop where
  cube : IsCube g
  children : x.1.children = 0
  count : x.1.count.toNat = Multiset.card x.2
  small : g.getSize < cfg.minCellSize →
    ∀ p ∈ x.2, ∀ i, g.lo i ≤ p.1 i ∧ p.1 i < g.lo i + cfg.minCellSize
  wide : cfg.minCellSize ≤ g.getSize → ∃ p k, x.2 = {p} ∧ k ≤ 16 ∧
    g.getSize * 2 ^ k ≤ bitsD * cfg.minCellSize ∧ ∀ i, 2 ^ k ∣ (x.1.point i).toNat ∧
      corner g x.1 i ≤ p.1 i ∧ p.1 i < corner g x.1 i + g.getSize * 2 ^ k / bitsD

theorem located_single (hc : IsCube g) (hp : g.contains p.1 = true)
    (hf : (pointPolicy cfg).fine g = true) :
    Located cfg g ((pointPolicy cfg).single g p, {p}) := by
  refine ⟨hc, rfl, rfl, fun hs q hq i => ?_, fun hs => ⟨p, 0, rfl, by decide, ?_, fun i => ?_⟩⟩
  · obtain rfl := Multiset.mem_singleton.1 hq
    obtain ⟨hlo, hhi⟩ := NodeGeometry.contains_iff.1 hp i
    have := hc.2 i
    exact ⟨hlo, by linarith⟩
  · simp only [pointPolicy, decide_eq_true_eq] at hf
    rcases hf with hf | hf
    · rw [div_le_iff₀ (by norm_num [bitsD])] at hf
      linarith
    · exact absurd hf (not_lt.2 hs)
  · have hcorner : corner g ((pointPolicy cfg).single g p) i ≤ p.1 i ∧
        p.1 i < corner g ((pointPolicy cfg).single g p) i + g.getSize / bitsD :=
          corner_single hc hp i
    exact ⟨one_dvd _, hcorner.1, by simpa using hcorner.2⟩

theorem located_merge {x : Node × Multiset (Vec × Vec)} (h : Located cfg g x)
    (hp : g.contains p.1 = true) (hf : (pointPolicy cfg).finest g = true)
    (hB : pointCount x.1 + 1 < countBound) :
    Located cfg g ((pointPolicy cfg).merge g x.1 p, p ::ₘ x.2) := by
  simp only [pointPolicy, decide_eq_true_eq] at hf
  refine ⟨h.cube, h.children, ?_, fun hs q hq i => ?_, fun hs => absurd hf (not_lt.2 hs)⟩
  · rw [Multiset.card_cons, ← h.count]
    exact (pointCount_merge g x.1 p hB : pointCount ((pointPolicy cfg).merge g x.1 p) = _)
  · rcases Multiset.mem_cons.1 hq with rfl | hq
    · obtain ⟨hlo, hhi⟩ := NodeGeometry.contains_iff.1 hp i
      have := h.cube.2 i
      exact ⟨hlo, by linarith⟩
    · exact h.small hs q hq i

/-- One more bit is used up when a leaf is divided.  The last bit is used up at `min_cell_size`. -/
theorem located_push {x : Node × Multiset (Vec × Vec)} (h : Located cfg g x)
    (hf : (pointPolicy cfg).finest g = false) :
    Located cfg (g.getChild ((pointPolicy cfg).push x.1).1) (((pointPolicy cfg).push x.1).2, x.2) := by
  simp only [pointPolicy, decide_eq_false_iff_not, not_lt] at hf
  obtain ⟨p, k, hx, hk, hsize, hbits⟩ := h.wide hf
  have hs := h.cube.1
  have hc := h.cube.child ((pointPolicy cfg).push x.1).1
  have hhalf := NodeGeometry.getSize_getChild (g := g) ((pointPolicy cfg).push x.1).1
  have hcorner : ∀ i, corner (g.getChild ((pointPolicy cfg).push x.1).1)
      ((pointPolicy cfg).push x.1).2 i = corner g x.1 i := fun i => corner_push h.cube i
  have hlow := fun i => lo_le_corner (a := ((pointPolicy cfg).push x.1).2) hc i
  -- the bits that are left
  have hdvd : k < 16 → ∀ i, 2 ^ (k + 1) ∣ (((pointPolicy cfg).push x.1).2.point i).toNat := by
    intro hk i
    have h₁ : 2 ^ (k + 1) ∣ 2 * (x.1.point i).toNat := by
      rw [pow_succ']
      exact Nat.mul_dvd_mul_left 2 (hbits i).1
    have h₂ : 2 ^ (k + 1) ∣ 65536 := Nat.pow_dvd_pow 2 (n := 16) (by omega)
    change 2 ^ (k + 1) ∣ (x.1.point i <<< 1).toNat
    rw [Node.toNat_shiftLeft_one]
    split_ifs
    · exact Nat.dvd_sub h₁ h₂
    · exact h₁
  have hunit : g.getSize * 2 ^ k / bitsD =
      (g.getChild ((pointPolicy cfg).push x.1).1).getSize * 2 ^ (k + 1) / bitsD := by
    rw [hhalf, pow_succ]
    ring
  refine ⟨hc, rfl, h.count, fun hsmall q hq i => ?_, fun hwide => ?_⟩
  · rw [hx, Multiset.mem_singleton] at hq
    subst hq
    obtain ⟨hd, hlo, hhi⟩ := hbits i
    rw [← hcorner i] at hlo hhi
    refine ⟨(hlow i).trans hlo, hhi.trans_le ?_⟩
    rw [hunit, corner]
    rw [hhalf] at hsmall ⊢
    rcases Nat.lt_or_ge k 16 with hlt | hge
    · obtain ⟨m, hm⟩ := hdvd hlt i
      have hb := (((pointPolicy cfg).push x.1).2.point i).toNat_lt
      have hroom : m + 1 ≤ 2 ^ (15 - k) := by
        rw [hm, show 2 ^ 16 = 2 ^ (k + 1) * 2 ^ (15 - k) by rw [← pow_add]; congr 1; omega] at hb
        exact Nat.lt_of_mul_lt_mul_left hb
      have hall : (2 : ℚ) ^ (k + 1) * (m + 1) ≤ bitsD := by
        have : 2 ^ (k + 1) * (m + 1) ≤ 65536 := by
          calc 2 ^ (k + 1) * (m + 1) ≤ 2 ^ (k + 1) * 2 ^ (15 - k) := Nat.mul_le_mul_left _ hroom
            _ = 65536 := by rw [← pow_add, show k + 1 + (15 - k) = 16 by omega]; rfl
        rw [bitsD]
        exact_mod_cast this
      rw [hm]
      push_cast
      have hle : g.getSize / 2 * (2 ^ (k + 1) * (m + 1)) / bitsD ≤ g.getSize / 2 := by
        rw [div_le_iff₀ (by norm_num [bitsD])]
        gcongr
      have hsplit : g.getSize / 2 * (2 ^ (k + 1) * (m + 1)) / bitsD =
          g.getSize / 2 * (2 ^ (k + 1) * m) / bitsD + g.getSize / 2 * 2 ^ (k + 1) / bitsD := by ring
      linarith
    · obtain rfl : k = 16 := by omega
      have hzero : (x.1.point i).toNat = 0 := Nat.eq_zero_of_dvd_of_lt hd (x.1.point i).toNat_lt
      have hzero' : (((pointPolicy cfg).push x.1).2.point i).toNat = 0 := by
        change (x.1.point i <<< 1).toNat = 0
        rw [Node.toNat_shiftLeft_one, hzero]
        split_ifs <;> rfl
      rw [hzero']
      simp only [bitsD] at hsize ⊢
      push_cast
      linarith
  · have hk' : k < 16 := by
      rw [hhalf] at hwide
      by_contra hge
      obtain rfl : k = 16 := by omega
      simp only [bitsD] at hsize
      linarith
    refine ⟨p, k + 1, hx, hk', ?_, fun i => ⟨hdvd hk' i, ?_, ?_⟩⟩
    · rw [hhalf, pow_succ]
      linarith
    · rw [hcorner i]
      exact (hbits i).2.1
    · rw [hcorner i, ← hunit]
      exact (hbits i).2.2

theorem keepsAt_located : (pointPolicy cfg).track.KeepsAt
    (fun g p => IsCube g ∧ g.contains p.1 = true) (Located cfg) countBound
    (fun x => pointCount x.1) where
  which _ _ h := ⟨h.1.child _, NodeGeometry.contains_whichChild h.2⟩
  single _ _ hf hp := located_single hp.1 hp.2 hf
  merge _ _ _ hf hB hp h := located_merge h hp.2 hf hB
  push _ _ hf h := located_push h hf

/-- The points of a leaf are closer than `min_cell_size` to its representative point. -/
theorem Located.near {x : Node × Multiset (Vec × Vec)} (h : Located cfg g x)
    (hmin : 0 < cfg.minCellSize) (hp : p ∈ x.2) (i : Axis) :
    |p.1 i - x.1.getPoint g i| < cfg.minCellSize := by
  have hs := h.cube.1
  have hi := h.cube.2 i
  rw [abs_lt]
  rcases lt_or_ge g.getSize cfg.minCellSize with hsmall | hwide
  · obtain ⟨hlo, hhi⟩ := h.small hsmall p hp i
    have hpos : g.lo i < g.hi i := by linarith
    obtain ⟨h₁, h₂⟩ := Node.getPoint_mem (n := x.1) hpos
    constructor <;> linarith
  · obtain ⟨q, k, hx, -, hsize, hbits⟩ := h.wide hwide
    rw [hx, Multiset.mem_singleton] at hp
    subst hp
    obtain ⟨-, hlo, hhi⟩ := hbits i
    have hpoint : x.1.getPoint g i = corner g x.1 i + g.getSize / (2 * bitsD) := by
      simp only [Node.getPoint, fixedToFloat, corner, hi, bitsD]
      ring
    have hone : g.getSize ≤ g.getSize * 2 ^ k :=
      le_mul_of_one_le_right hs.le (one_le_pow₀ (by norm_num))
    rw [hpoint]
    simp only [bitsD] at hsize hhi ⊢
    constructor <;> linarith

/-! ### The assignment -/

/-- The points of a tree with the paths of their leaves. -/
def placed (π : Path) : Tree ChildNr (Node × Multiset (Vec × Vec)) → Multiset (Path × Vec × Vec)
  | .empty => 0
  | .leaf a => a.2.map fun p => (π, p)
  | .branch kids => ∑ i, placed (i :: π) (kids i)

variable {t : Tree ChildNr (Node × Multiset (Vec × Vec))} {π ρ : Path} {I : Summary}
  {σ : Store} {V : Path → Option Node} {n : Node} {x : Path × Vec × Vec} {pts : List (Vec × Vec)}

theorem map_placed : (placed π t).map Prod.snd = Policy.contents t := by
  induction t generalizing π with
  | empty => rfl
  | leaf a => simp [placed, Policy.contents]
  | branch kids ih =>
    simp only [placed, Policy.contents]
    rw [← Multiset.coe_mapAddMonoidHom, map_sum]
    exact Finset.sum_congr rfl fun i _ => ih i

theorem suffix_of_mem_placed (h : x ∈ placed π t) : π <:+ x.1 := by
  induction t generalizing π with
  | empty => cases h
  | leaf a =>
    obtain ⟨q, -, rfl⟩ := Multiset.mem_map.1 h
    exact List.suffix_rfl
  | branch kids ih =>
    obtain ⟨i, -, hi⟩ := Multiset.mem_sum.1 h
    exact (List.suffix_cons i π).trans (ih i hi)

/-- Every point is placed in a leaf that is near. -/
theorem Rep.near_of_placed (h : Rep I V π (t.map Prod.fst))
    (hf : (pointPolicy cfg).track.Fits (Located cfg) (geomOf cfg.rootGeometry π) t)
    (hmin : 0 < cfg.minCellSize) (hx : x ∈ placed π t) : ∃ n, V x.1 = some n ∧ n.isLeaf = true ∧
      ∀ i, |x.2.1 i - n.getPoint (geomOf cfg.rootGeometry x.1) i| < cfg.minCellSize := by
  induction t generalizing π with
  | empty => cases hx
  | leaf a =>
    obtain ⟨q, hq, rfl⟩ := Multiset.mem_map.1 hx
    exact ⟨a.1, h.1, Node.isLeaf_iff.2 (Located.children hf), fun i => Located.near hf hmin hq i⟩
  | branch kids ih =>
    obtain ⟨i, -, hi⟩ := Multiset.mem_sum.1 hx
    exact ih i (h.2 i) (hf.2.2 i) hi

/-- Every leaf has as many points as its count says. -/
theorem Rep.count_placed (h : Rep I V π (t.map Prod.fst))
    (hf : (pointPolicy cfg).track.Fits (Located cfg) (geomOf cfg.rootGeometry π) t)
    (hn : V (ρ ++ π) = some n) (hl : n.isLeaf = true) :
    n.count.toNat = (placed π t).countP fun x => x.1 = ρ ++ π := by
  induction t generalizing π ρ with
  | empty => rw [h ρ] at hn; cases hn
  | leaf a =>
    rcases List.eq_nil_or_concat ρ with rfl | ⟨ξ, i, rfl⟩
    · rw [List.nil_append, h.1] at hn
      obtain rfl := Option.some.inj hn
      rw [Located.count hf, List.nil_append, placed, Multiset.countP_map]
      simp
    · rw [List.concat_eq_append, List.append_assoc, List.singleton_append, h.2] at hn
      cases hn
  | branch kids ih =>
    rcases List.eq_nil_or_concat ρ with rfl | ⟨ξ, i, rfl⟩
    · obtain ⟨⟨m, hm, -, hmask, -⟩, -⟩ := h
      rw [List.nil_append, hm] at hn
      obtain rfl := Option.some.inj hn
      obtain ⟨-, ⟨i, hi⟩, -⟩ := hf
      have hkid : (kids i).map Prod.fst ≠ .empty := by
        cases hk : kids i with
        | empty => exact absurd hk hi
        | leaf b => exact fun e => nomatch e
        | branch b => exact fun e => nomatch e
      have hchild := (hmask i).2 hkid
      rw [Node.isLeaf_iff_hasChild.1 hl i] at hchild
      cases hchild
    · rw [List.concat_eq_append, List.append_assoc, List.singleton_append] at hn ⊢
      have hother : ∀ j, j ≠ i →
          (placed (j :: π) (kids j)).countP (fun x => x.1 = ξ ++ i :: π) = 0 := by
        intro j hj
        rw [Multiset.countP_eq_zero]
        intro y hy he
        have := suffix_of_mem_placed hy
        rw [he] at this
        exact not_suffix_sibling (fun e => hj e.symm) ξ this
      have hsum : (placed π (.branch kids)).countP (fun x => x.1 = ξ ++ i :: π) =
          ∑ j, (placed (j :: π) (kids j)).countP fun x => x.1 = ξ ++ i :: π := by
        simp only [placed, ← Multiset.coe_countPAddMonoidHom, map_sum]
      rw [ih i (h.2 i) (hf.2.2 i) hn, hsum, Finset.sum_eq_single i (fun j _ hj => hother j hj)
        fun hi => absurd (Finset.mem_univ i) hi]

/-! ### After insertions -/

theorem pointCount_track_single (g : NodeGeometry) (p : Vec × Vec) :
    pointCount ((pointPolicy cfg).track.single g p).1 = 1 := rfl

theorem pointCount_track_push (x : Node × Multiset (Vec × Vec)) :
    pointCount ((pointPolicy cfg).track.push x).2.1 = pointCount x.1 := rfl

theorem pointCount_track_merge (g : NodeGeometry) (x : Node × Multiset (Vec × Vec)) (p : Vec × Vec)
    (h : pointCount x.1 + 1 < countBound) :
    pointCount ((pointPolicy cfg).track.merge g x p).1 = pointCount x.1 + 1 :=
  (pointCount_merge g x.1 p h : pointCount ((pointPolicy cfg).merge g x.1 p) = _)

theorem mem_inBounds : p ∈ inBounds cfg pts ↔ p ∈ pts ∧ cfg.rootGeometry.contains p.1 = true :=
  List.mem_filter

/-- The points inside a root cell can only be there when it is a cube. -/
theorem isCube_of_mem_inBounds {center : Vec} {size : ℚ}
    (hroot : cfg.rootGeometry = .ofCenter center size) (hp : p ∈ inBounds cfg pts) :
    IsCube cfg.rootGeometry := by
  obtain ⟨hlo, hhi⟩ := NodeGeometry.contains_iff.1 (mem_inBounds.1 hp).2 0
  rw [hroot] at hlo hhi ⊢
  refine isCube_ofCenter ?_
  simp only [NodeGeometry.ofCenter] at hlo hhi
  linarith

/-- A tree built from points keeps its points near their leaves. -/
theorem exists_track {u : CellTree} {center : Vec} {size : ℚ}
    (hroot : cfg.rootGeometry = .ofCenter center size)
    (hu : insertPoints cfg pts .empty = some u) (hB : (inBounds cfg pts).length < countBound) :
    ∃ t, u = t.map Prod.fst ∧ (pointPolicy cfg).track.Fits (Located cfg) cfg.rootGeometry t ∧
      Policy.contents t = ↑(inBounds cfg pts) := by
  have htrack := Policy.insertAll_track (P := pointPolicy cfg) (n := maxDepth)
    (g := cfg.rootGeometry) (inBounds cfg pts) .empty
  rw [insertPoints] at hu
  rw [show SpaceTree.Tree.map Prod.fst .empty = .empty from rfl, hu] at htrack
  obtain ⟨t, ht, rfl⟩ := Option.map_eq_some_iff.1 htrack.symm
  refine ⟨t, rfl, ?_, ?_⟩
  · refine Policy.Fits.insertAll (t := .empty) keepsAt_located fine_of_finest pointCount_track_push
      pointCount_track_single pointCount_track_merge (fun p hp => ?_) trivial ?_ ht
    · exact ⟨isCube_of_mem_inBounds hroot hp, (mem_inBounds.1 hp).2⟩
    · simpa [Policy.weight] using hB
  · rw [Policy.contents_insertAll ht]
    simp [Policy.contents]

variable (cfg) in
/-- The points can be assigned to leaves such that every leaf has as many points as its count says
and every point is closer than `min_cell_size` to the representative point of its leaf. -/
def Assigned (V : Path → Option Node) (pts : List (Vec × Vec)) : Prop :=
  ∃ place : Multiset (Path × Vec × Vec), place.map Prod.snd = ↑pts ∧
    (∀ x ∈ place, ∃ n, V x.1 = some n ∧ n.isLeaf = true ∧
      ∀ i, |x.2.1 i - n.getPoint (geomOf cfg.rootGeometry x.1) i| < cfg.minCellSize) ∧
    ∀ π n, V π = some n → n.isLeaf = true → n.count.toNat = place.countP fun x => x.1 = π

theorem Holds.assigned (h : Holds cfg I σ V (t.map Prod.fst)) (hmin : 0 < cfg.minCellSize)
    (hf : (pointPolicy cfg).track.Fits (Located cfg) cfg.rootGeometry t)
    (hc : Policy.contents t = ↑pts) : Assigned cfg V pts := by
  refine ⟨placed [] t, by rw [map_placed, hc], ?_⟩
  by_cases ht : t.map Prod.fst = .empty
  · -- the root of a tree without points is a leaf with count 0
    obtain rfl : t = .empty := by
      cases t with
      | empty => rfl
      | leaf a => cases ht
      | branch kids => cases ht
    obtain ⟨⟨n₀, hn₀, hc₀, -⟩, hd⟩ := h.opened
    refine ⟨fun x hx => absurd hx (Multiset.notMem_zero x), fun π n hn _ => ?_⟩
    rcases List.eq_nil_or_concat π with rfl | ⟨ξ, i, rfl⟩
    · rw [hn₀] at hn
      obtain rfl := Option.some.inj hn
      rw [hc₀]
      rfl
    · rw [List.concat_eq_append, hd ξ i] at hn
      cases hn
  · have hrep := h.opened.rep ht
    refine ⟨fun x hx => hrep.near_of_placed hf hmin hx, fun π n hn hl => ?_⟩
    have := hrep.count_placed (ρ := π) hf (by rw [List.append_nil]; exact hn) hl
    rwa [List.append_nil] at this

/-- **Every sequence of insertions into a new tree leaves the points near their leaves.** -/
theorem newTree_addPoints_accurate (cfg : Config) {center : Vec} {size : ℚ}
    (hroot : cfg.rootGeometry = .ofCenter center size) (hmin : 0 < cfg.minCellSize)
    (pts : List (Vec × Vec)) :
    Spec (do newTree cfg; addPoints cfg pts)
      (fun _ σ => Assigned cfg (nodeAt cfg σ) (inBounds cfg pts))
      (fun e => e = .depthLimit ∧ cfg.minCellSize ≤ cfg.rootGeometry.getSize / 2 ^ maxDepth ∨
        e = .divideByZero ∧ 2 ^ 64 ≤ (inBounds cfg pts).length) .init := by
  refine Prog.wp_bind.2 (wp_newTree_holds (I := summary) fun V σ h => ?_)
  refine wp_addPoints (fun _ _ _ hok => hok) h ?_ ?_ fun u V' σ' hu h' hw => ?_
  · intro hnone
    refine .inl ⟨rfl, ?_⟩
    by_contra hlt
    have := insertPoints_isSome pts h.shaped (not_le.1 hlt)
    rw [hnone] at this
    cases this
  · intro hge
    rw [show points .empty = 0 from rfl, Nat.zero_add] at hge
    exact .inr ⟨rfl, hge⟩
  · have hB : (inBounds cfg pts).length < countBound := by
      have := h'.bound
      rwa [hw, show points .empty = 0 from rfl, Nat.zero_add] at this
    obtain ⟨t, rfl, hfits, hcontents⟩ := exists_track hroot hu hB
    rw [h'.stores.nodeAt_eq]
    exact h'.assigned hmin hfits hcontents

theorem newTree_addPoints_accurate_sample :
    Spec (do newTree .sample; addPoints .sample [(fun _ => 3, fun _ => 0), (fun _ => 1, fun _ => 0)])
      (fun _ σ => Assigned .sample (nodeAt .sample σ)
        [(fun _ => 3, fun _ => 0), (fun _ => 1, fun _ => 0)])
      (fun e => e = .depthLimit ∧
        Config.sample.minCellSize ≤ Config.sample.rootGeometry.getSize / 2 ^ maxDepth ∨
        e = .divideByZero ∧ 2 ^ 64 ≤ 2) .init := by
  have hin : inBounds .sample [(fun _ => 3, fun _ => 0), (fun _ => 1, fun _ => 0)] =
      [(fun _ => 3, fun _ => 0), (fun _ => 1, fun _ => 0)] :=
    List.filter_eq_self.2 (by decide +kernel)
  have h := newTree_addPoints_accurate .sample rfl (by decide +kernel)
    [(fun _ => 3, fun _ => 0), (fun _ => 1, fun _ => 0)]
  rwa [hin] at h

end MegaTree
