import MegaTree.Store.Accuracy
import MegaTree.Store.Operations

/-!
# What a query says about the points

At every resolution the points can be distributed over the frontier such that each node has as many
points as its count says, and they are near its representative point.  `Policy.track` knows which
points went into which cell, so the distribution is read off the tree (`grouped`).

* `Distributed` : such a distribution exists; `Holds.distributed` : it does for trees of points.
* `Tracks` : the store holds the tree of the points that were inserted so far; the operations keep
  it (`wp_operations_tracks`).
* `Distributed.finds`, `Distributed.found` : a query finds every point that is far enough inside of
  its box, and finds nothing else.
-/

namespace MegaTree

open Effect SpaceTree

variable {cfg : Config} {I : Summary} {σ : Store} {V : Path → Option Node} {π : Path} {n : Node}
  {t : Tree ChildNr (Node × Multiset (Vec × Vec))} {resolution : ℚ} {pts : List (Vec × Vec)}
  {x : Path × Vec × Vec} {y : Path × Node} {p : Vec × Vec}

variable (cfg) in
/-- The points of a tree with the paths of the frontier nodes that stand for them. -/
def grouped (resolution : ℚ) (π : Path) :
    Tree ChildNr (Node × Multiset (Vec × Vec)) → Multiset (Path × Vec × Vec)
  | .empty => 0
  | .leaf a => a.2.map fun p => (π, p)
  | .branch kids =>
    if (geomOf cfg.rootGeometry π).getSize ≤ resolution then
      (Policy.contents (.branch kids)).map fun p => (π, p)
    else ∑ i, grouped resolution (i :: π) (kids i)

variable (cfg) in
/-- How far a point may be from the representative point of its frontier node. -/
def reach (resolution : ℚ) : ℚ := cfg.minCellSize + max resolution 0

variable (cfg) in
/-- The points can be distributed over the frontier such that each node has as many points as its
count says and every point is near the representative point of its node. -/
def Distributed (V : Path → Option Node) (resolution : ℚ) (pts : List (Vec × Vec)) : Prop :=
  ∃ place : Multiset (Path × Vec × Vec), place.map Prod.snd = ↑pts ∧
    (∀ x ∈ place, ∃ n, (x.1, n) ∈ frontier cfg V resolution [] ∧
      ∀ i, |x.2.1 i - pointAt cfg (x.1, n) i| < reach cfg resolution) ∧
    ∀ y ∈ frontier cfg V resolution [], y.2.count.toNat = place.countP fun x => x.1 = y.1

/-! ### Cells -/

theorem IsCube.geomOf (h : IsCube cfg.rootGeometry) (π : Path) :
    IsCube (geomOf cfg.rootGeometry π) := by
  induction π with
  | nil => exact h
  | cons c π ih => exact ih.child c

theorem IsCube.lo_lt_hi {g : NodeGeometry} (h : IsCube g) (i : Axis) : g.lo i < g.hi i := by
  have hs := h.1
  have hi := h.2 i
  linarith

/-- The representative points of two nodes, one below the other. -/
theorem abs_getPoint_sub_lt {a b : Node} {ρ : Path} (h : IsCube cfg.rootGeometry) (hπ : π <:+ ρ)
    (i : Axis) : |a.getPoint (geomOf cfg.rootGeometry ρ) i - b.getPoint (geomOf cfg.rootGeometry π) i| <
      (geomOf cfg.rootGeometry π).getSize := by
  obtain ⟨ξ, rfl⟩ := hπ
  have hsub := geomOf_subset h.lo_lt_hi ξ π i
  obtain ⟨ha, ha'⟩ := Node.getPoint_mem (n := a) ((h.geomOf (ξ ++ π)).lo_lt_hi i)
  obtain ⟨hb, hb'⟩ := Node.getPoint_mem (n := b) ((h.geomOf π).lo_lt_hi i)
  have hsize := (h.geomOf π).2 i
  rw [abs_lt]
  constructor <;> linarith

/-! ### The distribution -/

theorem map_grouped : (grouped cfg resolution π t).map Prod.snd = Policy.contents t := by
  induction t generalizing π with
  | empty => rfl
  | leaf a => simp [grouped, Policy.contents]
  | branch kids ih =>
    rw [grouped]
    split_ifs
    · simp
    · simp only [Policy.contents]
      rw [← Multiset.coe_mapAddMonoidHom, map_sum]
      exact Finset.sum_congr rfl fun i _ => ih i

theorem suffix_of_mem_grouped (h : x ∈ grouped cfg resolution π t) : π <:+ x.1 := by
  induction t generalizing π with
  | empty => cases h
  | leaf a =>
    obtain ⟨q, -, rfl⟩ := Multiset.mem_map.1 h
    exact List.suffix_rfl
  | branch kids ih =>
    rw [grouped] at h
    split_ifs at h
    · obtain ⟨q, -, rfl⟩ := Multiset.mem_map.1 h
      exact List.suffix_rfl
    · obtain ⟨i, -, hi⟩ := Multiset.mem_sum.1 h
      exact (List.suffix_cons i π).trans (ih i hi)

/-- The counts of the leaves are the numbers of their points. -/
theorem points_eq_card {g : NodeGeometry} (hf : (pointPolicy cfg).track.Fits (Located cfg) g t) :
    points (t.map Prod.fst) = Multiset.card (Policy.contents t) := by
  induction t generalizing g with
  | empty => rfl
  | leaf a => exact Located.count hf
  | branch kids ih =>
    change ∑ i, points ((kids i).map Prod.fst) = Multiset.card (∑ i, Policy.contents (kids i))
    rw [Multiset.card_sum]
    exact Finset.sum_congr rfl fun i _ => ih i (hf.2.2 i)

theorem map_fst_ne_empty (h : t ≠ .empty) : t.map Prod.fst ≠ .empty := by
  cases t with
  | empty => exact absurd rfl h
  | leaf a => exact fun e => by cases e
  | branch kids => exact fun e => by cases e

/-- A cell that is divided has a node with children. -/
theorem Rep.branch {kids : ChildNr → Tree ChildNr (Node × Multiset (Vec × Vec))} {g : NodeGeometry}
    (h : Rep I V π (SpaceTree.Tree.map Prod.fst (.branch kids)))
    (hf : (pointPolicy cfg).track.Fits (Located cfg) g (.branch kids)) :
    ∃ n, V π = some n ∧ n.isLeaf = false ∧
      n.count = .ofNat (points (SpaceTree.Tree.map Prod.fst (.branch kids))) ∧
      ∀ i, n.hasChild i = true ↔ (kids i).map Prod.fst ≠ .empty := by
  obtain ⟨⟨n, hn, hc, hmask, -⟩, -⟩ := h
  obtain ⟨-, ⟨i, hi⟩, -⟩ := hf
  refine ⟨n, hn, ?_, hc, hmask⟩
  by_contra hl
  have hchild := (hmask i).2 (map_fst_ne_empty hi)
  rw [Node.isLeaf_iff_hasChild.1 (by simpa using hl) i] at hchild
  cases hchild

/-- A point that is below a frontier node is near it. -/
theorem Rep.near_of_contents (h : Rep I V π (t.map Prod.fst))
    (hf : (pointPolicy cfg).track.Fits (Located cfg) (geomOf cfg.rootGeometry π) t)
    (hmin : 0 < cfg.minCellSize) (hroot : IsCube cfg.rootGeometry) (hp : p ∈ Policy.contents t)
    (n : Node) (i : Axis) : |p.1 i - n.getPoint (geomOf cfg.rootGeometry π) i| <
      cfg.minCellSize + (geomOf cfg.rootGeometry π).getSize := by
  rw [← map_placed (π := π)] at hp
  obtain ⟨x, hx, rfl⟩ := Multiset.mem_map.1 hp
  obtain ⟨a, -, -, hnear⟩ := h.near_of_placed hf hmin hx
  have hcell := abs_getPoint_sub_lt (a := a) (b := n) hroot (suffix_of_mem_placed hx) i
  calc |x.2.1 i - n.getPoint (MegaTree.geomOf cfg.rootGeometry π) i|
      ≤ |x.2.1 i - a.getPoint (MegaTree.geomOf cfg.rootGeometry x.1) i| +
        |a.getPoint (MegaTree.geomOf cfg.rootGeometry x.1) i -
          n.getPoint (MegaTree.geomOf cfg.rootGeometry π) i| := abs_sub_le _ _ _
    _ < cfg.minCellSize + (MegaTree.geomOf cfg.rootGeometry π).getSize := add_lt_add (hnear i) hcell

/-- Every point is near the frontier node that stands for it. -/
theorem Rep.near_of_grouped (hS : Stores cfg σ V) (h : Rep I V π (t.map Prod.fst))
    (hf : (pointPolicy cfg).track.Fits (Located cfg) (geomOf cfg.rootGeometry π) t)
    (hmin : 0 < cfg.minCellSize) (hroot : IsCube cfg.rootGeometry)
    (hx : x ∈ grouped cfg resolution π t) : ∃ n, (x.1, n) ∈ frontier cfg V resolution π ∧
      ∀ i, |x.2.1 i - pointAt cfg (x.1, n) i| < reach cfg resolution := by
  have hleft := le_max_left resolution 0
  have hright := le_max_right resolution 0
  induction t generalizing π with
  | empty => cases hx
  | leaf a =>
    obtain ⟨q, hq, rfl⟩ := Multiset.mem_map.1 hx
    have hl : a.1.isLeaf = true := Node.isLeaf_iff.2 (Located.children hf)
    refine ⟨a.1, ?_, fun i => ?_⟩
    · rw [frontier_of_stops (hS.length_le h.1) h.1 (.inl hl)]
      exact List.mem_singleton_self _
    · have := Located.near hf hmin hq i
      exact this.trans_le (by rw [reach]; linarith)
  | branch kids ih =>
    obtain ⟨n, hn, hl, -, hmask⟩ := h.branch hf
    rw [grouped] at hx
    split_ifs at hx with hsize
    · -- the cell is not wider than the resolution
      obtain ⟨q, hq, rfl⟩ := Multiset.mem_map.1 hx
      refine ⟨n, ?_, fun i => ?_⟩
      · rw [frontier_of_stops (hS.length_le hn) hn (.inr hsize)]
        exact List.mem_singleton_self _
      · have := h.near_of_contents hf hmin hroot hq n i
        exact this.trans_le (by rw [reach]; linarith)
    · obtain ⟨i, -, hi⟩ := Multiset.mem_sum.1 hx
      obtain ⟨k, hk, hnear⟩ := ih i (h.2 i) (hf.2.2 i) hi
      refine ⟨k, ?_, hnear⟩
      rw [frontier_of_descends (hS.length_le hn) hn (by simp [hl, hsize])]
      refine List.mem_flatMap.2 ⟨i, List.mem_filter.2 ⟨List.mem_finRange i, (hmask i).2 ?_⟩, hk⟩
      refine map_fst_ne_empty fun he => ?_
      rw [he] at hi
      cases hi

theorem countP_const (m : Multiset (Vec × Vec)) (π : Path) :
    (m.map fun p => (π, p)).countP (fun x => x.1 = π) = Multiset.card m := by
  rw [Multiset.countP_map]
  simp

/-- Every frontier node has as many points as its count says. -/
theorem Rep.count_grouped (hS : Stores cfg σ V) (h : Rep I V π (t.map Prod.fst))
    (hf : (pointPolicy cfg).track.Fits (Located cfg) (geomOf cfg.rootGeometry π) t)
    (hB : points (t.map Prod.fst) < countBound) (hy : y ∈ frontier cfg V resolution π) :
    y.2.count.toNat = (grouped cfg resolution π t).countP fun x => x.1 = y.1 := by
  induction t generalizing π with
  | empty =>
    obtain ⟨⟨ρ, hρ⟩, hv⟩ := mem_frontier hy
    rw [← hρ, h ρ] at hv
    cases hv
  | leaf a =>
    have hl : a.1.isLeaf = true := Node.isLeaf_iff.2 (Located.children hf)
    rw [frontier_of_stops (hS.length_le h.1) h.1 (.inl hl)] at hy
    obtain rfl := List.mem_singleton.1 hy
    exact (Located.count hf).trans (countP_const ..).symm
  | branch kids ih =>
    obtain ⟨n, hn, hl, hcount, hmask⟩ := h.branch hf
    rw [grouped]
    split_ifs with hsize
    · rw [frontier_of_stops (hS.length_le hn) hn (.inr hsize)] at hy
      obtain rfl := List.mem_singleton.1 hy
      rw [hcount, UInt64.toNat_ofNat', Nat.mod_eq_of_lt hB, points_eq_card hf]
      exact (countP_const ..).symm
    · rw [frontier_of_descends (hS.length_le hn) hn (by simp [hl, hsize])] at hy
      obtain ⟨i, -, hi⟩ := List.mem_flatMap.1 hy
      obtain ⟨⟨ξ, hξ⟩, -⟩ := mem_frontier hi
      have hother : ∀ j, j ≠ i →
          (grouped cfg resolution (j :: π) (kids j)).countP (fun x => x.1 = y.1) = 0 := by
        intro j hj
        rw [Multiset.countP_eq_zero]
        intro z hz he
        have hsuf := suffix_of_mem_grouped hz
        rw [he, ← hξ] at hsuf
        exact not_suffix_sibling (fun e => hj e.symm) ξ hsuf
      have hsum : (∑ j, grouped cfg resolution (j :: π) (kids j)).countP (fun x => x.1 = y.1) =
          ∑ j, (grouped cfg resolution (j :: π) (kids j)).countP fun x => x.1 = y.1 := by
        simp only [← Multiset.coe_countPAddMonoidHom, map_sum]
      have hkid : points ((kids i).map Prod.fst) < countBound :=
        (Policy.weight_kid_le _ (fun j => (kids j).map Prod.fst) i).trans_lt hB
      rw [ih i (h.2 i) (hf.2.2 i) hkid hi, hsum, Finset.sum_eq_single i (fun j _ hj => hother j hj)
        fun hi => absurd (Finset.mem_univ i) hi]

/-- The points of a tree can be distributed over its frontier. -/
theorem Holds.distributed (h : Holds cfg I σ V (t.map Prod.fst)) (hmin : 0 < cfg.minCellSize)
    (hroot : pts ≠ [] → IsCube cfg.rootGeometry)
    (hf : (pointPolicy cfg).track.Fits (Located cfg) cfg.rootGeometry t)
    (hc : Policy.contents t = ↑pts) (resolution : ℚ) : Distributed cfg V resolution pts := by
  refine ⟨grouped cfg resolution [] t, by rw [map_grouped, hc], ?_⟩
  by_cases ht : t = .empty
  · -- the root of a tree without points is a leaf with count 0
    subst ht
    obtain ⟨⟨n₀, hn₀, hc₀, hleaf⟩, -⟩ := h.opened
    refine ⟨fun x hx => absurd hx (Multiset.notMem_zero x), fun y hy => ?_⟩
    rw [frontier_of_stops (Nat.zero_le _) hn₀ (.inl (Node.isLeaf_iff.2 hleaf))] at hy
    obtain rfl := List.mem_singleton.1 hy
    rw [hc₀]
    rfl
  · have hrep := h.opened.rep (map_fst_ne_empty ht)
    refine ⟨fun x hx => hrep.near_of_grouped h.stores hf hmin (hroot ?_) hx,
      fun y hy => hrep.count_grouped h.stores hf h.bound hy⟩
    rintro rfl
    have hmap : (grouped cfg resolution [] t).map Prod.snd = 0 := by rw [map_grouped, hc]; rfl
    rw [Multiset.map_eq_zero.1 hmap] at hx
    exact absurd hx (Multiset.notMem_zero x)

/-! ### The operations -/

variable (cfg) in
/-- The store holds the tree of the points, each of them in a leaf. -/
def Tracks (pts : List (Vec × Vec)) (σ : Store) : Prop :=
  ∃ V t, Holds cfg noSummary σ V (SpaceTree.Tree.map Prod.fst t) ∧
    (pointPolicy cfg).track.Fits (Located cfg) cfg.rootGeometry t ∧ Policy.contents t = ↑pts

/-- The points that an operation inserts. -/
def TreeOp.inserted : TreeOp → List (Vec × Vec)
  | .addPoint pt col => [(pt, col)]
  | _ => []

/-- One more point of the root cell. -/
theorem Tracks.insert {center : Vec} {size : ℚ} (hroot : cfg.rootGeometry = .ofCenter center size)
    {V' : Path → Option Node} {σ' : Store} {u : CellTree}
    (hf : (pointPolicy cfg).track.Fits (Located cfg) cfg.rootGeometry t)
    (hc : Policy.contents t = ↑pts) (hu : insertPoints cfg [p] (t.map Prod.fst) = some u)
    (h' : Holds cfg noSummary σ' V' u)
    (hw : points u = points (t.map Prod.fst) + (inBounds cfg [p]).length) :
    Tracks cfg (pts ++ inBounds cfg [p]) σ' := by
  have htrack := Policy.insertAll_track (P := pointPolicy cfg) (n := maxDepth)
    (g := cfg.rootGeometry) (inBounds cfg [p]) t
  rw [insertPoints] at hu
  rw [hu] at htrack
  obtain ⟨t', ht', rfl⟩ := Option.map_eq_some_iff.1 htrack.symm
  have hweight : Policy.weight (fun x : Node × Multiset (Vec × Vec) => pointCount x.1) t =
      points (t.map Prod.fst) := by
    clear hc hu h' hw htrack ht' hf
    induction t with
    | empty => rfl
    | leaf a => rfl
    | branch kids ih => exact Finset.sum_congr rfl fun i _ => ih i
  refine ⟨V', t', h', ?_, ?_⟩
  · refine Policy.Fits.insertAll keepsAt_located fine_of_finest pointCount_track_push
      pointCount_track_single pointCount_track_merge (fun q hq => ?_) hf ?_ ht'
    · exact ⟨isCube_of_mem_inBounds hroot hq, (mem_inBounds.1 hq).2⟩
    · rw [hweight, ← hw]
      exact h'.bound
  · rw [Policy.contents_insertAll ht', hc, Multiset.coe_add, Multiset.coe_eq_coe]
    exact List.perm_append_comm

theorem Tracks.congr {σ' : Store} (h : Tracks cfg pts σ) (hf : σ'.files = σ.files)
    (hL : Live σ' []) : Tracks cfg pts σ' := by
  obtain ⟨V, t, ht, hfits, hc⟩ := h
  exact ⟨V, t, ⟨ht.stores.congr hf, hL, ht.opened, ht.shaped, ht.bound⟩, hfits, hc⟩

/-- The root cell of a tree with a point has room for it. -/
theorem Tracks.extent {center : Vec} {size : ℚ} (hroot : cfg.rootGeometry = .ofCenter center size)
    (hpts : inBounds cfg pts ≠ []) : IsCube cfg.rootGeometry := by
  obtain ⟨p, hp⟩ := List.exists_mem_of_ne_nil _ hpts
  exact isCube_of_mem_inBounds hroot hp

theorem Tracks.operable {center : Vec} {size : ℚ} (hroot : cfg.rootGeometry = .ofCenter center size)
    (h : Tracks cfg (inBounds cfg pts) σ) : Operable cfg σ := by
  obtain ⟨V, t, ht, hf, hc⟩ := h
  have hext : inBounds cfg pts ≠ [] → IsCube cfg.rootGeometry := Tracks.extent hroot
  refine ⟨V, _, ht, fun hne => (hext ?_).lo_lt_hi⟩
  rintro hnil
  rw [hnil] at hc
  have hpos := points_pos ht.shaped hne
  rw [points_eq_card hf, hc] at hpos
  exact absurd hpos (lt_irrefl 0)

/-- An operation inserts its points, and nothing else happens to the tree. -/
theorem wp_run_tracks {center : Vec} {size : ℚ} (hroot : cfg.rootGeometry = .ofCenter center size)
    (o : TreeOp) (h : Tracks cfg (inBounds cfg pts) σ) : Spec (o.run cfg)
      (fun _ σ' => Tracks cfg (inBounds cfg (pts ++ o.inserted)) σ') (fun _ => True) σ := by
  have happend : ∀ qs, inBounds cfg (pts ++ qs) = inBounds cfg pts ++ inBounds cfg qs := fun qs =>
    List.filter_append ..
  have hquery : (∀ pt col, o ≠ .addPoint pt col) → o.inserted = [] → Spec (o.run cfg)
      (fun _ σ' => Tracks cfg (inBounds cfg (pts ++ o.inserted)) σ') (fun _ => True) σ := by
    intro ho hnil
    rw [hnil, List.append_nil]
    exact Prog.wp_mono (wp_query_frame ho (h.operable hroot)) (fun _ _ h' => h.congr h'.1 h'.2)
      fun _ => id
  cases o with
  | addPoint pt col =>
    obtain ⟨V, t, ht, hf, hc⟩ := h
    refine wp_addPoint (p := (pt, col)) (fun _ _ _ _ => trivial) ht (fun _ => trivial)
      (fun _ => trivial) fun u V' σ' hu h' hw => ?_
    rw [happend]
    exact Tracks.insert hroot hf hc hu h' hw
  | queryRange lo hi resolution => exact hquery (fun _ _ => by rintro ⟨⟩) rfl
  | rangeQueryLoop lo hi resolution rounds => exact hquery (fun _ _ => by rintro ⟨⟩) rfl

theorem wp_operations_tracks {center : Vec} {size : ℚ}
    (hroot : cfg.rootGeometry = .ofCenter center size) (ops : List TreeOp)
    (h : Tracks cfg (inBounds cfg pts) σ) : Spec (operations cfg ops)
      (fun _ σ' => Tracks cfg (inBounds cfg (pts ++ ops.flatMap TreeOp.inserted)) σ')
      (fun _ => True) σ := by
  induction ops generalizing pts σ with
  | nil =>
    rw [List.flatMap_nil, List.append_nil]
    exact h
  | cons o ops ih =>
    refine Prog.wp_bind.2 (Prog.wp_mono (wp_run_tracks hroot o h) (fun _ σ' h' => ?_) fun _ => id)
    rw [List.flatMap_cons, ← List.append_assoc]
    exact ih h'

/-- A new tree and any operations: the tree of the points that were inserted. -/
theorem wp_visit_tracks {center : Vec} {size : ℚ}
    (hroot : cfg.rootGeometry = .ofCenter center size) (ops : List TreeOp) :
    Spec (visit cfg true ops)
      (fun _ σ => Tracks cfg (inBounds cfg (ops.flatMap TreeOp.inserted)) σ) (fun _ => True)
      .init := by
  refine Prog.wp_bind.2 (wp_newTree_holds (I := noSummary) fun V σ h => ?_)
  have hempty : Tracks cfg (inBounds cfg []) σ := ⟨V, .empty, h, trivial, rfl⟩
  exact wp_operations_tracks hroot ops hempty

variable {lo hi : Vec}

/-- A query of a tree of points: the frontier nodes in its box, over which the points are
distributed. -/
theorem wp_queryRange_tracks {center : Vec} {size : ℚ}
    (hroot : cfg.rootGeometry = .ofCenter center size) (hmin : 0 < cfg.minCellSize)
    (h : Tracks cfg (inBounds cfg pts) σ) (hpts : inBounds cfg pts ≠ []) :
    Spec (queryRange cfg lo hi resolution) (fun out _ => ∃ V, Occupied V ∧
      Distributed cfg V resolution (inBounds cfg pts) ∧
      out = QueryResult.add cfg ⟨[], []⟩ ((frontier cfg V resolution []).filter (hits cfg lo hi)))
      (fun _ => False) σ := by
  obtain ⟨V, t, ht, hf, hc⟩ := h
  have hcube := Tracks.extent hroot hpts
  have hne : t ≠ .empty := by
    rintro rfl
    exact hpts (Multiset.coe_eq_zero _ |>.1 hc.symm)
  have hocc := ht.occupied (map_fst_ne_empty hne)
  obtain ⟨n, hn, -⟩ := ht.opened.node
  exact wp_queryRange hcube.lo_lt_hi hocc ht.stores ht.live hn fun _ _ _ =>
    ⟨V, hocc, ht.distributed hmin (fun _ => hcube) hf hc resolution, rfl⟩

/-- A point whose surroundings are in the box is found. -/
theorem Distributed.finds (h : Distributed cfg V resolution pts) (hp : p ∈ pts)
    (hbox : ∀ i, lo i + reach cfg resolution ≤ p.1 i ∧ p.1 i + reach cfg resolution ≤ hi i) :
    ∃ y ∈ (frontier cfg V resolution []).filter (hits cfg lo hi),
      ∀ i, |p.1 i - pointAt cfg y i| < reach cfg resolution := by
  obtain ⟨place, hmap, hnear, -⟩ := h
  have hmem : p ∈ place.map Prod.snd := by rw [hmap]; exact hp
  obtain ⟨x, hx, rfl⟩ := Multiset.mem_map.1 hmem
  obtain ⟨n, hn, hclose⟩ := hnear x hx
  refine ⟨(x.1, n), List.mem_filter.2 ⟨hn, decide_eq_true fun i => ?_⟩, hclose⟩
  obtain ⟨h₁, h₂⟩ := abs_lt.1 (hclose i)
  obtain ⟨hlo, hhi⟩ := hbox i
  constructor <;> linarith

/-- What is found is in the box, and near a point. -/
theorem Distributed.found (hV : Occupied V) (h : Distributed cfg V resolution pts)
    (hy : y ∈ (frontier cfg V resolution []).filter (hits cfg lo hi)) :
    (∀ i, lo i ≤ pointAt cfg y i ∧ pointAt cfg y i < hi i) ∧
      ∃ p ∈ pts, ∀ i, |p.1 i - pointAt cfg y i| < reach cfg resolution := by
  obtain ⟨hfr, hin⟩ := List.mem_filter.1 hy
  refine ⟨of_decide_eq_true hin, ?_⟩
  obtain ⟨place, hmap, hnear, hcount⟩ := h
  have hv := (mem_frontier hfr).2
  have hpos : 0 < place.countP fun x => x.1 = y.1 := by
    rw [← hcount y hfr]
    have hne := hV.count y.1 y.2 hv
    rw [Node.isEmpty, beq_eq_false_iff_ne] at hne
    exact Nat.pos_of_ne_zero fun h0 => hne (UInt64.toNat_inj.1 h0)
  obtain ⟨x, hx, hxy⟩ := Multiset.countP_pos.1 hpos
  obtain ⟨n, hn, hclose⟩ := hnear x hx
  obtain rfl : n = y.2 := by
    have hvn := (mem_frontier hn).2
    rw [show (x.1, n).1 = y.1 from hxy, hv] at hvn
    exact (Option.some.inj hvn).symm
  refine ⟨x.2, ?_, fun i => ?_⟩
  · have hmem : x.2 ∈ place.map Prod.snd := Multiset.mem_map_of_mem _ hx
    rw [hmap] at hmem
    exact hmem
  · have hpath : (x.1, y.2) = y := Prod.ext hxy rfl
    rw [← hpath]
    exact hclose i

end MegaTree
