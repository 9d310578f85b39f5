import MegaTree.Store.OutOfBounds
import MegaTree.Tree.Descent
import Mathlib.Data.Nat.Digits.Lemmas

/-!
# The depth of an insertion

Insertion has no depth counter.  It ends because the cells are halved on the way down and a cell
below `min_cell_size` is not divided, so that it asks for no child of a node of level 42 exactly if
41 halvings of the root cell lead below `min_cell_size` (`insertion_within_ids`).

* `WithinIds` : what holds then, whatever the file cache replies: the recursion ends, no id is formed
  below the deepest level, and every id holds all of its octal digits.
* `insert_corner` : otherwise two points in one corner of the root cell run into the limit.
-/

namespace MegaTree

open Effect SpaceTree

/-- The id holds all octal digits of a path, as many as its level says. -/
structure LongId.Exact (id : LongId) : Prop where
  path : ∃ π, id = idOf π ∧ id.toNat = octal π
  digits : (Nat.digits 8 id.toNat).length = id.idLevel
  level : id.idLevel ≤ 42

variable (cfg : Config)

/-- A node that is created or read has such an id. -/
def NamesExact : CacheOp → Prop
  | .createNode f s => ∃ id : LongId, id.Exact ∧ f = getFileId cfg id ∧ s = getShortId cfg id
  | .readNode f s => ∃ id : LongId, id.Exact ∧ f = getFileId cfg id ∧ s = getShortId cfg id
  | _ => True

/-- All errors but the assertion of `getChild`, and the recursion ends. -/
def WithinLimit (e : Err) : Prop := e ≠ .depthLimit ∧ e ≠ .outOfFuel

/-- The id and the cell belong to the same path. -/
def OnPath (id : LongId) (g : NodeGeometry) : Prop :=
  ∃ π : Path, π.length ≤ maxDepth ∧ id = idOf π ∧ g = geomOf cfg.rootGeometry π

/-- Both insertions stay within the ids. -/
structure WithinIds : Prop where
  plain : ∀ pt col, (addPoint cfg pt col).Always (NamesExact cfg) (fun _ => True) WithinLimit
  create : (FastCache.create cfg).Always (NamesExact cfg)
    (fun nodes => ∀ nc ∈ nodes, OnPath cfg nc.nh.id nc.nh.nodeGeom) WithinLimit
  fast : ∀ pt col nodes, (∀ nc ∈ nodes, OnPath cfg nc.nh.id nc.nh.nodeGeom) →
    (FastCache.addPoint cfg pt col nodes).Always (NamesExact cfg)
      (fun nodes' => ∀ nc ∈ nodes', OnPath cfg nc.nh.id nc.nh.nodeGeom) WithinLimit

/-- Both insertions return from every state of the tree, as long as the counts fit. -/
structure InsertionReturns : Prop where
  plain : ∀ σ N pt col, Reachable cfg σ N → cfg.rootGeometry.contains pt = true →
    Spec (addPoint cfg pt col) (fun _ _ => True) (fun e => e = .divideByZero ∧ 2 ^ 64 ≤ N + 1) σ
  fast : ∀ σ₀ N s pt col, Reachable cfg σ₀ N → FastReach cfg (fun _ _ _ => True) σ₀ N s →
    s.size + 1 < 2 ^ 64 → cfg.rootGeometry.contains pt = true → Returns cfg pt col s

variable {cfg} {π : Path} {pt col : Vec} {t u : CellTree} {g : NodeGeometry} {n : ℕ}

/-! ### Ids -/

theorem exact_idOf (h : π.length ≤ maxDepth) : (idOf π).Exact where
  path := ⟨π, rfl, toNat_idOf h⟩
  digits := by
    have hlog : Nat.log 8 (octal π) = π.length := by
      refine Nat.log_eq_of_pow_le_of_lt_pow (le_octal π) ?_
      have := octal_lt π
      rw [pow_succ]
      omega
    rw [toNat_idOf h, Nat.length_digits 8 _ (by decide) (octal_pos π).ne', hlog, idOf_idLevel]
  level := by
    rw [idOf_idLevel]
    simp only [maxDepth] at h
    omega

theorem getChild_idOf (h : π.length < maxDepth) (c : ChildNr) :
    (idOf π).getChild c = .ok (idOf (c :: π)) :=
  LongId.getChild_of_lt (by rw [idOf_idLevel]; simp only [maxDepth] at h; omega) c

/-! ### The recursion ends in time -/

theorem permits_withinLimit : Permits (NamesExact cfg) WithinLimit where
  op o ho := by cases o <;> trivial
  nullPointer := ⟨nofun, nofun⟩
  childExists := ⟨nofun, nofun⟩
  notLoaded := ⟨nofun, nofun⟩
  wrongOctant := ⟨nofun, nofun⟩
  divideByZero := ⟨nofun, nofun⟩
  emptyStack := ⟨nofun, nofun⟩

/-- A node whose cell may be divided is above the deepest level. -/
theorem length_lt_of_le (hs : cfg.rootGeometry.getSize < 2 ^ maxDepth * cfg.minCellSize)
    (hm : 0 < cfg.minCellSize) (h : cfg.minCellSize ≤ (geomOf cfg.rootGeometry π).getSize) :
    π.length < maxDepth := by
  by_contra hlt
  have hpow : (2 : ℚ) ^ maxDepth ≤ 2 ^ π.length := pow_le_pow_right₀ (by norm_num) (not_lt.1 hlt)
  rw [getSize_geomOf, le_div_iff₀ (by positivity)] at h
  have := mul_le_mul_of_nonneg_left hpow hm.le
  linarith

theorem mayDescend_idOf (h : π.length < maxDepth) :
    MayDescend cfg (NamesExact cfg) WithinLimit (idOf π) := by
  have hlen : ∀ c : ChildNr, (c :: π).length ≤ maxDepth := fun _ => h
  have hexact : ∀ c : ChildNr, (idOf (c :: π)).Exact := fun c => exact_idOf (hlen c)
  constructor
  · intro c childId hc
    rw [getChild_idOf h] at hc
    obtain rfl := Except.ok.inj hc
    exact ⟨_, hexact c, rfl, rfl⟩
  · intro c d childId childId' hc hd
    rw [getChild_idOf h] at hc hd
    obtain rfl := Except.ok.inj hc
    obtain rfl := Except.ok.inj hd
    -- siblings are in the same file
    refine ⟨_, hexact d, ?_, rfl⟩
    rw [getFileId_idOf (hlen c), getFileId_idOf (hlen d)]
    exact fileOf_siblings c d
  · intro c e he
    rw [getChild_idOf h] at he
    cases he

/-- The levels and the calls that are left add up to 42. -/
theorem descent_depth (hs : cfg.rootGeometry.getSize < 2 ^ maxDepth * cfg.minCellSize)
    (hm : 0 < cfg.minCellSize) (pt : Vec) :
    Descent cfg halfway (NamesExact cfg) WithinLimit pt fun k id g =>
      ∃ π : Path, π.length ≤ maxDepth ∧ maxDepth < π.length + k ∧ id = idOf π ∧
        g = geomOf cfg.rootGeometry π where
  fuel id g := by
    rintro ⟨π, h₁, h₂, -, -⟩
    omega
  point _ _ _ _ := .inr ⟨nofun, nofun⟩
  down k id g := by
    rintro ⟨π, -, -, rfl, rfl⟩ hsize
    exact mayDescend_idOf (length_lt_of_le hs hm hsize)
  child k id g childId := by
    rintro ⟨π, -, h₂, rfl, rfl⟩ hsize hc
    have hlt := length_lt_of_le hs hm hsize
    rw [getChild_idOf hlt] at hc
    obtain rfl := Except.ok.inj hc
    exact ⟨_ :: π, hlt, by rw [List.length_cons]; omega, rfl, rfl⟩

theorem withinIds_of_lt (hs : cfg.rootGeometry.getSize < 2 ^ maxDepth * cfg.minCellSize)
    (hm : 0 < cfg.minCellSize) : WithinIds cfg := by
  have hroot : NamesExact cfg (.readNode (getFileId cfg rootId) (getShortId cfg rootId)) :=
    ⟨rootId, exact_idOf (π := []) (Nat.zero_le _), rfl, rfl⟩
  refine ⟨fun pt col => ?_, ?_, fun pt col nodes hn => ?_⟩
  · rw [← addPointBy_halfway]
    exact always_addPointBy permits_withinLimit (descent_depth hs hm pt) hroot fun _ =>
      ⟨[], by decide, by decide, rfl, rfl⟩
  · refine (always_getRoot permits_withinLimit hroot).bind fun root hr => ?_
    refine (always_createNodeCache permits_withinLimit).bind fun nc hnc nc' hmem => ?_
    rw [List.mem_singleton.1 hmem, hnc, hr.1, hr.2]
    exact ⟨[], by decide, rfl, rfl⟩
  · rw [← FastCache.addPointBy_halfway]
    refine FastCache.always_addPointBy (K := OnPath cfg) permits_withinLimit
      (descent_depth hs hm pt) ?_ (fun nc hnc _ => ?_) hn
    · rintro k id g ⟨π, h₁, -, h₃, h₄⟩
      exact ⟨π, h₁, h₃, h₄⟩
    · obtain ⟨π, h₁, h₂, h₃⟩ := hn nc hnc
      exact ⟨π, h₁, by simp only [maxDepth, maxLevel]; omega, h₂, h₃⟩

/-- On the store the insertions also return. -/
theorem insertionReturns_of_lt (hs : cfg.rootGeometry.getSize < 2 ^ maxDepth * cfg.minCellSize) :
    InsertionReturns cfg := by
  have hsize : cfg.rootGeometry.getSize / 2 ^ maxDepth < cfg.minCellSize := by
    rw [div_lt_iff₀ (by positivity), mul_comm]
    exact hs
  constructor
  · intro σ N pt col hr hin
    obtain ⟨V, t, ht, rfl⟩ := hr.holds
    have hlen : (inBounds cfg [(pt, col)]).length = 1 := by simp [inBounds, hin]
    refine wp_addPoint (p := (pt, col)) (fun _ _ _ _ => trivial) ht (fun hnone => ?_)
      (fun hge => ?_)
      fun _ _ _ _ _ _ => trivial
    · have := insertPoints_isSome [(pt, col)] ht.shaped hsize
      rw [hnone] at this
      cases this
    · rw [hlen] at hge
      exact ⟨rfl, hge⟩
  · intro σ₀ N s pt col h₀ h hB hin
    obtain ⟨V, fs, t, T, hh, hw⟩ := h.holds h₀
    refine wp_fastAddPoint (p := (pt, col)) hh (by rw [hw]; exact hB) (fun ho => ?_)
      (fun hnone => ?_)
      fun _ _ _ _ _ _ _ _ _ => trivial
    · rw [hin] at ho
      cases ho
    · have := insertPoints_isSome [(pt, col)] hh.shaped hsize
      rw [hnone] at this
      cases this

/-! ### The bound is sharp -/

/-- Below the first children down to a leaf, the only point sits in the corner. -/
def InCorner : CellTree → Prop
  | .empty => False
  | .leaf a => ∀ i, a.point i = 0
  | .branch kids => InCorner (kids 0)

/-- The lower corner of a cell belongs to its first child. -/
theorem whichChild_lo (hg : ∀ i, g.lo i < g.hi i) : g.whichChild g.lo = 0 := by
  have hfun : (fun i => decide (g.getCenter i ≤ g.lo i)) = fun _ => false := by
    funext i
    have := hg i
    refine decide_eq_false (not_le.2 ?_)
    simp only [NodeGeometry.getCenter]
    linarith
  rw [NodeGeometry.whichChild, hfun]
  rfl

theorem getChild_zero_lo (g : NodeGeometry) : (g.getChild 0).lo = g.lo := by
  funext i
  have hu : upper 0 i = false := by
    revert i
    decide
  simp [NodeGeometry.getChild, hu]

theorem stop_eq_none_of_inCorner {p : Vec × Vec} (ht : InCorner t)
    (hsize : cfg.minCellSize ≤ g.getSize) : (pointPolicy cfg).stop p g t = none := by
  have hfinest : (pointPolicy cfg).finest g = false := decide_eq_false (not_lt.2 hsize)
  cases t with
  | empty => cases ht
  | leaf a => simp [Policy.stop, hfinest]
  | branch kids => rfl

/-- Dividing a cell with a point in the corner leaves it in the corner of the first child. -/
theorem inCorner_split (ht : InCorner t) : InCorner ((pointPolicy cfg).split t 0) := by
  cases t with
  | empty => cases ht
  | leaf a =>
    have hpush : ((pointPolicy cfg).push a).1 = 0 := by
      have hfun : (fun i => decide (bits2 ≤ a.point i)) = fun _ => false := by
        funext i
        rw [ht i]
        rfl
      change childOf (fun i => decide (bits2 ≤ a.point i)) = 0
      rw [hfun]
      rfl
    rw [Policy.split, hpush, Function.update_self]
    intro i
    change a.point i <<< 1 = 0
    rw [ht i]
    rfl
  | branch kids => exact ht

theorem half_size (h : 2 ^ (n + 1) * cfg.minCellSize ≤ g.getSize) :
    2 ^ n * cfg.minCellSize ≤ (g.getChild 0).getSize := by
  rw [NodeGeometry.getSize_getChild, le_div_iff₀ (by norm_num)]
  rw [pow_succ] at h
  linarith

theorem minCellSize_le_of_pow (hm : 0 < cfg.minCellSize) (h : 2 ^ n * cfg.minCellSize ≤ g.getSize) :
    cfg.minCellSize ≤ g.getSize := by
  have hpow : (1 : ℚ) ≤ 2 ^ n := one_le_pow₀ (by norm_num)
  have := mul_le_mul_of_nonneg_right hpow hm.le
  linarith

theorem single_lo (g : NodeGeometry) (i : Axis) :
    ((pointPolicy cfg).single g (g.lo, col)).point i = 0 := by
  change toPoint (bitsD * (g.lo i - g.lo i) / (g.hi i - g.lo i)) = 0
  rw [sub_self, mul_zero, zero_div]
  decide +kernel

theorem inCorner_of_stop {a : Node} (h : (pointPolicy cfg).stop (g.lo, col) g .empty = some a) :
    InCorner (.leaf a) := by
  rw [Policy.stop] at h
  split_ifs at h
  obtain rfl := Option.some.inj h
  exact single_lo g

/-- The first point ends up in the corner, if the levels suffice. -/
theorem insert_first (hg : ∀ i, g.lo i < g.hi i)
    (hu : (pointPolicy cfg).insert (g.lo, col) n g .empty = some u) : InCorner u := by
  induction n generalizing g u with
  | zero =>
    obtain ⟨a, ha, rfl⟩ := Option.map_eq_some_iff.1 hu
    exact inCorner_of_stop ha
  | succ n ih =>
    cases hstop : (pointPolicy cfg).stop (g.lo, col) g .empty with
    | some a =>
      rw [Policy.insert_of_stop hstop] at hu
      obtain rfl := Option.some.inj hu
      exact inCorner_of_stop hstop
    | none =>
      rw [Policy.insert_succ hstop] at hu
      obtain ⟨v, hv, rfl⟩ := Option.map_eq_some_iff.1 hu
      have hwhich : (pointPolicy cfg).which g (g.lo, col) = 0 := whichChild_lo hg
      rw [hwhich] at hv ⊢
      have hlo := getChild_zero_lo g
      change (pointPolicy cfg).insert (g.lo, col) n (g.getChild 0) .empty = some v at hv
      rw [← hlo] at hv
      rw [InCorner, Function.update_self]
      exact ih (NodeGeometry.getChild_lt hg 0) hv

/-- The second one is pushed down together with it until no level is left. -/
theorem insert_second (hm : 0 < cfg.minCellSize) (hg : ∀ i, g.lo i < g.hi i) (ht : InCorner t)
    (hsize : 2 ^ n * cfg.minCellSize ≤ g.getSize) :
    (pointPolicy cfg).insert (g.lo, col) n g t = none := by
  have hstop := stop_eq_none_of_inCorner (p := (g.lo, col)) ht (minCellSize_le_of_pow hm hsize)
  induction n generalizing g t with
  | zero => exact Policy.insert_zero hstop
  | succ n ih =>
    have hhalf := half_size hsize
    have hsplit : InCorner ((pointPolicy cfg).split t 0) := inCorner_split ht
    have hlo := getChild_zero_lo g
    rw [Policy.insert_succ hstop]
    change ((pointPolicy cfg).insert (g.lo, col) n (g.getChild (g.whichChild g.lo))
      ((pointPolicy cfg).split t (g.whichChild g.lo))).map _ = none
    rw [whichChild_lo hg, ← hlo, ih (NodeGeometry.getChild_lt hg 0) hsplit hhalf
      (stop_eq_none_of_inCorner hsplit (minCellSize_le_of_pow hm hhalf))]
    rfl

/-- Two points in the lower corner of a root cell that is too large. -/
theorem insertPoints_corner (hm : 0 < cfg.minCellSize)
    (hg : ∀ i, cfg.rootGeometry.lo i < cfg.rootGeometry.hi i)
    (hsize : 2 ^ maxDepth * cfg.minCellSize ≤ cfg.rootGeometry.getSize) :
    insertPoints cfg [(cfg.rootGeometry.lo, col), (cfg.rootGeometry.lo, col)] .empty = none := by
  have hin : cfg.rootGeometry.contains cfg.rootGeometry.lo = true :=
    NodeGeometry.contains_iff.2 fun i => ⟨le_rfl, hg i⟩
  rw [insertPoints_cons, insertPoints_single hin]
  cases hu : (pointPolicy cfg).insert (cfg.rootGeometry.lo, col) maxDepth cfg.rootGeometry
      .empty with
  | none => rfl
  | some u =>
    rw [Option.bind_some, insertPoints_single hin]
    exact insert_second hm hg (insert_first hg hu) hsize

/-- **Insertion stays within the ids exactly if 41 halvings of the root cell lead below
`min_cell_size`.**  Otherwise two points in its lower corner violate the assertion of `getChild`, with
either algorithm. -/
theorem insertion_within_ids (cfg : Config) {center : Vec} {size : ℚ}
    (hcfg : cfg.rootGeometry = .ofCenter center size) (hs : 0 < size) (hm : 0 < cfg.minCellSize) :
    (size < 2 ^ 41 * cfg.minCellSize → WithinIds cfg ∧ InsertionReturns cfg) ∧
      (2 ^ 41 * cfg.minCellSize ≤ size →
        ∃ pts, (∀ p ∈ pts, cfg.rootGeometry.contains p.1 = true) ∧
          Spec (do newTree cfg; addPoints cfg pts) (fun _ _ => False) (· = .depthLimit) .init ∧
          Spec (do newTree cfg; FastCache.insertAll cfg pts) (fun _ _ => False) (· = .depthLimit)
            .init) := by
  have hsize : cfg.rootGeometry.getSize = size := by
    rw [hcfg, NodeGeometry.getSize]
    simp only [NodeGeometry.ofCenter]
    ring
  have hg : ∀ i, cfg.rootGeometry.lo i < cfg.rootGeometry.hi i := fun i => by
    rw [hcfg]
    simp only [NodeGeometry.ofCenter]
    linarith
  rw [← hsize]
  refine ⟨fun h => ⟨withinIds_of_lt h hm, insertionReturns_of_lt h⟩, fun h => ?_⟩
  set pts : List (Vec × Vec) := [(cfg.rootGeometry.lo, fun _ => 0),
    (cfg.rootGeometry.lo, fun _ => 0)]
    with hpts
  have hnone : insertPoints cfg pts .empty = none := insertPoints_corner hm hg h
  have hin : ∀ p ∈ pts, cfg.rootGeometry.contains p.1 = true := by
    intro p hp
    have hlo : p.1 = cfg.rootGeometry.lo := by
      simp only [hpts, List.mem_cons, List.not_mem_nil, or_false, or_self] at hp
      rw [hp]
    rw [hlo]
    exact NodeGeometry.contains_iff.2 fun i => ⟨le_rfl, hg i⟩
  have hfew : ¬ countBound ≤ points .empty + pts.length :=
    not_le.2 (by change 0 + 2 < 2 ^ 64; decide)
  refine ⟨pts, hin, ?_, ?_⟩
  · refine Prog.wp_bind.2 (wp_newTree_holds (I := noSummary) fun V σ h => ?_)
    refine wp_addPoints (fun _ _ _ _ => trivial) h (fun _ => rfl) (fun hge => ?_)
      fun u V' σ' hu _ _ => by rw [hnone] at hu; cases hu
    exact absurd (hge.trans (Nat.add_le_add_left (List.length_filter_le _ _) _)) hfew
  · refine Prog.wp_bind.2 (wp_newTree_holds (I := noSummary) fun V σ h => ?_)
    refine wp_insertAll h (not_le.1 hfew) ?_ (fun _ => rfl)
      fun u V' σ' hu _ _ _ => by rw [hnone] at hu; cases hu
    rintro ⟨p, hp, ho⟩
    rw [hin p hp] at ho
    cases ho

/-- The sample tree is far within the limit. -/
theorem insertion_within_ids_sample : WithinIds .sample ∧ InsertionReturns .sample :=
  (insertion_within_ids .sample rfl (by decide) (by decide)).1
    (by decide +kernel)

end MegaTree
