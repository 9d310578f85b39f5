import MegaTree.Store.Settle
import MegaTree.Store.SameTree
import Mathlib.Algebra.BigOperators.Fin

/-!
# The order of the insertions

The shape of the tree is determined by the places where the points settled (`Sorted.alike_iff`).
These are the points themselves, except for the first point of a cell of edge exactly
`BITS_D * min_cell_size`, which settles at its cut.  It makes a difference in the cells of edge
exactly `min_cell_size`, which are still divided when they have two points: there the cut is in the
first child, wherever the point itself is.

`sameOutline_iff` : two orders of the same points lead to the same shape if and only if this never
happens differently.
-/

namespace MegaTree

open Effect SpaceTree

variable {cfg : Config} {root g : NodeGeometry} {M M₁ M₂ : Multiset Vec} {t t₁ t₂ u : CellTree}
  {p q : Vec} {π κ ρ : Path} {i : ChildNr} {d : ℕ} {pts : List (Vec × Vec)}

/-! ### Counting in cells -/

/-- The number of places in the cell at a path. -/
def inside (root : NodeGeometry) (M : Multiset Vec) (π : Path) : ℕ :=
  M.countP fun q => (geomOf root π).contains q = true

/-- The number of points in the cell at a path. -/
def held (root : NodeGeometry) (pts : List (Vec × Vec)) (π : Path) : ℕ :=
  pts.countP fun p => (geomOf root π).contains p.1

theorem inside_nil (hM : ∀ q ∈ M, g.contains q = true) : inside g M [] = Multiset.card M :=
  Multiset.countP_eq_card.2 hM

theorem inside_cons (q : Vec) (M : Multiset Vec) : inside g (q ::ₘ M) π =
    inside g M π + if (geomOf g π).contains q = true then 1 else 0 :=
  Multiset.countP_cons _ q M

theorem held_concat (p : Vec × Vec) : held g (pts ++ [p]) π =
    held g pts π + if (geomOf g π).contains p.1 = true then 1 else 0 := by
  simp [held, List.countP_append, List.countP_cons]

/-- A cell of a child holds what the child holds of it. -/
theorem inside_child (hg : ∀ i, g.lo i < g.hi i) :
    inside (g.getChild i) (M.filter fun q => g.whichChild q = i) π = inside g M (π ++ [i]) := by
  rw [inside, inside, Multiset.countP_filter]
  refine Multiset.countP_congr rfl fun q _ => ?_
  rw [geomOf_append]
  refine propext (and_iff_left_of_imp fun hq => ?_)
  have hc : (geomOf (g.getChild i) (π ++ [])).contains q = true := by rwa [List.append_nil]
  have hchild := contains_of_append (π := []) (NodeGeometry.getChild_lt hg i) hc
  exact (NodeGeometry.whichChild_of_contains hg hchild).2

theorem inside_singleton (hM : ∀ q ∈ M, g.contains q = true) : inside g M [i] =
    Multiset.card (M.filter fun q => g.whichChild q = i) := by
  rw [inside, Multiset.countP_eq_card_filter]
  refine congrArg Multiset.card (Multiset.filter_congr fun q hq => ?_)
  have hg := NodeGeometry.lt_of_contains (hM q hq)
  constructor
  · intro h
    exact (NodeGeometry.whichChild_of_contains hg h).2
  · rintro rfl
    exact NodeGeometry.contains_whichChild (hM q hq)

/-- Every point is in one child. -/
theorem sum_card_filter (f : Vec → ChildNr) (M : Multiset Vec) :
    ∑ i, Multiset.card (M.filter fun q => f q = i) = Multiset.card M := by
  induction M using Multiset.induction with
  | empty => simp
  | cons q M ih =>
    have hcons : ∀ i, Multiset.card ((q ::ₘ M).filter fun q => f q = i) =
        (if f q = i then 1 else 0) + Multiset.card (M.filter fun q => f q = i) := by
      intro i
      rw [Multiset.filter_cons, Multiset.card_add]
      split_ifs <;> rfl
    rw [Finset.sum_congr rfl fun i _ => hcons i, Finset.sum_add_distrib, ih, Finset.sum_ite_eq,
      if_pos (Finset.mem_univ _), Multiset.card_cons, Nat.add_comm]

theorem sum_inside (hg : ∀ i, g.lo i < g.hi i) (M : Multiset Vec) (π : Path) :
    ∑ i, inside g M (i :: π) = inside g M π := by
  have hπ := geomOf_lt hg π
  have hsum := sum_card_filter (geomOf g π).whichChild
    (M.filter fun q => (geomOf g π).contains q = true)
  rw [inside, Multiset.countP_eq_card_filter, ← hsum]
  refine Finset.sum_congr rfl fun i _ => ?_
  rw [inside, Multiset.countP_eq_card_filter, Multiset.filter_filter]
  refine congrArg Multiset.card (Multiset.filter_congr fun q _ => ?_)
  constructor
  · intro h
    exact (NodeGeometry.whichChild_of_contains hπ h).symm
  · rintro ⟨rfl, h⟩
    exact NodeGeometry.contains_whichChild h

/-! ### The places determine the shape -/

/-- Two trees with the same cells and the same counts. -/
def Alike : CellTree → CellTree → Prop
  | .empty, .empty => True
  | .leaf a, .leaf b => a.count = b.count
  | .branch ks, .branch ls => ∀ i, Alike (ks i) (ls i)
  | _, _ => False

theorem Sorted.points_eq (h : Sorted cfg g M t) : points t = Multiset.card M := by
  induction t generalizing g M with
  | empty =>
    obtain rfl : M = 0 := h
    rfl
  | leaf a => exact h.2.1
  | branch kids ih =>
    rw [← sum_card_filter g.whichChild M]
    exact Finset.sum_congr rfl fun i _ => ih i (h.2.2.2 i)

theorem Alike.points_eq (h : Alike t₁ t₂) : points t₁ = points t₂ := by
  induction t₁ generalizing t₂ with
  | empty =>
    cases t₂ with
    | empty => rfl
    | leaf b => cases h
    | branch ls => cases h
  | leaf a =>
    cases t₂ with
    | empty => cases h
    | leaf b => exact congrArg UInt64.toNat h
    | branch ls => cases h
  | branch ks ih =>
    cases t₂ with
    | empty => cases h
    | leaf b => cases h
    | branch ls => exact Finset.sum_congr rfl fun i _ => ih i (h i)

theorem wide_iff : (pointPolicy cfg).finest g = false ↔ cfg.minCellSize ≤ g.getSize := by
  simp [pointPolicy]

/-- A cell with a leaf that may be divided has one point. -/
theorem Sorted.card_leaf {a : Node} (h : Sorted cfg g M (.leaf a))
    (hg : cfg.minCellSize ≤ g.getSize) :
    (pointPolicy cfg).fine g = true ∧ Multiset.card M = 1 := by
  obtain ⟨-, -, hf | ⟨hf, q, rfl, -⟩⟩ := h
  · rw [wide_iff.2 hg] at hf
    cases hf
  · exact ⟨hf, Multiset.card_singleton q⟩

theorem Sorted.not_leaf_branch {a : Node} {kids : ChildNr → CellTree}
    (h₁ : Sorted cfg g M₁ (.leaf a)) (h₂ : Sorted cfg g M₂ (.branch kids))
    (hcard : Multiset.card M₁ = Multiset.card M₂) : False := by
  obtain ⟨-, hg, hfine, -⟩ := h₂
  obtain ⟨hf, hone⟩ := h₁.card_leaf (wide_iff.1 hg)
  have := hfine hf
  omega

variable (cfg) in
/-- Below the cells that are divided there are as many places of the one kind as of the other. -/
def SameCounts (g : NodeGeometry) (M₁ M₂ : Multiset Vec) : Prop :=
  Multiset.card M₁ = Multiset.card M₂ ∧ ∀ π i, cfg.minCellSize ≤ (geomOf g π).getSize →
    ((pointPolicy cfg).fine (geomOf g π) = true → 1 < inside g M₁ π) →
    inside g M₁ (i :: π) = inside g M₂ (i :: π)

theorem mem_filter_child (hM : ∀ q ∈ M, g.contains q = true) :
    ∀ q ∈ M.filter (fun q => g.whichChild q = i), (g.getChild i).contains q = true := by
  intro q hq
  obtain ⟨hmem, rfl⟩ := Multiset.mem_filter.1 hq
  exact NodeGeometry.contains_whichChild (hM q hmem)

/-- Where the counts are the same, so is the tree. -/
theorem Sorted.alike (hg : ∀ i, g.lo i < g.hi i) (hM₁ : ∀ q ∈ M₁, g.contains q = true)
    (hM₂ : ∀ q ∈ M₂, g.contains q = true) (h₁ : Sorted cfg g M₁ t₁) (h₂ : Sorted cfg g M₂ t₂)
    (hc : SameCounts cfg g M₁ M₂) : Alike t₁ t₂ := by
  have hempty : t₁ = .empty ↔ t₂ = .empty := by
    rw [h₁.empty_iff, h₂.empty_iff, ← Multiset.card_eq_zero, ← Multiset.card_eq_zero, hc.1]
  induction t₁ generalizing g M₁ M₂ t₂ with
  | empty =>
    rw [hempty.1 rfl]
    trivial
  | leaf a =>
    cases t₂ with
    | empty => exact absurd (hempty.2 rfl) fun h => nomatch h
    | leaf b => exact UInt64.toNat_inj.1 (h₁.2.1.trans (hc.1.trans h₂.2.1.symm))
    | branch ls => exact (h₁.not_leaf_branch h₂ hc.1).elim
  | branch ks ih =>
    cases t₂ with
    | empty => exact absurd (hempty.2 rfl) fun h => nomatch h
    | leaf b => exact (h₂.not_leaf_branch h₁ hc.1.symm).elim
    | branch ls =>
      intro i
      have hci : SameCounts cfg (g.getChild i) (M₁.filter fun q => g.whichChild q = i)
          (M₂.filter fun q => g.whichChild q = i) := by
        constructor
        · rw [← inside_singleton hM₁, ← inside_singleton hM₂]
          refine hc.2 [] i (wide_iff.1 h₁.2.1) fun hf => ?_
          rw [inside_nil hM₁]
          exact h₁.2.2.1 hf
        · intro π j hπ hf
          rw [inside_child hg, inside_child hg]
          refine hc.2 (π ++ [i]) j (by rwa [geomOf_append]) fun hfine => ?_
          rw [← inside_child hg]
          exact hf (by rwa [geomOf_append] at hfine)
      refine ih i (NodeGeometry.getChild_lt hg i) (mem_filter_child hM₁) (mem_filter_child hM₂)
        (h₁.2.2.2 i) (h₂.2.2.2 i) hci ?_
      rw [(h₁.2.2.2 i).empty_iff, (h₂.2.2.2 i).empty_iff, ← Multiset.card_eq_zero,
        ← Multiset.card_eq_zero, hci.1]

theorem getSize_geomOf_le (hg : 0 < g.getSize) (π : Path) : (geomOf g π).getSize ≤ g.getSize := by
  rw [getSize_geomOf]
  exact div_le_self hg.le (one_le_pow₀ (by norm_num))

/-- Trees that are alike have the same counts below their cells. -/
theorem Alike.sameCounts (hg : ∀ i, g.lo i < g.hi i) (hM₁ : ∀ q ∈ M₁, g.contains q = true)
    (hM₂ : ∀ q ∈ M₂, g.contains q = true) (h₁ : Sorted cfg g M₁ t₁) (h₂ : Sorted cfg g M₂ t₂)
    (h : Alike t₁ t₂) : SameCounts cfg g M₁ M₂ := by
  have hcard : Multiset.card M₁ = Multiset.card M₂ := by
    rw [← h₁.points_eq, ← h₂.points_eq, h.points_eq]
  refine ⟨hcard, fun π i hπ hf => ?_⟩
  have hpos : 0 < g.getSize := sub_pos.2 (hg 0)
  induction t₁ generalizing g M₁ M₂ t₂ π with
  | empty =>
    obtain rfl : M₁ = 0 := h₁
    obtain rfl : M₂ = 0 := Multiset.card_eq_zero.1 hcard.symm
    rfl
  | leaf a =>
    -- a cell below a leaf that may be divided has at most its point
    obtain ⟨hfine, hone⟩ := h₁.card_leaf (hπ.trans (getSize_geomOf_le hpos π))
    have hle : inside g M₁ π ≤ Multiset.card M₁ := Multiset.countP_le_card _ _
    have : 1 < inside g M₁ π := by
      refine hf ?_
      simp only [pointPolicy, decide_eq_true_eq] at hfine ⊢
      have hs := getSize_geomOf_le hpos π
      rw [bitsD] at hfine ⊢
      refine .inl ?_
      rcases hfine with hfine | hfine <;> linarith
    omega
  | branch ks ih =>
    cases t₂ with
    | empty => cases h
    | leaf b => cases h
    | branch ls =>
      have hkid : ∀ j, Multiset.card (M₁.filter fun q => g.whichChild q = j) =
          Multiset.card (M₂.filter fun q => g.whichChild q = j) := fun j => by
        rw [← (h₁.2.2.2 j).points_eq, ← (h₂.2.2.2 j).points_eq, (h j).points_eq]
      rcases List.eq_nil_or_concat π with rfl | ⟨ξ, j, rfl⟩
      · rw [inside_singleton hM₁, inside_singleton hM₂]
        exact hkid i
      · rw [List.concat_eq_append] at hπ hf ⊢
        rw [geomOf_append] at hπ hf
        have hlt := NodeGeometry.getChild_lt hg j
        have := ih j hlt (mem_filter_child hM₁) (mem_filter_child hM₂) (h₁.2.2.2 j) (h₂.2.2.2 j)
          (h j) (hkid j) ξ hπ (fun hfine => by rw [inside_child hg]; exact hf hfine)
          (sub_pos.2 (hlt 0))
        rwa [inside_child hg, inside_child hg] at this

/-! ### Trees in the store -/

/-- What the shape says of a node: the mask of its children and its count. -/
def outline (n : Node) : UInt8 × Count := (n.children, n.count)

variable (cfg) in
/-- The same node ids, and the same masks and counts. -/
def SameOutline (σ₁ σ₂ : Store) : Prop :=
  ∀ π, (nodeAt cfg σ₁ π).map outline = (nodeAt cfg σ₂ π).map outline

variable {I : Summary} {V V₁ V₂ : Path → Option Node} {σ σ₁ σ₂ : Store}

theorem Rep.isSome_iff (h : Rep I V π t) : (V π).isSome ↔ t ≠ .empty := by
  rcases h.node with ⟨rfl, hn⟩ | ⟨n, hne, hn, -⟩
  · simp [hn]
  · simp [hn, hne]

theorem Rep.ne_empty_iff (h₁ : Rep I V₁ π t₁) (h₂ : Rep I V₂ π t₂)
    (h : (V₁ π).map outline = (V₂ π).map outline) : t₁ ≠ .empty ↔ t₂ ≠ .empty := by
  rw [← h₁.isSome_iff, ← h₂.isSome_iff, ← Option.isSome_map (f := outline), h, Option.isSome_map]

/-- Equal outlines of the nodes are an equal shape of the trees. -/
theorem Rep.alike (h₁ : Rep I V₁ π t₁) (h₂ : Rep I V₂ π t₂) (hf₁ : Shaped cfg g t₁)
    (hf₂ : Shaped cfg g t₂) (h : ∀ ρ, (V₁ (ρ ++ π)).map outline = (V₂ (ρ ++ π)).map outline) :
    Alike t₁ t₂ := by
  have hsome : t₁ ≠ .empty ↔ t₂ ≠ .empty := h₁.ne_empty_iff h₂ (h [])
  have notBranch : ∀ {V₁ V₂ : Path → Option Node} {π : Path} {g : NodeGeometry} {a : Node}
      {ls : ChildNr → CellTree}, Rep I V₁ π (.leaf a) → Shaped cfg g (.leaf a) →
      Rep I V₂ π (.branch ls) → Shaped cfg g (.branch ls) →
      (V₁ π).map outline = (V₂ π).map outline → False := by
    intro V₁ V₂ π g a ls h₁ hf₁ h₂ hf₂ he
    obtain ⟨⟨n, hn, -, hmask, -⟩, -⟩ := h₂
    obtain ⟨-, ⟨i, hi⟩, -⟩ := hf₂
    rw [h₁.1, hn] at he
    have hzero : n.children = 0 := (congrArg Prod.fst (Option.some.inj he)).symm.trans hf₁.children
    have := Node.isLeaf_iff_hasChild.1 (Node.isLeaf_iff.2 hzero) i
    rw [(hmask i).2 hi] at this
    cases this
  induction t₁ generalizing π g t₂ with
  | empty =>
    cases t₂ with
    | empty => trivial
    | leaf b => exact absurd rfl (hsome.2 fun h => nomatch h)
    | branch ls => exact absurd rfl (hsome.2 fun h => nomatch h)
  | leaf a =>
    cases t₂ with
    | empty => exact absurd rfl (hsome.1 fun h => nomatch h)
    | leaf b =>
      have he := h []
      rw [List.nil_append, h₁.1, h₂.1] at he
      exact congrArg Prod.snd (Option.some.inj he)
    | branch ls => exact (notBranch h₁ hf₁ h₂ hf₂ (h [])).elim
  | branch ks ih =>
    cases t₂ with
    | empty => exact absurd rfl (hsome.1 fun h => nomatch h)
    | leaf b => exact (notBranch h₂ hf₂ h₁ hf₁ (h []).symm).elim
    | branch ls =>
      intro i
      have hkid : ∀ ρ, (V₁ (ρ ++ i :: π)).map outline = (V₂ (ρ ++ i :: π)).map outline := by
        intro ρ
        have := h (ρ ++ [i])
        rwa [List.append_assoc, List.singleton_append] at this
      exact ih i (h₁.2 i) (h₂.2 i) (hf₁.2.2 i) (hf₂.2.2 i) hkid
        ((h₁.2 i).ne_empty_iff (h₂.2 i) (hkid []))

/-- Trees that are alike have nodes with the same outlines. -/
theorem Alike.outline_eq (h₁ : Rep I V₁ π t₁) (h₂ : Rep I V₂ π t₂) (hf₁ : Shaped cfg g t₁)
    (hf₂ : Shaped cfg g t₂) (h : Alike t₁ t₂) (ρ : Path) :
    (V₁ (ρ ++ π)).map outline = (V₂ (ρ ++ π)).map outline := by
  induction t₁ generalizing π g t₂ ρ with
  | empty =>
    cases t₂ with
    | empty => rw [h₁ ρ, h₂ ρ]
    | leaf b => cases h
    | branch ls => cases h
  | leaf a =>
    cases t₂ with
    | empty => cases h
    | leaf b =>
      rcases List.eq_nil_or_concat ρ with rfl | ⟨ξ, i, rfl⟩
      · rw [List.nil_append, h₁.1, h₂.1]
        exact congrArg some (Prod.ext (hf₁.children.trans hf₂.children.symm) h)
      · rw [List.concat_eq_append, List.append_assoc, List.singleton_append, h₁.2, h₂.2]
    | branch ls => cases h
  | branch ks ih =>
    cases t₂ with
    | empty => cases h
    | leaf b => cases h
    | branch ls =>
      rcases List.eq_nil_or_concat ρ with rfl | ⟨ξ, i, rfl⟩
      · have hpoints := h.points_eq
        have hkids : ∀ i, ks i ≠ .empty ↔ ls i ≠ .empty := fun i => (h₁.2 i).ne_empty_iff (h₂.2 i)
          (ih i (h₁.2 i) (h₂.2 i) (hf₁.2.2 i) (hf₂.2.2 i) (h i) [])
        obtain ⟨⟨n₁, hn₁, hk₁, hm₁, -⟩, -⟩ := h₁
        obtain ⟨⟨n₂, hn₂, hk₂, hm₂, -⟩, -⟩ := h₂
        rw [List.nil_append, hn₁, hn₂]
        have hmask : n₁.children = n₂.children := Node.children_ext fun i => by
          rw [← Node.hasChild_eq, ← Node.hasChild_eq, Bool.eq_iff_iff, hm₁, hm₂, hkids]
        have hcount : n₁.count = n₂.count := by rw [hk₁, hk₂, hpoints]
        exact congrArg some (Prod.ext hmask hcount)
      · rw [List.concat_eq_append, List.append_assoc, List.singleton_append]
        exact ih i (h₁.2 i) (h₂.2 i) (hf₁.2.2 i) (hf₂.2.2 i) (h i) ξ

/-! ### Where the points of a sequence settle -/

/-- The first point of a sequence in the cell `κ` lies in the cell `π`. -/
def firstLies (root : NodeGeometry) (κ π : Path) (pts : List (Vec × Vec)) : Bool :=
  (pts.find? fun p => (geomOf root κ).contains p.1).any fun p => (geomOf root π).contains p.1

variable (cfg) in
/-- The places `M` where the points of a sequence have settled, counted cell by cell. -/
structure Settled (root : NodeGeometry) (pts : List (Vec × Vec)) (M : Multiset Vec) : Prop where
  contains : ∀ q ∈ M, root.contains q = true
  card : Multiset.card M = pts.length
  /-- The places of the points, where they can be told from their cuts only in smaller cells. -/
  coarse : ∀ π i, cfg.minCellSize ≤ (geomOf root π).getSize →
    ¬ ((geomOf root π).getSize = cfg.minCellSize ∧ 16 ≤ π.length) →
    inside root M (i :: π) = held root pts (i :: π)
  /-- The last cells: the first point of the large cell does not settle in the upper children. -/
  last : ∀ ρ κ i, i ≠ 0 → ρ.length = 16 → (geomOf root (ρ ++ κ)).getSize = cfg.minCellSize →
    inside root M (i :: (ρ ++ κ)) + (firstLies root κ (i :: (ρ ++ κ)) pts).toNat =
      held root pts (i :: (ρ ++ κ))

/-- In a cell that may be divided there are as many places as points. -/
theorem Settled.wide (hpos : 0 < root.getSize) (hmin : 0 < cfg.minCellSize)
    (h : Settled cfg root pts M) (hpts : ∀ p ∈ pts, root.contains p.1 = true)
    (hπ : cfg.minCellSize ≤ (geomOf root π).getSize) : inside root M π = held root pts π := by
  cases π with
  | nil =>
    rw [inside_nil h.contains, h.card]
    exact (List.countP_eq_length.2 hpts).symm
  | cons i π =>
    have hhalf : (geomOf root (i :: π)).getSize = (geomOf root π).getSize / 2 :=
      NodeGeometry.getSize_getChild i
    have hup : 0 < (geomOf root π).getSize := by
      rw [getSize_geomOf]
      positivity
    exact h.coarse π i (by linarith) fun hmin => by linarith [hmin.1]

theorem firstLies_of_held {p : Vec × Vec} (h : 0 < held root pts κ) :
    firstLies root κ π (pts ++ [p]) = firstLies root κ π pts := by
  obtain ⟨x, hx, hc⟩ := List.countP_pos_iff.1 h
  obtain ⟨y, hy⟩ := Option.isSome_iff_exists.1
    (List.find?_isSome (p := fun p => (geomOf root κ).contains p.1) |>.2 ⟨x, hx, hc⟩)
  rw [firstLies, firstLies, List.find?_append, hy]
  rfl

theorem firstLies_of_not_contains {p : Vec × Vec} (h : (geomOf root κ).contains p.1 = false) :
    firstLies root κ π (pts ++ [p]) = firstLies root κ π pts := by
  rw [firstLies, firstLies, List.find?_append, List.find?_singleton, h]
  simp

theorem firstLies_of_first {p : Vec × Vec} (h : held root pts κ = 0)
    (hp : (geomOf root κ).contains p.1 = true) : firstLies root κ π pts = false ∧
      firstLies root κ π (pts ++ [p]) = (geomOf root π).contains p.1 := by
  have hnone : pts.find? (fun p => (geomOf root κ).contains p.1) = none := by
    rw [List.find?_eq_none]
    intro x hx hc
    have : 0 < held root pts κ := List.countP_pos_iff.2 ⟨x, hx, hc⟩
    omega
  constructor
  · rw [firstLies, hnone]
    rfl
  · rw [firstLies, List.find?_append, hnone, List.find?_singleton, hp]
    rfl

/-- One more point. -/
theorem Settled.concat {p : Vec × Vec} (hg : IsCube root) (hmin : 0 < cfg.minCellSize)
    (h : Settled cfg root pts M) (hpts : ∀ p ∈ pts, root.contains p.1 = true)
    (hp : root.contains p.1 = true) (hs : Settles cfg root M p.1 q) :
    Settled cfg root (pts ++ [p]) (q ::ₘ M) := by
  have hq := hs.contains hg hp
  refine ⟨Multiset.forall_mem_cons.2 ⟨hq, h.contains⟩, ?_, fun π i hπ hnot => ?_,
    fun ρ κ i hi hρ hsize => ?_⟩
  · rw [Multiset.card_cons, h.card, List.length_append, List.length_singleton]
  · -- the place is in the same cell as the point
    have hsame : (geomOf root (i :: π)).contains q = (geomOf root (i :: π)).contains p.1 := by
      rcases hs.route hg hp with ⟨rfl, -⟩ | ⟨κ, hκ, hroute, -⟩
      · rfl
      · obtain ⟨hle, heq⟩ := hκ.length_le hmin hπ
        have hlt : π.length ≠ 16 + κ.length := fun hlen => hnot ⟨heq hlen, by omega⟩
        refine contains_eq_of_route hp hq (route_eq_of_le ?_ hroute)
        rw [List.length_cons]
        omega
    rw [inside_cons, held_concat, h.coarse π i hπ hnot, hsame]
  · have hlarge : (geomOf root κ).getSize = bitsD * cfg.minCellSize := by
      rw [geomOf_append, getSize_geomOf, hρ, div_eq_iff (by positivity)] at hsize
      rw [hsize, bitsD]
      ring
    have hlen : (ρ ++ κ).length = 16 + κ.length := by rw [List.length_append, hρ]
    have hwide := h.wide (π := κ) hg.1 hmin hpts (by rw [hlarge, bitsD]; linarith)
    have hold := h.last ρ κ i hi hρ hsize
    rw [inside_cons, held_concat]
    rcases hs.route hg hp with ⟨rfl, hno⟩ | ⟨κ', hκ', hroute, hfirst⟩
    · -- the point is not the first one of its large cell
      have hkeep : firstLies root κ (i :: (ρ ++ κ)) (pts ++ [p]) =
          firstLies root κ (i :: (ρ ++ κ)) pts := by
        by_cases hpκ : (geomOf root κ).contains p.1 = true
        · refine firstLies_of_held ?_
          by_contra hzero
          rw [← hwide, Nat.not_lt, Nat.le_zero] at hzero
          refine hno κ ⟨hlarge, hpκ, fun y hy => ?_⟩
          simpa using Multiset.countP_eq_zero.1 hzero y hy
        · exact firstLies_of_not_contains (by simpa using hpκ)
      rw [hkeep]
      omega
    · have hlenκ := length_eq_of_getSize hg.1 (hκ'.1.trans hlarge.symm)
      have hpκ' := (contains_iff_route hp).1 hκ'.2.1
      by_cases hκ : κ' = κ
      · -- the point is the first one, and its cut is in the first child
        subst hκ
        have hzero : held root pts κ' = 0 := by
          rw [← hwide]
          exact Multiset.countP_eq_zero.2 fun y hy => by simp [hκ'.2.2 y hy]
        obtain ⟨hbefore, hafter⟩ := firstLies_of_first (π := i :: (ρ ++ κ')) hzero hκ'.2.1
        have hqnot : (geomOf root (i :: (ρ ++ κ'))).contains q = false := by
          by_contra hc
          rw [Bool.not_eq_false, contains_iff_route hq, List.length_cons, hlen,
            show 16 + κ'.length + 1 = 17 + κ'.length by omega, hfirst] at hc
          exact hi (List.cons.inj hc).1.symm
        rw [hbefore] at hold
        rw [hafter, hqnot]
        cases (geomOf root (i :: (ρ ++ κ'))).contains p.1 <;> simp at hold ⊢ <;> omega
      · -- the point belongs to another large cell
        have hother : ∀ x, root.contains x = true → route root x κ.length = κ' →
            (geomOf root (i :: (ρ ++ κ))).contains x = false := by
          intro x hx hr
          by_contra hc
          rw [Bool.not_eq_false] at hc
          have hxκ := contains_of_append (ρ := i :: ρ) (NodeGeometry.lt_of_contains hx) hc
          rw [contains_iff_route hx, hr] at hxκ
          exact hκ hxκ
        have hpκ : route root p.1 κ.length = κ' := by rw [← hlenκ]; exact hpκ'
        have hqκ : route root q κ.length = κ' := by
          rw [route_eq_of_le (by omega) (hlenκ ▸ hroute), hpκ]
        rw [firstLies_of_not_contains, hother p.1 hp hpκ, hother q hq hqκ]
        · simpa using hold
        · by_contra hc
          rw [Bool.not_eq_false, contains_iff_route hp, hpκ] at hc
          exact hκ hc

/-- The places of any number of points. -/
theorem settled_insertAll {pts ps : List (Vec × Vec)} {n : ℕ} (hg : IsCube root)
    (hmin : 0 < cfg.minCellSize) (hpts : ∀ p ∈ pts, root.contains p.1 = true)
    (hps : ∀ p ∈ ps, root.contains p.1 = true) (hB : Multiset.card M + ps.length < countBound)
    (hM : Settled cfg root pts M) (ht : Sorted cfg root M t)
    (h : (pointPolicy cfg).insertAll n root ps t = some u) :
    ∃ M', Sorted cfg root M' u ∧ Settled cfg root (pts ++ ps) M' := by
  induction ps generalizing pts M t with
  | nil =>
    obtain rfl := Option.some.inj h
    exact ⟨M, ht, by rwa [List.append_nil]⟩
  | cons p ps ih =>
    rw [List.length_cons] at hB
    obtain ⟨hp, hps⟩ := List.forall_mem_cons.1 hps
    rw [Policy.insertAll] at h
    obtain ⟨v, hv, h⟩ := Option.bind_eq_some_iff.1 h
    obtain ⟨q, hq, hv'⟩ := ht.insert hg hp hM.contains hmin (by omega) hv
    have hpts' : ∀ x ∈ pts ++ [p], root.contains x.1 = true := by
      intro x hx
      rcases List.mem_append.1 hx with hx | hx
      · exact hpts x hx
      · rw [List.mem_singleton.1 hx]
        exact hp
    have := ih hpts' hps (by rw [Multiset.card_cons]; omega) (hM.concat hg hmin hpts hp hq) hv' h
    rwa [List.append_assoc, List.singleton_append] at this

theorem sorted_empty : Sorted cfg root 0 .empty := rfl

theorem settled_nil : Settled cfg root [] 0 :=
  ⟨fun q hq => absurd hq (Multiset.notMem_zero q), rfl, fun _ _ _ _ => rfl, fun _ _ _ _ _ _ => rfl⟩

/-! ### Two orders -/

variable (cfg) in
/-- In every cell of edge `min_cell_size` with two points, it is the same for both orders whether
the first point of the large cell around it lies in a child other than the first one. -/
def FirstsAgree (pts₁ pts₂ : List (Vec × Vec)) : Prop :=
  ∀ ρ κ, ρ.length = 16 → (geomOf cfg.rootGeometry (ρ ++ κ)).getSize = cfg.minCellSize →
    2 ≤ held cfg.rootGeometry pts₁ (ρ ++ κ) → ∀ i, i ≠ 0 →
    firstLies cfg.rootGeometry κ (i :: (ρ ++ κ)) pts₁ =
      firstLies cfg.rootGeometry κ (i :: (ρ ++ κ)) pts₂

variable {pts₁ pts₂ : List (Vec × Vec)}

theorem sameCounts_iff (hg : IsCube cfg.rootGeometry) (hmin : 0 < cfg.minCellSize)
    (hperm : pts₁.Perm pts₂) (hin : ∀ p ∈ pts₁, cfg.rootGeometry.contains p.1 = true)
    (h₁ : Settled cfg cfg.rootGeometry pts₁ M₁) (h₂ : Settled cfg cfg.rootGeometry pts₂ M₂) :
    SameCounts cfg cfg.rootGeometry M₁ M₂ ↔ FirstsAgree cfg pts₁ pts₂ := by
  have hheld : ∀ π, held cfg.rootGeometry pts₁ π = held cfg.rootGeometry pts₂ π := fun π =>
    hperm.countP_eq _
  have hin₂ : ∀ p ∈ pts₂, cfg.rootGeometry.contains p.1 = true := fun p hp =>
    hin p (hperm.mem_iff.2 hp)
  have hlt : ∀ i, cfg.rootGeometry.lo i < cfg.rootGeometry.hi i := fun i =>
    sub_pos.1 (by rw [hg.2 i]; exact hg.1)
  constructor
  · rintro ⟨-, hc⟩ ρ κ hρ hsize htwo i hi
    rw [← h₁.wide hg.1 hmin hin hsize.ge] at htwo
    have heq := hc (ρ ++ κ) i hsize.ge fun _ => htwo
    have hl₁ := h₁.last ρ κ i hi hρ hsize
    have hl₂ := h₂.last ρ κ i hi hρ hsize
    rw [hheld] at hl₁
    have hnat : (firstLies cfg.rootGeometry κ (i :: (ρ ++ κ)) pts₁).toNat =
        (firstLies cfg.rootGeometry κ (i :: (ρ ++ κ)) pts₂).toNat := by omega
    revert hnat
    cases firstLies cfg.rootGeometry κ (i :: (ρ ++ κ)) pts₁ <;>
      cases firstLies cfg.rootGeometry κ (i :: (ρ ++ κ)) pts₂ <;> decide
  · intro hf
    refine ⟨by rw [h₁.card, h₂.card, hperm.length_eq], fun π i hπ hfine => ?_⟩
    by_cases hlast : (geomOf cfg.rootGeometry π).getSize = cfg.minCellSize ∧ 16 ≤ π.length
    · obtain ⟨hsize, hlen⟩ := hlast
      have htwo : 2 ≤ held cfg.rootGeometry pts₁ π := by
        rw [← h₁.wide hg.1 hmin hin hπ]
        refine hfine ?_
        simp only [pointPolicy, decide_eq_true_eq]
        rw [hsize, bitsD]
        exact .inl (by linarith)
      have hρ : (π.take 16).length = 16 := by rw [List.length_take]; omega
      rw [← List.take_append_drop 16 π] at hsize htwo
      have hupper : ∀ j, j ≠ 0 → inside cfg.rootGeometry M₁ (j :: π) =
          inside cfg.rootGeometry M₂ (j :: π) := by
        intro j hj
        have hl₁ := h₁.last _ _ j hj hρ hsize
        have hl₂ := h₂.last _ _ j hj hρ hsize
        rw [hf _ _ hρ hsize htwo j hj, hheld] at hl₁
        rw [List.take_append_drop] at hl₁ hl₂
        omega
      by_cases hi : i = 0
      · -- what is not in the other children is in the first one
        subst hi
        have hwide : inside cfg.rootGeometry M₁ π = inside cfg.rootGeometry M₂ π := by
          rw [h₁.wide hg.1 hmin hin hπ, h₂.wide hg.1 hmin hin₂ hπ, hheld]
        rw [← sum_inside hlt, ← sum_inside hlt, ← Finset.add_sum_erase _ _ (Finset.mem_univ 0),
          ← Finset.add_sum_erase (f := fun j => inside cfg.rootGeometry M₂ (j :: π)) _
            (Finset.mem_univ 0),
          Finset.sum_congr rfl fun j hj => hupper j (Finset.ne_of_mem_erase hj)] at hwide
        exact Nat.add_right_cancel hwide
      · exact hupper i hi
    · rw [h₁.coarse π i hπ hlast, h₂.coarse π i hπ hlast, hheld]

/-- An empty tree has one node, without a mask and without a count. -/
theorem Holds.outline_empty (h : Holds cfg I σ V .empty) (π : Path) :
    (nodeAt cfg σ π).map outline = if π = [] then some (0, 0) else none := by
  rw [h.stores.nodeAt_eq]
  obtain ⟨⟨n, hn, hcount, hmask⟩, hdeep⟩ := h.opened
  rcases List.eq_nil_or_concat π with rfl | ⟨ξ, i, rfl⟩
  · rw [hn, if_pos rfl]
    exact congrArg some (Prod.ext hmask hcount)
  · rw [List.concat_eq_append, hdeep ξ i, if_neg (by simp)]
    rfl

/-- **Two orders of the same points lead to the same shape, if and only if the first points of the
largest cells that take a point at once agree.** -/
theorem sameOutline_iff {center : Vec} {size : ℚ} (hroot : cfg.rootGeometry = .ofCenter center size)
    (hmin : 0 < cfg.minCellSize) (hperm : pts₁.Perm pts₂)
    (hin : ∀ p ∈ pts₁, cfg.rootGeometry.contains p.1 = true)
    (hrun₁ : Prog.Exec Store.step (do newTree cfg; addPoints cfg pts₁) .init (.ret ()) σ₁)
    (hrun₂ : Prog.Exec Store.step (do newTree cfg; addPoints cfg pts₂) .init (.ret ()) σ₂) :
    SameOutline cfg σ₁ σ₂ ↔ FirstsAgree cfg pts₁ pts₂ := by
  have hin₂ : ∀ p ∈ pts₂, cfg.rootGeometry.contains p.1 = true := fun p hp =>
    hin p (hperm.mem_iff.2 hp)
  have hb₁ : inBounds cfg pts₁ = pts₁ := List.filter_eq_self.2 hin
  have hb₂ : inBounds cfg pts₂ = pts₂ := List.filter_eq_self.2 hin₂
  obtain ⟨u₁, V₁, hu₁, hh₁, hw₁⟩ := Prog.wp_exec (wp_newTree_addPoints pts₁) hrun₁
  obtain ⟨u₂, V₂, hu₂, hh₂, hw₂⟩ := Prog.wp_exec (wp_newTree_addPoints pts₂) hrun₂
  rw [insertPoints, hb₁] at hu₁
  rw [insertPoints, hb₂] at hu₂
  rw [hb₁] at hw₁
  rw [hb₂] at hw₂
  by_cases hnil : pts₁ = []
  · -- without points there is nothing to disagree about
    subst hnil
    obtain rfl := List.nil_perm.1 hperm
    obtain rfl := Option.some.inj hu₁
    obtain rfl := Option.some.inj hu₂
    refine iff_of_true (fun π => ?_) fun ρ κ _ _ htwo => absurd htwo (by simp [held])
    rw [hh₁.outline_empty, hh₂.outline_empty]
  · have hne : ∀ {u : CellTree}, points u = pts₁.length → u ≠ .empty := by
      rintro u hu rfl
      exact hnil (List.eq_nil_of_length_eq_zero hu.symm)
    obtain ⟨p, hp⟩ := List.exists_mem_of_ne_nil _ hnil
    have hg : IsCube cfg.rootGeometry := isCube_of_mem_inBounds hroot (hb₁.symm ▸ hp)
    have hlt : ∀ i, cfg.rootGeometry.lo i < cfg.rootGeometry.hi i := fun i =>
      sub_pos.1 (by rw [hg.2 i]; exact hg.1)
    have hr₁ := hh₁.opened.rep (hne hw₁)
    have hr₂ := hh₂.opened.rep (hne (hw₂.trans hperm.length_eq.symm))
    have hB₁ := hh₁.bound
    have hB₂ := hh₂.bound
    rw [hw₁] at hB₁
    rw [hw₂] at hB₂
    obtain ⟨M₁, hs₁, hset₁⟩ := settled_insertAll hg hmin (by simp) hin (by simpa using hB₁)
      settled_nil sorted_empty hu₁
    obtain ⟨M₂, hs₂, hset₂⟩ := settled_insertAll hg hmin (by simp) hin₂ (by simpa using hB₂)
      settled_nil sorted_empty hu₂
    rw [List.nil_append] at hset₁ hset₂
    rw [← sameCounts_iff hg hmin hperm hin hset₁ hset₂, SameOutline, hh₁.stores.nodeAt_eq,
      hh₂.stores.nodeAt_eq]
    constructor
    · intro h
      refine Alike.sameCounts hlt hset₁.contains hset₂.contains hs₁ hs₂
        (hr₁.alike hr₂ hh₁.shaped hh₂.shaped fun ρ => ?_)
      rw [List.append_nil]
      exact h ρ
    · intro h π
      have := (hs₁.alike hlt hset₁.contains hset₂.contains hs₂ h).outline_eq hr₁ hr₂ hh₁.shaped
        hh₂.shaped π
      rwa [List.append_nil] at this

/-- A tree whose root is as large as a cell that takes a point at once can be. -/
def Config.large : Config :=
  { Config.sample with rootGeometry := .ofCenter (fun _ => 32768) 65536 }

/-- Two points in one cell of edge 1, once with the upper one first. -/
def cornerPair : List (Vec × Vec) := [(fun _ => 3 / 4, fun _ => 0), (fun _ => 1 / 4, fun _ => 0)]

theorem cornerPair_inside : ∀ p ∈ cornerPair, Config.large.rootGeometry.contains p.1 = true := by
  decide +kernel

/-- In one order the cell around the two points has two children, in the other order it has one. -/
theorem exists_cornerPair_runs : ∃ σ₁ σ₂,
    Prog.Exec Store.step (do newTree .large; addPoints .large cornerPair) .init (.ret ()) σ₁ ∧
    Prog.Exec Store.step (do newTree .large; addPoints .large cornerPair.reverse) .init (.ret ())
      σ₂ ∧
    (nodeAt .large σ₁ (List.replicate 16 0)).map outline = some (1, 2) ∧
    (nodeAt .large σ₂ (List.replicate 16 0)).map outline = some (129, 2) := by
  obtain ⟨⟨⟩, σ₁, hrun₁, h₁⟩ := Prog.exists_exec (h := Store.step) (c := Choice.plain)
    (f := fun x => (nodeAt .large x.2 (List.replicate 16 0)).map outline == some (1, 2))
    (p := do newTree .large; addPoints .large cornerPair) (s := .init) (by decide +kernel)
  obtain ⟨⟨⟩, σ₂, hrun₂, h₂⟩ := Prog.exists_exec (h := Store.step) (c := Choice.plain)
    (f := fun x => (nodeAt .large x.2 (List.replicate 16 0)).map outline == some (129, 2))
    (p := do newTree .large; addPoints .large cornerPair.reverse) (s := .init) (by decide +kernel)
  exact ⟨σ₁, σ₂, hrun₁, hrun₂, beq_iff_eq.1 h₁, beq_iff_eq.1 h₂⟩

theorem sameOutline_iff_pair : ∃ σ₁ σ₂,
    Prog.Exec Store.step (do newTree .large; addPoints .large cornerPair) .init (.ret ()) σ₁ ∧
    Prog.Exec Store.step (do newTree .large; addPoints .large cornerPair.reverse) .init (.ret ())
      σ₂ ∧ (SameOutline .large σ₁ σ₂ ↔ FirstsAgree .large cornerPair cornerPair.reverse) := by
  obtain ⟨σ₁, σ₂, hrun₁, hrun₂, -⟩ := exists_cornerPair_runs
  exact ⟨σ₁, σ₂, hrun₁, hrun₂, sameOutline_iff rfl (by decide +kernel)
    (List.reverse_perm cornerPair).symm cornerPair_inside hrun₁ hrun₂⟩

/-- The point that comes first is found in the first child of the cell, also when it lies in the
last one, so the two orders lead to different trees. -/
theorem sameOutline_swap : ∃ σ₁ σ₂, cornerPair.Perm cornerPair.reverse ∧
    (∀ p ∈ cornerPair, Config.large.rootGeometry.contains p.1 = true) ∧
    Prog.Exec Store.step (do newTree .large; addPoints .large cornerPair) .init (.ret ()) σ₁ ∧
    Prog.Exec Store.step (do newTree .large; addPoints .large cornerPair.reverse) .init (.ret ())
      σ₂ ∧ ¬ SameOutline .large σ₁ σ₂ := by
  obtain ⟨σ₁, σ₂, hrun₁, hrun₂, h₁, h₂⟩ := exists_cornerPair_runs
  refine ⟨σ₁, σ₂, (List.reverse_perm _).symm, cornerPair_inside, hrun₁, hrun₂, fun h => ?_⟩
  have := h (List.replicate 16 0)
  rw [h₁, h₂] at this
  revert this
  decide

end MegaTree
