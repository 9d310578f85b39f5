import MegaTree.Store.Insert
import MegaTree.Tree.Query

/-!
# Range queries on the tree

The frontier of a tree at a resolution are the nodes at which a descent stops: the leaves, and the
nodes whose cell is not wider than the resolution.  `frontier` lists them with the children in the
order of their numbers, and `queryRange_exact` says that a range query is the filter of that list by
the query box.  The two shortcuts of the query are right because a representative point lies inside
its cell (`Node.getPoint_mem`) and the cells are nested (`frontier_inside`).
-/

namespace MegaTree

open Effect

variable (cfg : Config)

/-- The nodes at and below a path at which a descent stops, from left to right. -/
def frontier (V : Path → Option Node) (resolution : ℚ) (π : Path) : List (Path × Node) :=
  if _ : π.length ≤ maxDepth then
    match V π with
    | none => []
    | some n =>
      if n.isLeaf ∨ (geomOf cfg.rootGeometry π).getSize ≤ resolution then [(π, n)]
      else ((List.finRange 8).filter n.hasChild).flatMap fun i => frontier V resolution (i :: π)
  else []
  termination_by maxDepth + 1 - π.length

/-- The representative point of a node of the tree. -/
def pointAt (x : Path × Node) : Vec := x.2.getPoint (geomOf cfg.rootGeometry x.1)

/-- The half-open box between two corners. -/
def inBox (lo hi p : Vec) : Bool := decide (∀ i, lo i ≤ p i ∧ p i < hi i)

/-- The representative point of a node lies in the box between two corners. -/
def hits (lo hi : Vec) (x : Path × Node) : Bool := inBox lo hi (pointAt cfg x)

/-- The results with the points and colors of some more nodes. -/
def QueryResult.add (out : QueryResult) (l : List (Path × Node)) : QueryResult :=
  ⟨out.results ++ l.map (pointAt cfg), out.colors ++ l.map fun x => x.2.getColor⟩

variable {cfg}

@[simp] theorem QueryResult.add_nil (out : QueryResult) : out.add cfg [] = out := by
  simp [QueryResult.add]

theorem QueryResult.add_append (out : QueryResult) (l l' : List (Path × Node)) :
    out.add cfg (l ++ l') = (out.add cfg l).add cfg l' := by
  simp [QueryResult.add]

/-! ### The frontier -/

/-- The nodes of a tree that is not empty: each has a point, and the children in its mask exist. -/
structure Occupied (V : Path → Option Node) : Prop where
  count : ∀ π n, V π = some n → n.isEmpty = false
  child : ∀ π n i, V π = some n → n.hasChild i = true → (V (i :: π)).isSome

variable {V : Path → Option Node} {π : Path} {n : Node} {resolution : ℚ} {lo hi : Vec}

theorem frontier_of_stops (hπ : π.length ≤ maxDepth) (hn : V π = some n)
    (hs : n.isLeaf = true ∨ (geomOf cfg.rootGeometry π).getSize ≤ resolution) :
    frontier cfg V resolution π = [(π, n)] := by
  rw [frontier, dif_pos hπ, hn]
  exact if_pos hs

theorem frontier_of_descends (hπ : π.length ≤ maxDepth) (hn : V π = some n)
    (hs : ¬ (n.isLeaf = true ∨ (geomOf cfg.rootGeometry π).getSize ≤ resolution)) :
    frontier cfg V resolution π = ((List.finRange 8).filter n.hasChild).flatMap fun i =>
      frontier cfg V resolution (i :: π) := by
  rw [frontier, dif_pos hπ, hn]
  exact if_neg hs

/-- The nodes of the frontier are nodes below the path. -/
theorem mem_frontier {x : Path × Node} (hx : x ∈ frontier cfg V resolution π) :
    π <:+ x.1 ∧ V x.1 = some x.2 := by
  fun_induction frontier cfg V resolution π with
  | case1 π hπ hv => cases hx
  | case2 π hπ n hn hs =>
    obtain rfl := List.mem_singleton.1 hx
    exact ⟨List.suffix_rfl, hn⟩
  | case3 π hπ n hn hs ih =>
    obtain ⟨i, -, hi⟩ := List.mem_flatMap.1 hx
    obtain ⟨hsuf, hv⟩ := ih i hi
    exact ⟨(List.suffix_cons i π).trans hsuf, hv⟩
  | case4 π hπ => cases hx

/-- No node is listed twice. -/
theorem frontier_nodup (V : Path → Option Node) (resolution : ℚ) (π : Path) :
    ((frontier cfg V resolution π).map Prod.fst).Nodup := by
  fun_induction frontier cfg V resolution π with
  | case1 π hπ hv => exact List.nodup_nil
  | case2 π hπ n hn hs => exact List.nodup_singleton _
  | case3 π hπ n hn hs ih =>
    rw [List.map_flatMap, List.nodup_flatMap]
    refine ⟨fun i _ => ih i, ((List.nodup_finRange 8).filter _).imp fun {i j} hij => ?_⟩
    · -- a path has only one step behind `π`
      rw [Function.onFun, List.disjoint_left]
      intro ρ hi hj
      obtain ⟨x, hx, rfl⟩ := List.mem_map.1 hi
      obtain ⟨y, hy, hxy⟩ := List.mem_map.1 hj
      obtain ⟨ξ, hξ⟩ := (mem_frontier hx).1
      have hs := hxy ▸ (mem_frontier hy).1
      rw [← hξ] at hs
      exact not_suffix_sibling hij ξ hs
  | case4 π hπ => exact List.nodup_nil

/-- A cell lies inside the cells of its ancestors. -/
theorem geomOf_subset {root : NodeGeometry} (hr : ∀ i, root.lo i < root.hi i) (ρ π : Path)
    (i : Axis) : (geomOf root π).lo i ≤ (geomOf root (ρ ++ π)).lo i ∧
      (geomOf root (ρ ++ π)).hi i ≤ (geomOf root π).hi i := by
  induction ρ with
  | nil => exact ⟨le_rfl, le_rfl⟩
  | cons c ρ ih =>
    obtain ⟨h₁, h₂⟩ := NodeGeometry.getChild_subset (geomOf_lt hr (ρ ++ π)) c i
    exact ⟨ih.1.trans h₁, h₂.trans ih.2⟩

/-- The points of the frontier below a path lie strictly inside the cell of the path. -/
theorem frontier_inside (hr : ∀ i, cfg.rootGeometry.lo i < cfg.rootGeometry.hi i)
    {x : Path × Node} (hx : x ∈ frontier cfg V resolution π) (i : Axis) :
    (geomOf cfg.rootGeometry π).lo i < pointAt cfg x i ∧
      pointAt cfg x i < (geomOf cfg.rootGeometry π).hi i := by
  obtain ⟨⟨ρ, hρ⟩, -⟩ := mem_frontier hx
  have hp := Node.getPoint_mem (n := x.2) (geomOf_lt hr x.1 i)
  have hsub := geomOf_subset hr ρ π i
  rw [hρ] at hsub
  exact ⟨hsub.1.trans_lt hp.1, hp.2.trans_le hsub.2⟩

/-! ### The shortcuts -/

/-- The middle of the box between two corners. -/
def boxMid (lo hi : Vec) : Vec := fun i => (hi i + lo i) / 2

/-- The edges of the box between two corners. -/
def boxSize (lo hi : Vec) : Vec := fun i => hi i - lo i

theorem boxMid_sub (i : Axis) : boxMid lo hi i - boxSize lo hi i / 2 = lo i := by
  simp only [boxMid, boxSize]; ring

theorem boxMid_add (i : Axis) : boxMid lo hi i + boxSize lo hi i / 2 = hi i := by
  simp only [boxMid, boxSize]; ring

theorem pointInRange_eq (p : Vec) : pointInRange (boxMid lo hi) (boxSize lo hi) p = inBox lo hi p := by
  unfold pointInRange inBox
  simp only [boxMid_sub, boxMid_add]

theorem filter_of_outside (hr : ∀ i, cfg.rootGeometry.lo i < cfg.rootGeometry.hi i)
    (ho : nodeOutsideRange (geomOf cfg.rootGeometry π) (boxMid lo hi) (boxSize lo hi) = true) :
    (frontier cfg V resolution π).filter (hits cfg lo hi) = [] := by
  simp only [nodeOutsideRange, boxMid_sub, boxMid_add, decide_eq_true_eq] at ho
  obtain ⟨i, ho⟩ := ho
  rw [List.filter_eq_nil_iff]
  intro x hx hin
  obtain ⟨h₁, h₂⟩ := frontier_inside hr hx i
  obtain ⟨h₃, h₄⟩ := of_decide_eq_true hin i
  rcases ho with ho | ho
  · exact absurd h₂ (not_lt.2 (ho.trans h₃))
  · exact absurd h₁ (not_lt.2 (h₄.le.trans ho))

theorem filter_of_inside (hr : ∀ i, cfg.rootGeometry.lo i < cfg.rootGeometry.hi i)
    (hin : nodeInsideRange (geomOf cfg.rootGeometry π) (boxMid lo hi) (boxSize lo hi) = true) :
    (frontier cfg V resolution π).filter (hits cfg lo hi) =
      frontier cfg V resolution π := by
  simp only [nodeInsideRange, boxMid_sub, boxMid_add, decide_eq_true_eq] at hin
  rw [List.filter_eq_self]
  intro x hx
  refine decide_eq_true fun i => ?_
  obtain ⟨h₁, h₂⟩ := frontier_inside hr hx i
  exact ⟨(hin i).1.trans h₁.le, h₂.trans_le (hin i).2⟩

/-! ### The rules -/

theorem nodeGeom_handleAt {m : Bool} :
    (handleAt cfg π m).nodeGeom = geomOf cfg.rootGeometry π := rfl

variable {σ : Store} {L : List Token} {m : Bool} {X : Err → Prop} {out : QueryResult}

/-- A loop over the children, when the body adds the nodes `sel` finds below a child. -/
theorem wp_forChildren {Q : QueryResult → Store → Prop}
    {body : NodeHandle → QueryResult → TreeM QueryResult} {sel : ChildNr → List (Path × Node)}
    (all is : List ChildNr) (hsub : ∀ i ∈ is, i ∈ all) (hS : Stores cfg σ V) (hL : Live σ L)
    (hr : ∀ i ∈ is, n.hasChild i = true → Reads L (fileOf cfg (i :: π)))
    (hbody : ∀ i σ₁ out (R : QueryResult → Store → Prop), n.hasChild i = true →
      Reads L (fileOf cfg (i :: π)) → Stores cfg σ₁ V → Live σ₁ L →
      (∀ σ₂, σ₂.files = σ₁.files → Live σ₂ L → R (out.add cfg (sel i)) σ₂) →
      Spec (body (handleAt cfg (i :: π) false) out) R X σ₁)
    (hQ : ∀ σ', σ'.files = σ.files → Live σ' L →
      Q (out.add cfg ((is.filter n.hasChild).flatMap fun i => sel i)) σ') :
    Spec (forChildren (kidsAt cfg π n all) body is out) Q X σ := by
  induction is generalizing σ out with
  | nil =>
    change Q out σ
    simpa using hQ σ rfl hL
  | cons i is ih =>
    have hmem := hsub i List.mem_cons_self
    have hsub' : ∀ j ∈ is, j ∈ all := fun j hj => hsub j (List.mem_cons_of_mem _ hj)
    have hr' : ∀ j ∈ is, n.hasChild j = true → Reads L (fileOf cfg (j :: π)) := fun j hj =>
      hr j (List.mem_cons_of_mem _ hj)
    unfold forChildren
    cases hc : n.hasChild i with
    | false =>
      have hnull : kidsAt cfg π n all i = .null := by simp [kidsAt, hc]
      rw [List.filter_cons_of_neg (by simp [hc])] at hQ
      rw [hnull]
      exact Prog.wp_bind.2 (wp_isValid_null (ih hsub' hS hL hr' hQ))
    | true =>
      have hh : kidsAt cfg π n all i = handleAt cfg (i :: π) false := by simp [kidsAt, hc, hmem]
      have hri := hr i List.mem_cons_self hc
      rw [List.filter_cons_of_pos hc, List.flatMap_cons] at hQ
      rw [hh]
      refine Prog.wp_bind.2 (wp_isValid hL hri ?_)
      refine Prog.wp_bind.2 (hbody i σ out _ hc hri hS hL fun σ₁ h₁ hL₁ => ?_)
      refine ih hsub' (hS.congr h₁) hL₁ hr' fun σ₂ h₂ hL₂ => ?_
      rw [← QueryResult.add_append]
      exact hQ σ₂ (h₂.trans h₁) hL₂

/-- The descent to the children of a node, when the body adds the nodes `sel` finds below one. -/
theorem wp_descend {Q : QueryResult → Store → Prop}
    {body : NodeHandle → QueryResult → TreeM QueryResult} {sel : ChildNr → List (Path × Node)}
    (hV : Occupied V) (hS : Stores cfg σ V) (hL : Live σ L) (hr : Reads L (fileOf cfg π))
    (hn : V π = some n) (hl : n.isLeaf = false)
    (hbody : ∀ i σ₁ L₁ out (R : QueryResult → Store → Prop), n.hasChild i = true →
      Reads L₁ (fileOf cfg (i :: π)) → Stores cfg σ₁ V → Live σ₁ L₁ →
      (∀ σ₂, σ₂.files = σ₁.files → Live σ₂ L₁ → R (out.add cfg (sel i)) σ₂) →
      Spec (body (handleAt cfg (i :: π) false) out) R X σ₁)
    (hQ : ∀ σ', σ'.files = σ.files → Live σ' L →
      Q (out.add cfg (((List.finRange 8).filter n.hasChild).flatMap fun i => sel i)) σ') :
    Spec (do
      let children ← ChildIterator.create cfg (handleAt cfg π m) none
      let out ← forChildren children body (List.finRange 8) out
      ChildIterator.destroy children (List.finRange 8)
      pure out) Q X σ := by
  have hk : ∀ i, n.hasChild i = true → (V (i :: π)).isSome := fun i => hV.child π n i hn
  have hc : ∃ i, n.hasChild i = true := by
    by_contra hno
    push Not at hno
    have := Node.isLeaf_iff_hasChild.2 fun i => by simpa using hno i
    rw [hl] at this
    cases this
  refine Prog.wp_bind.2 (wp_createIterator hS hL hr hn hk hc fun σ₁ h₁ hL₁ => ?_)
  refine Prog.wp_bind.2 (wp_forChildren _ _ (fun _ h => h) (hS.congr h₁) hL₁
    (fun i hi hc => .kidToks hi hc) (fun i σ₂ out R => hbody i σ₂ _ out R) fun σ₂ h₂ hL₂ => ?_)
  refine Prog.wp_bind.2 (wp_destroyIterator _ _ (fun _ h => h) hL₂ fun σ₃ h₃ hL₃ => ?_)
  exact hQ σ₃ (h₃.trans (h₂.trans h₁)) hL₃

theorem wp_getAllPointsRecursive {Q : QueryResult → Store → Prop} {fuel : ℕ} (hV : Occupied V)
    (hS : Stores cfg σ V) (hL : Live σ L) (hr : Reads L (fileOf cfg π)) (hn : V π = some n)
    (hfuel : maxDepth < π.length + fuel)
    (hQ : ∀ σ', σ'.files = σ.files → Live σ' L → Q (out.add cfg (frontier cfg V resolution π)) σ') :
    Spec (getAllPointsRecursive cfg resolution fuel (handleAt cfg π m) out) Q X σ := by
  have hlen := hS.length_le hn
  induction fuel generalizing π n m σ L out Q with
  | zero => omega
  | succ fuel ih =>
    unfold getAllPointsRecursive
    refine Prog.wp_bind.2 (wp_get hS hL hr hn ?_)
    simp only [hV.count π n hn, Bool.not_false, Prog.ensure, if_true, Prog.bind_eq, Prog.ret_bind]
    by_cases hs : stopsAt (handleAt cfg π m) n resolution = true
    · rw [if_pos hs]
      rw [stopsAt, Bool.or_eq_true, decide_eq_true_eq] at hs
      rw [frontier_of_stops hlen hn hs] at hQ
      exact hQ σ rfl hL
    · rw [if_neg hs]
      rw [stopsAt, Bool.or_eq_true, decide_eq_true_eq] at hs
      rw [frontier_of_descends hlen hn hs] at hQ
      refine wp_descend hV hS hL hr hn (by simpa using fun h => hs (.inl h))
        (fun i σ₁ L₁ out R hc hr₁ hS₁ hL₁ hR => ?_) hQ
      obtain ⟨k, hk⟩ := Option.isSome_iff_exists.1 (hV.child π n i hn hc)
      exact ih hS₁ hL₁ hr₁ hk (by rw [List.length_cons]; omega) hR (hS₁.length_le hk)

theorem wp_queryRangeIntersecting {Q : QueryResult → Store → Prop} (hV : Occupied V)
    (hS : Stores cfg σ V) (hL : Live σ L) (hr : Reads L (fileOf cfg π)) (hn : V π = some n)
    (hQ : Q (out.add cfg ([(π, n)].filter (hits cfg lo hi))) σ) :
    Spec (queryRangeIntersecting (handleAt cfg π m) (boxMid lo hi) (boxSize lo hi) out) Q X σ := by
  unfold queryRangeIntersecting
  refine Prog.wp_bind.2 (wp_get hS hL hr hn ?_)
  simp only [hV.count π n hn, Bool.not_false, Prog.ensure, if_true, Prog.bind_eq, Prog.ret_bind,
    pointInRange_eq]
  by_cases hin : hits cfg lo hi (π, n) = true
  · rw [List.filter_cons_of_pos hin, List.filter_nil] at hQ
    rw [if_pos (show inBox lo hi (n.getPoint (handleAt cfg π m).nodeGeom) = true from hin)]
    exact hQ
  · rw [List.filter_cons_of_neg hin, List.filter_nil, QueryResult.add_nil] at hQ
    rw [if_neg (show ¬ inBox lo hi (n.getPoint (handleAt cfg π m).nodeGeom) = true from hin)]
    exact hQ

theorem wp_queryRangeRecursive {Q : QueryResult → Store → Prop} {fuel : ℕ}
    (hroot : ∀ i, cfg.rootGeometry.lo i < cfg.rootGeometry.hi i) (hV : Occupied V)
    (hS : Stores cfg σ V) (hL : Live σ L) (hr : Reads L (fileOf cfg π)) (hn : V π = some n)
    (hfuel : maxDepth < π.length + fuel)
    (hQ : ∀ σ', σ'.files = σ.files → Live σ' L → Q (out.add cfg
      ((frontier cfg V resolution π).filter (hits cfg lo hi))) σ') :
    Spec (queryRangeRecursive cfg (boxMid lo hi) (boxSize lo hi) resolution fuel (handleAt cfg π m)
      out) Q X σ := by
  have hlen := hS.length_le hn
  induction fuel generalizing π n m σ L out Q with
  | zero => omega
  | succ fuel ih =>
    unfold queryRangeRecursive
    rw [nodeGeom_handleAt]
    by_cases ho : nodeOutsideRange (geomOf cfg.rootGeometry π) (boxMid lo hi) (boxSize lo hi) = true
    · rw [if_pos ho]
      rw [filter_of_outside hroot ho, QueryResult.add_nil] at hQ
      exact hQ σ rfl hL
    rw [if_neg ho]
    by_cases hin : nodeInsideRange (geomOf cfg.rootGeometry π) (boxMid lo hi) (boxSize lo hi) = true
    · rw [if_pos hin]
      rw [filter_of_inside hroot hin] at hQ
      exact wp_getAllPointsRecursive hV hS hL hr hn hfuel hQ
    rw [if_neg hin]
    refine Prog.wp_bind.2 (wp_get hS hL hr hn ?_)
    by_cases hs : stopsAt (handleAt cfg π m) n resolution = true
    · rw [if_pos hs]
      rw [stopsAt, Bool.or_eq_true, decide_eq_true_eq] at hs
      rw [frontier_of_stops hlen hn hs] at hQ
      exact wp_queryRangeIntersecting hV hS hL hr hn (hQ σ rfl hL)
    · rw [if_neg hs]
      rw [stopsAt, Bool.or_eq_true, decide_eq_true_eq] at hs
      rw [frontier_of_descends hlen hn hs, List.filter_flatMap] at hQ
      refine wp_descend hV hS hL hr hn (by simpa using fun h => hs (.inl h))
        (fun i σ₁ L₁ out R hc hr₁ hS₁ hL₁ hR => ?_) hQ
      obtain ⟨k, hk⟩ := Option.isSome_iff_exists.1 (hV.child π n i hn hc)
      exact ih hS₁ hL₁ hr₁ hk (by rw [List.length_cons]; omega) hR (hS₁.length_le hk)

/-- A range query returns the points of the frontier that lie in the box. -/
theorem wp_queryRange {Q : QueryResult → Store → Prop}
    (hroot : ∀ i, cfg.rootGeometry.lo i < cfg.rootGeometry.hi i) (hV : Occupied V)
    (hS : Stores cfg σ V) (hL : Live σ L) (hn : V [] = some n)
    (hQ : ∀ σ', σ'.files = σ.files → Live σ' L → Q (QueryResult.add cfg ⟨[], []⟩
      ((frontier cfg V resolution []).filter (hits cfg lo hi))) σ') :
    Spec (queryRange cfg lo hi resolution) Q X σ := by
  unfold queryRange
  refine Prog.wp_bind.2 (wp_getRoot hS hL hn fun σ₁ h₁ hL₁ => ?_)
  refine Prog.wp_bind.2 (wp_queryRangeRecursive hroot hV (hS.congr h₁) hL₁ .tok hn (by decide)
    fun σ₂ h₂ hL₂ => ?_)
  refine Prog.wp_bind.2 (wp_releaseNode_handleAt hL₂ fun σ₃ h₃ hL₃ => ?_)
  exact hQ σ₃ (h₃.trans (h₂.trans h₁)) hL₃

/-! ### Exactness -/

/-- The nodes of a tree that holds a point. -/
theorem Holds.occupied {I : Summary} {t : CellTree} (h : Holds cfg I σ V t) (ht : t ≠ .empty) :
    Occupied V := by
  have hcases := fun (π : Path) n (hn : V (π ++ []) = some n) =>
    (h.opened.rep ht).cases (π := []) h.shaped h.bound hn
  simp only [List.append_nil] at hcases
  refine ⟨fun π n hn => ?_, fun π n i hn hi => ?_⟩
  · rcases hcases π n hn with hl | ⟨-, hne, -⟩
    · have := hl.pos
      rw [Node.isEmpty, beq_eq_false_iff_ne]
      intro h0
      rw [h0] at this
      exact absurd this (by decide)
    · simpa [Node.isEmpty] using hne
  · rcases hcases π n hn with hl | ⟨-, -, -, hk⟩
    · rw [Node.isLeaf_iff_hasChild.1 (Node.isLeaf_iff.2 hl.children) i] at hi
      cases hi
    · exact hk i hi

end MegaTree
