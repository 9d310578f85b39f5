import MegaTree.Store.AddPoint

/-!
# Sequences of insertions

`Holds cfg I σ V t` : no handle is live and the store holds the tree `t`.  `wp_addPoints` says that
`addPoints` computes `SpaceTree.Policy.insertAll` on the points inside the root cell.

`Summarised cfg V N` is what a tree of `N` points looks like: every interior node is the summary of
its children, and the leaves and the root have the right counts.  `newTree_addPoints` is the main
result: it holds after every sequence of insertions into a new tree.
-/

namespace MegaTree

open Effect SpaceTree

variable (cfg : Config)

/-- No handle is live, and the nodes of the store are those of the tree `t`. -/
structure Holds (I : Summary) (σ : Store) (V : Path → Option Node) (t : CellTree) : Prop where
  stores : Stores cfg σ V
  live : Live σ []
  opened : Opened I V [] t
  shaped : Shaped cfg cfg.rootGeometry t
  bound : points t < countBound

/-- The points inside the root cell; the others are not accepted. -/
def inBounds (pts : List (Vec × Vec)) : List (Vec × Vec) :=
  pts.filter fun p => cfg.rootGeometry.contains p.1

/-- The tree after some more points. -/
def insertPoints (pts : List (Vec × Vec)) (t : CellTree) : Option CellTree :=
  (pointPolicy cfg).insertAll maxDepth cfg.rootGeometry (inBounds cfg pts) t

/-- How an interior node of the plain algorithm is related to its children. -/
def summary : Summary := fun _ n ks => Node.copyFromChildNodes ks = .ok n

variable {cfg} {I : Summary} {σ : Store} {V : Path → Option Node} {t : CellTree} {X : Err → Prop}

theorem Holds.inserted {σ' : Store} {V' : Path → Option Node} {u : CellTree} {p : Vec × Vec}
    (h : Holds cfg I σ V t)
    (hu : (pointPolicy cfg).insert p maxDepth cfg.rootGeometry t = some u)
    (hB : points t + 1 < countBound) (hS : Stores cfg σ' V') (hL : Live σ' [])
    (hr : Opened I V' [] u) : Holds cfg I σ' V' u ∧ points u = points t + 1 := by
  have hw : points u = points t + 1 :=
    Policy.weight_insert pointCount_single pointCount_merge pointCount_push hB hu
  refine ⟨⟨hS, hL, hr, ?_, by rw [hw]; exact hB⟩, hw⟩
  exact h.shaped.insert keeps_pointPolicy fine_of_finest pointCount_push hB hu

theorem insertPoints_single {p : Vec × Vec} (hpt : cfg.rootGeometry.contains p.1 = true) :
    insertPoints cfg [p] t = (pointPolicy cfg).insert p maxDepth cfg.rootGeometry t := by
  have hin : inBounds cfg [p] = [p] := by simp [inBounds, hpt]
  rw [insertPoints, hin]
  simp only [Policy.insertAll]
  cases (pointPolicy cfg).insert p maxDepth cfg.rootGeometry t <;> rfl

theorem wp_addPoint {Q : Unit → Store → Prop} {p : Vec × Vec}
    (hI : ∀ π n ks, Node.copyFromChildNodes ks = .ok n → I π n ks) (h : Holds cfg I σ V t)
    (hX : insertPoints cfg [p] t = none → X .depthLimit)
    (hXz : countBound ≤ points t + (inBounds cfg [p]).length → X .divideByZero)
    (hQ : ∀ u V' σ', insertPoints cfg [p] t = some u → Holds cfg I σ' V' u →
      points u = points t + (inBounds cfg [p]).length → Q () σ') :
    Spec (addPoint cfg p.1 p.2) Q X σ := by
  unfold addPoint
  by_cases hpt : cfg.rootGeometry.contains p.1 = true
  · have hin : inBounds cfg [p] = [p] := by simp [inBounds, hpt]
    rw [hin] at hXz hQ
    rw [insertPoints_single hpt] at hX hQ
    rw [if_pos hpt]
    obtain ⟨n, hn, -⟩ := h.opened.node
    refine Prog.wp_bind.2 (wp_getRoot h.stores h.live hn fun σ₁ h₁ hL₁ => ?_)
    refine Prog.wp_bind.2 (wp_addPointRecursive hI (h.stores.congr h₁) hL₁ h.opened h.shaped h.bound
      hpt (by decide) hX hXz fun u V₂ σ₂ hu hB hS₂ hL₂ hr₂ _ => ?_)
    refine Prog.wp_bind.2 (wp_releaseNode_handleAt hL₂ fun σ₃ h₃ hL₃ => ?_)
    obtain ⟨hh, hw⟩ := h.inserted hu hB (hS₂.congr h₃) hL₃ (hr₂.opened (Policy.insert_ne_empty hu))
    exact hQ u V₂ σ₃ hu hh hw
  · have hin : inBounds cfg [p] = [] := by simp [inBounds, hpt]
    rw [if_neg hpt]
    refine hQ t V σ ?_ h (by rw [hin]; rfl)
    rw [insertPoints, hin]
    rfl

theorem insertPoints_cons (p : Vec × Vec) (pts : List (Vec × Vec)) :
    insertPoints cfg (p :: pts) t = (insertPoints cfg [p] t).bind (insertPoints cfg pts) := by
  have hin : inBounds cfg (p :: pts) = inBounds cfg [p] ++ inBounds cfg pts := by
    simp only [inBounds, ← List.filter_append, List.singleton_append]
  simp only [insertPoints, hin]
  exact Policy.insertAll_append _ _

theorem inBounds_cons_length (p : Vec × Vec) (pts : List (Vec × Vec)) :
    (inBounds cfg (p :: pts)).length = (inBounds cfg [p]).length + (inBounds cfg pts).length := by
  simp only [inBounds, ← List.length_append, ← List.filter_append, List.singleton_append]

/-- A sequence of insertions sorts the points inside the root cell into the tree.  It fails only
when the levels are used up or a count reaches `2 ^ 64`. -/
theorem wp_addPoints {Q : Unit → Store → Prop} {pts : List (Vec × Vec)}
    (hI : ∀ π n ks, Node.copyFromChildNodes ks = .ok n → I π n ks) (h : Holds cfg I σ V t)
    (hX : insertPoints cfg pts t = none → X .depthLimit)
    (hXz : countBound ≤ points t + (inBounds cfg pts).length → X .divideByZero)
    (hQ : ∀ u V' σ', insertPoints cfg pts t = some u → Holds cfg I σ' V' u →
      points u = points t + (inBounds cfg pts).length → Q () σ') :
    Spec (addPoints cfg pts) Q X σ := by
  induction pts generalizing σ V t with
  | nil => exact hQ t V σ rfl h rfl
  | cons p pts ih =>
    rw [insertPoints_cons] at hX hQ
    rw [inBounds_cons_length] at hXz hQ
    refine Prog.wp_bind.2 (wp_addPoint hI h ?_ ?_ fun u V₁ σ₁ hu h₁ hw => ?_)
    · intro hnone
      exact hX (by rw [hnone]; rfl)
    · intro hge
      exact hXz (by omega)
    · rw [hu, Option.bind_some] at hX hQ
      refine ih h₁ hX (fun hge => hXz (by omega)) fun u' V₂ σ₂ hu' h₂ hw₂ => ?_
      exact hQ u' V₂ σ₂ hu' h₂ (by omega)

theorem wp_newTree_holds {Q : Unit → Store → Prop}
    (hQ : ∀ V σ', Holds cfg I σ' V .empty → Q () σ') : Spec (newTree cfg) Q X .init := by
  refine wp_newTree fun stale σ' hS hL => hQ _ σ' ⟨hS, hL, ⟨⟨stale.reset, ?_, rfl, rfl⟩, ?_⟩,
    trivial, by decide⟩
  · exact Function.update_self ..
  · intro ρ i
    exact Function.update_of_ne (by simp) _ _

/-- What a sequence of insertions into a new tree leaves, when it ends. -/
theorem wp_newTree_addPoints (pts : List (Vec × Vec)) :
    Spec (do newTree cfg; addPoints cfg pts)
      (fun _ σ => ∃ u V, insertPoints cfg pts .empty = some u ∧ Holds cfg summary σ V u ∧
        points u = (inBounds cfg pts).length) (fun _ => True) .init := by
  refine Prog.wp_bind.2 (wp_newTree_holds (I := summary) fun V σ h => ?_)
  refine wp_addPoints (fun _ _ _ hok => hok) h (fun _ => trivial) (fun _ => trivial) ?_
  intro u V' σ' hu h' hw
  exact ⟨u, V', hu, h', hw.trans (Nat.zero_add _)⟩

/-! ### What the trees look like -/

variable (cfg) in
/-- The nodes `V` of a tree with `N` accepted points. -/
structure Summarised (V : Path → Option Node) (N : ℕ) : Prop where
  child : ∀ π n i, V π = some n → n.hasChild i = true → (V (i :: π)).isSome
  interior : ∀ π n, V π = some n → n.children ≠ 0 →
    Node.copyFromChildNodes (childrenOf V π n) = .ok n
  pos : ∀ π n, V π = some n → π = [] ∧ N = 0 ∨ 1 ≤ n.count.toNat
  leaf : ∀ π n, V π = some n → n.children = 0 →
    cfg.minCellSize ≤ (geomOf cfg.rootGeometry π).getSize → π = [] ∧ N = 0 ∨ n.count = 1
  root : ∃ n, V [] = some n ∧ n.count = .ofNat N

/-- Every node below a path belongs to a cell of the tree. -/
theorem Rep.cases {π : Path} (h : Rep I V π t) (hf : Shaped cfg (geomOf cfg.rootGeometry π) t)
    (hB : points t < countBound) {ρ : Path} {n : Node} (hn : V (ρ ++ π) = some n) :
    (LeafOk cfg (geomOf cfg.rootGeometry (ρ ++ π)) n) ∨
      (n.children ≠ 0 ∧ n.count ≠ 0 ∧ I (ρ ++ π) n (childrenOf V (ρ ++ π) n) ∧
        ∀ i, n.hasChild i = true → (V (i :: (ρ ++ π))).isSome) := by
  induction t generalizing π ρ with
  | empty => rw [h ρ] at hn; cases hn
  | leaf a =>
    obtain ⟨hv, hd⟩ := h
    rcases List.eq_nil_or_concat ρ with rfl | ⟨ξ, i, rfl⟩
    · rw [List.nil_append, hv] at hn
      obtain rfl := Option.some.inj hn
      exact .inl hf
    · rw [List.concat_eq_append, List.append_assoc, List.singleton_append, hd] at hn
      cases hn
  | branch kids ih =>
    obtain ⟨⟨n', hn', hk, hm, hI⟩, hkids⟩ := h
    rcases List.eq_nil_or_concat ρ with rfl | ⟨ξ, i, rfl⟩
    · rw [List.nil_append, hn'] at hn
      obtain rfl := Option.some.inj hn
      have hne : n'.count ≠ 0 := by
        rw [hk]
        exact ofNat_points_ne_zero hf (by simp) hB
      refine .inr ⟨fun h0 => ?_, hne, hI, fun i hi => ?_⟩
      · obtain ⟨-, ⟨i, hi⟩, -⟩ := hf
        have := Node.isLeaf_iff_hasChild.1 (Node.isLeaf_iff.2 h0) i
        rw [(hm i).2 hi] at this
        cases this
      · rcases (hkids i).node with ⟨he, -⟩ | ⟨c, -, hc, -⟩
        · exact absurd he ((hm i).1 hi)
        · rw [List.nil_append, hc]; rfl
    · rw [List.concat_eq_append, List.append_assoc, List.singleton_append] at hn ⊢
      exact ih i (hkids i) (hf.2.2 i) ((Policy.weight_kid_le _ kids i).trans_lt hB) hn

theorem Holds.summarised (h : Holds cfg summary σ V t) : Summarised cfg V (points t) := by
  have hroot : ∃ n, V [] = some n ∧ n.count = .ofNat (points t) := h.opened.node
  by_cases ht : t = .empty
  · -- the empty root is the only node
    subst ht
    obtain ⟨⟨n₀, hn₀, hc₀, hm₀⟩, hd⟩ := h.opened
    have only : ∀ π n, V π = some n → π = [] ∧ n = n₀ := by
      intro π n hn
      rcases List.eq_nil_or_concat π with rfl | ⟨ξ, i, rfl⟩
      · rw [hn₀] at hn
        exact ⟨rfl, (Option.some.inj hn).symm⟩
      · rw [List.concat_eq_append, hd ξ i] at hn
        cases hn
    refine ⟨?_, ?_, fun π n hn => .inl ⟨(only π n hn).1, rfl⟩,
      fun π n hn _ _ => .inl ⟨(only π n hn).1, rfl⟩, hroot⟩
    · intro π n i hn hi
      obtain ⟨rfl, rfl⟩ := only π n hn
      rw [Node.isLeaf_iff_hasChild.1 (Node.isLeaf_iff.2 hm₀) i] at hi
      cases hi
    · intro π n hn hc
      obtain ⟨rfl, rfl⟩ := only π n hn
      exact absurd hm₀ hc
  · have hcases := fun (π : Path) n (hn : V (π ++ []) = some n) =>
      (h.opened.rep ht).cases (π := []) h.shaped h.bound hn
    simp only [List.append_nil] at hcases
    refine ⟨fun π n i hn hi => ?_, fun π n hn hc => ?_, fun π n hn => .inr ?_,
      fun π n hn hc hs => .inr ?_, hroot⟩
    · rcases hcases π n hn with hl | ⟨-, -, -, hk⟩
      · rw [Node.isLeaf_iff_hasChild.1 (Node.isLeaf_iff.2 hl.children) i] at hi
        cases hi
      · exact hk i hi
    · rcases hcases π n hn with hl | ⟨-, -, hI, -⟩
      · exact absurd hl.children hc
      · exact hI
    · rcases hcases π n hn with hl | ⟨-, hne, -, -⟩
      · exact hl.pos
      · by_contra hlt
        exact hne (UInt64.toNat_inj.1 (by rw [UInt64.toNat_zero]; omega))
    · rcases hcases π n hn with hl | ⟨hne, -⟩
      · exact hl.one hs
      · exact absurd hc hne

/-- The levels suffice when the cells become smaller than `min_cell_size` on the way. -/
theorem insertPoints_isSome (pts : List (Vec × Vec)) (ht : Shaped cfg cfg.rootGeometry t)
    (hs : cfg.rootGeometry.getSize / 2 ^ maxDepth < cfg.minCellSize) :
    (insertPoints cfg pts t).isSome :=
  Policy.insertAll_isSome fine_of_finest
    (shallow_pointPolicy (π := []) (n := maxDepth) (by simpa using hs)) ht _

/-- **After every sequence of insertions into a new tree every interior node is the summary of its
children, and the counts of the leaves and the root are right.**  The sequence can only be cut short
by the depth limit, where 41 divisions do not lead below `min_cell_size`, or by a count of
`2 ^ 64` points. -/
theorem newTree_addPoints (cfg : Config) (pts : List (Vec × Vec)) :
    Spec (do newTree cfg; addPoints cfg pts)
      (fun _ σ => Summarised cfg (nodeAt cfg σ) (inBounds cfg pts).length ∧
        ∀ f s n, σ.lookup f s = some n → ∃ π, nodeAt cfg σ π = some n)
      (fun e => e = .depthLimit ∧ cfg.minCellSize ≤ cfg.rootGeometry.getSize / 2 ^ maxDepth ∨
        e = .divideByZero ∧ 2 ^ 64 ≤ (inBounds cfg pts).length) .init := by
  refine Prog.wp_bind.2 (wp_newTree_holds (I := summary) fun V σ h => ?_)
  refine wp_addPoints (fun _ _ _ hok => hok) h ?_ ?_ fun u V' σ' _ h' hw => ?_
  · intro hnone
    refine .inl ⟨rfl, ?_⟩
    by_contra hlt
    have := insertPoints_isSome pts h.shaped (not_le.1 hlt)
    rw [hnone] at this
    cases this
  · intro hge
    rw [show points .empty = 0 from rfl, Nat.zero_add] at hge
    exact .inr ⟨rfl, hge⟩
  · rw [show points .empty = 0 from rfl, Nat.zero_add] at hw
    refine ⟨?_, fun f s n hn => h'.stores.exists_path hn⟩
    rw [h'.stores.nodeAt_eq, ← hw]
    exact h'.summarised

/-- A point outside the root cell leaves a leaf without a point: the root of the empty tree. -/
theorem newTree_addPoint_outside :
    ((do newTree .sample; addPoints .sample [(fun _ => 9, fun _ => 0)] : TreeM Unit).run Store.step
      Choice.plain Store.init).toOption.bind (fun x => nodeAt .sample x.2 []) = some Node.new ∧
    Node.new.children = 0 ∧ Node.new.count ≠ 1 ∧
    Config.sample.minCellSize ≤ (geomOf Config.sample.rootGeometry []).getSize := by
  decide +kernel

end MegaTree
