import MegaTree.Store.Represents

/-!
# Inserting one point

The two middle steps that both insertion algorithms share (`wp_splitLeaf`, `wp_openChild`), and the
recursion of the plain algorithm: `wp_addPointRecursive` says that it computes
`SpaceTree.Policy.insert` below its node, that it fails only where the insertion has no levels left
or a count reaches `2 ^ 64`, and that every interior node on its way holds what
`copyFromChildNodes` computes.
-/

namespace MegaTree

open Effect SpaceTree

variable {cfg : Config} {I J : Summary} {π : Path} {c : ChildNr} {m : Bool} {σ : Store}
  {V : Path → Option Node} {L : List Token} {t : CellTree} {kids : ChildNr → CellTree} {k : Count}
  {X : Err → Prop}

/-! ### Occupied cells -/

/-- The shape of a tree below a cell. -/
abbrev Shaped (cfg : Config) (g : NodeGeometry) (t : CellTree) : Prop :=
  (pointPolicy cfg).Fits (LeafOk cfg) g t

theorem points_pos {g : NodeGeometry} (hf : Shaped cfg g t) (ht : t ≠ .empty) : 0 < points t := by
  induction t generalizing g with
  | empty => exact absurd rfl ht
  | leaf a => exact hf.pos
  | branch kids ih =>
    obtain ⟨-, ⟨i, hi⟩, hk⟩ := hf
    exact (ih i (hk i) hi).trans_le (Policy.weight_kid_le _ kids i)

theorem ofNat_points_ne_zero {g : NodeGeometry} (hf : Shaped cfg g t) (ht : t ≠ .empty)
    (hB : points t < countBound) : UInt64.ofNat (points t) ≠ 0 := by
  intro h
  have h := congrArg UInt64.toNat h
  rw [UInt64.toNat_ofNat', Nat.mod_eq_of_lt hB] at h
  exact absurd h (Nat.ne_of_gt (points_pos hf ht))

/-- An open node is empty exactly when its cell is. -/
theorem Opened.isEmpty {g : NodeGeometry} {n : Node} (h : Opened I V π t) (hf : Shaped cfg g t)
    (hB : points t < countBound) (hn : V π = some n) : n.isEmpty = true ↔ t = .empty := by
  obtain ⟨n', hn', hk⟩ := h.node
  rw [hn] at hn'
  obtain rfl := Option.some.inj hn'
  rw [Node.isEmpty_iff, hk]
  constructor
  · intro h0
    by_contra ht
    exact ofNat_points_ne_zero hf ht hB h0
  · rintro rfl
    rfl

/-- The nodes of a divided cell whose children are all closed. -/
theorem Divided.isSome (h : Divided I J V π kids k none) {n : Node} (hn : V π = some n)
    (i : ChildNr) (hi : n.hasChild i = true) : (V (i :: π)).isSome := by
  obtain ⟨⟨n', hn', -, hm, -⟩, hk⟩ := h
  rw [hn] at hn'
  obtain rfl := Option.some.inj hn'
  have hne : kids i ≠ .empty := by simpa using (hm i).1 hi
  have hrep : Rep I V (i :: π) (kids i) := by simpa using hk i
  rcases hrep.node with ⟨he, -⟩ | ⟨k', -, hk', -⟩
  · exact absurd he hne
  · rw [hk']; rfl

/-! ### The middle steps -/

theorem wp_splitLeaf {Q : NodeHandle → Store → Prop} {g : NodeGeometry} (hJ : Tolerant I J)
    (hS : Stores cfg σ V)
    (hL : Live σ (tok cfg π m :: L)) (ht : Opened I V π t) (hf : Shaped cfg g t)
    (hB : points t < countBound) (hX : π.length = maxDepth → X .depthLimit)
    (hQ : ∀ m' V' σ', Stores cfg σ' V' → Live σ' (tok cfg π m' :: L) →
      Divided I J V' π ((pointPolicy cfg).split t) (.ofNat (points t)) none → Frame V V' π →
      Q (handleAt cfg π m') σ') :
    Spec (splitLeaf cfg (handleAt cfg π m)) Q X σ := by
  obtain ⟨n, hn, hcount⟩ := ht.node
  have hempty := ht.isEmpty hf hB hn
  unfold splitLeaf
  refine Prog.wp_bind.2 (wp_get hS hL .tok hn ?_)
  cases t with
  | empty =>
    rw [if_neg (by simp [hempty.2 rfl])]
    obtain ⟨⟨n', hn', -, hc⟩, hd⟩ := ht
    rw [hn] at hn'
    obtain rfl := Option.some.inj hn'
    have hnoc := Node.isLeaf_iff_hasChild.1 (Node.isLeaf_iff.2 hc)
    have hnone : childrenOf V π n = fun _ => none := by funext i; simp [childrenOf, hnoc]
    refine hQ m V σ hS hL ⟨⟨n, hn, hcount, fun i => ?_, ?_⟩, fun i => ?_⟩ .refl
    · simp [hnoc, Policy.split]
    · rw [hnone]
      exact hJ.empty π n hcount
    · simpa [Policy.split, Rep] using fun ρ => hd ρ i
  | branch kids =>
    obtain ⟨⟨n', hn', -, hm, hI⟩, hk⟩ := ht
    rw [hn] at hn'
    obtain rfl := Option.some.inj hn'
    have hleaf : n.isLeaf = false := by
      obtain ⟨-, ⟨i, hi⟩, -⟩ := hf
      by_contra hl
      have := Node.isLeaf_iff_hasChild.1 (by simpa using hl) i
      rw [(hm i).2 hi] at this
      cases this
    rw [if_neg (by simp [hleaf])]
    refine hQ m V σ hS hL ⟨⟨n, hn, hcount, fun i => ?_, hJ.closed _ _ _ hI⟩, fun i => ?_⟩ .refl
    · simpa [Policy.split] using hm i
    · simpa [Policy.split] using hk i
  | leaf a =>
    obtain ⟨hv, hd⟩ := ht
    rw [hn] at hv
    obtain rfl := Option.some.inj hv
    have hleaf : n.isLeaf = true := Node.isLeaf_iff.2 hf.children
    have hne : n.isEmpty = false := by
      by_contra he
      exact absurd (hempty.1 (by simpa using he)) (by simp)
    have hnoc := Node.isLeaf_iff_hasChild.1 hleaf
    rw [if_pos (by simp [hne, hleaf])]
    -- the point of the leaf moves into the new child `o`
    set o := n.getChildForNodePoint with ho
    refine Prog.wp_bind.2 (wp_createChildNode hS hL hn (hnoc o) (hd [] o) hX
      fun hlt stale σ₁ hS₁ hL₁ => ?_)
    have hno : o :: π ≠ π := List.cons_ne_self o π
    have hv₁ : Function.update (Function.update V π (some (n.setChild o))) (o :: π)
        (some stale.reset) π = some (n.setChild o) := by
      rw [Function.update_of_ne hno.symm, Function.update_self]
    have hw : ∀ i, upper o i = decide (bits2 ≤ (n.setChild o).point i) := fun i => by
      rw [ho, Node.getChildForNodePoint, upper_childOf]; rfl
    have hcopy : (n.setChild o).copyToChildNode o stale.reset =
        .ok ⟨n.count, fun i => n.point i <<< 1, n.color, 0⟩ := by
      rw [Node.copyToChildNode, if_pos hw]; rfl
    refine Prog.wp_bind.2 (wp_get hS₁ hL₁ (.tail .tok) hv₁ ?_)
    refine Prog.wp_bind.2 (wp_get hS₁ hL₁ (Reads.head rfl) (Function.update_self ..) ?_)
    rw [hcopy]
    simp only [Prog.lift, Prog.bind_eq, Prog.ret_bind, Prog.pure_eq]
    refine Prog.wp_bind.2 (wp_overwrite hS₁ hL₁ List.mem_cons_self rfl rfl
      (Function.update_self ..) (.inl ⟨rfl, rfl⟩) fun σ₂ hS₂ hL₂ => ?_)
    refine Prog.wp_bind.2 (wp_releaseNode_handleAt hL₂ fun σ₃ h₃ hL₃ => ?_)
    rw [Function.update_idem] at hS₂
    refine hQ true _ σ₃ (hS₂.congr h₃) hL₃
      ⟨⟨n.setChild o, ?_, hcount, fun i => ?_, ?_⟩, fun i => ?_⟩
      (Frame.update.trans Frame.update.child)
    · rw [Function.update_of_ne hno.symm, Function.update_self]
    · rw [Node.hasChild_setChild, hnoc, Bool.or_false, decide_eq_true_eq]
      by_cases hi : i = o
      · simp [hi, Policy.split, pointPolicy, ho]
      · simp [hi, Policy.split, pointPolicy, ← ho]
    · convert hJ.split π n o ho using 1
      funext i
      rw [childrenOf, Node.hasChild_setChild, hnoc, Bool.or_false]
      by_cases hi : i = o
      · simp [hi]
      · simp [hi]
    · have hag : Agree V (Function.update V π (some (n.setChild o))) (i :: π) := Agree.update_parent
      by_cases hi : i = o
      · subst hi
        simp only [Policy.split, pointPolicy, ← ho, Function.update_self]
        refine ⟨Function.update_self .., fun ρ j => ?_⟩
        rw [Function.update_of_ne, hag.child j ρ]
        · simpa using hd (ρ ++ [j]) o
        · intro e
          have := congrArg List.length e
          simp at this
          omega
      · have hsplit : (pointPolicy cfg).split (.leaf n) i = .empty := by
          simp [Policy.split, pointPolicy, ← ho, hi]
        rw [if_neg (by simp), hsplit]
        intro ρ
        rw [(hag.trans (Frame.update.sibling hi)) ρ]
        exact hd ρ i

/-- The child `c` of a divided cell is opened: fetched if it exists, otherwise created. -/
theorem wp_openChild {Q : NodeHandle × NodeHandle → Store → Prop} (hS : Stores cfg σ V)
    (hL : Live σ (tok cfg π m :: L)) (hJ : Tolerant I J)
    (hd : Divided I J V π kids k none)
    (hX : π.length = maxDepth → X .depthLimit)
    (hQ : ∀ m' V' σ', π.length < maxDepth → Stores cfg σ' V' →
      Live σ' (tok cfg (c :: π) false :: tok cfg π m' :: L) → Divided I J V' π kids k (some c) →
      Frame V V' π → Q (handleAt cfg π m', handleAt cfg (c :: π) false) σ') :
    Spec (openChild cfg (handleAt cfg π m) c) Q X σ := by
  obtain ⟨⟨n, hn, hk, hm, hJn⟩, hkids⟩ := hd
  simp only [reduceCtorEq, or_false, if_false] at hm hkids
  unfold openChild
  refine Prog.wp_bind.2 (wp_get hS hL .tok hn ?_)
  cases hc : n.hasChild c with
  | true =>
    -- the child exists: its node is handed out, and the tree stays
    have hne := (hm c).1 hc
    rcases (hkids c).node with ⟨he, -⟩ | ⟨n', -, hn', -⟩
    · exact absurd he hne
    have hlen := hS.length_le hn'
    simp only [if_true, Prog.bind_eq, Prog.pure_eq]
    refine Prog.wp_bind.2 (wp_getChildNode hS hL .tok hn hc hn' fun σ₁ h₁ hL₁ => ?_)
    refine Prog.wp_bind.2 (wp_waitUntilLoaded hL₁ fun σ₂ h₂ hL₂ => ?_)
    refine hQ m V σ₂ (Nat.lt_of_succ_le hlen) (hS.congr (h₂.trans h₁)) hL₂
      ⟨⟨n, hn, hk, fun i => ?_, hJn⟩, fun i => ?_⟩ .refl
    · rw [hm i]
      constructor
      · exact .inl
      · rintro (h | h)
        · exact h
        · obtain rfl := Option.some.inj h
          exact hne
    · split_ifs with hi
      · exact (hkids i).opened (by obtain rfl := Option.some.inj hi; exact hne)
      · exact hkids i
  | false =>
    -- the child is new: nothing is stored below it
    have he : kids c = .empty := by
      by_contra hne
      rw [(hm c).2 hne] at hc
      cases hc
    have hnone : ∀ ρ, V (ρ ++ c :: π) = none := by
      have := hkids c
      rw [he] at this
      exact this
    refine wp_createChildNode hS hL hn hc (hnone []) hX fun hlt stale σ₁ hS₁ hL₁ => ?_
    have hag : ∀ i, Agree V (Function.update V π (some (n.setChild c))) (i :: π) := fun i =>
      Agree.update_parent
    refine hQ true _ σ₁ hlt hS₁ hL₁.forget ⟨⟨n.setChild c, ?_, hk, fun i => ?_, ?_⟩, fun i => ?_⟩
      (Frame.update.trans Frame.update.child)
    · rw [Function.update_of_ne (List.cons_ne_self c π).symm, Function.update_self]
    · rw [Node.hasChild_setChild, Bool.or_eq_true, decide_eq_true_eq, hm i]
      constructor
      · rintro (rfl | h)
        · exact .inr rfl
        · exact .inl h
      · rintro (h | h)
        · exact .inr h
        · exact .inl (Option.some.inj h).symm
    · have hcn : childrenOf V π n c = none := by rw [childrenOf, hc]; rfl
      convert hJ.child π n _ c stale.reset hcn rfl hJn using 1
      funext i
      rw [childrenOf, Node.hasChild_setChild]
      by_cases hi : i = c
      · simp [hi]
      · have hne : i :: π ≠ c :: π := fun e => hi (List.cons.inj e).1
        rw [Function.update_of_ne hne, Function.update_of_ne hi, (hag i).self, childrenOf]
        simp [hi]
    · split_ifs with hi
      · obtain rfl := Option.some.inj hi
        rw [he]
        refine ⟨⟨stale.reset, Function.update_self .., rfl, rfl⟩, fun ρ j => ?_⟩
        rw [Function.update_of_ne, (hag c).child j ρ]
        · simpa using hnone (ρ ++ [j])
        · intro e
          have := congrArg List.length e
          simp at this
          omega
      · have hi : i ≠ c := fun e => hi (by rw [e])
        exact (hkids i).congr ((hag i).trans (Frame.update.sibling hi))

/-! ### The summary of a node -/

/-- The counts of the children of a divided cell sum up to the number of points. -/
theorem Divided.sumChildren (h : Divided I J V π kids k none) {n : Node} (hn : V π = some n) :
    Node.sumChildren (childrenOf V π n) (fun _ c => c.count) = .ofNat (points (.branch kids)) := by
  obtain ⟨⟨n', hn', -, hm, -⟩, hk⟩ := h
  rw [hn] at hn'
  obtain rfl := Option.some.inj hn'
  have key : ∀ i, (childrenOf V π n i).elim 0 (fun c => c.count.toNat) =
      points (kids i) % 2 ^ 64 := by
    intro i
    have hrep : Rep I V (i :: π) (kids i) := by simpa using hk i
    rcases hrep.node with ⟨he, hv⟩ | ⟨c, hne, hv, hc⟩
    · have hi : n.hasChild i = false := by
        by_contra hi
        have := (hm i).1 (by simpa using hi)
        simp [he] at this
      simp [childrenOf, hi, he, Policy.weight]
    · have hi : n.hasChild i = true := (hm i).2 (.inl hne)
      simp [childrenOf, hi, hv, hc]
  apply UInt64.toNat_inj.1
  rw [Node.sumChildren_toNat, UInt64.toNat_ofNat']
  refine (congrArg (· % 2 ^ 64) (Finset.sum_congr rfl fun i _ => ?_)).trans
    (Finset.sum_nat_mod _ _ _).symm
  rw [← key i]
  cases childrenOf V π n i <;> rfl

/-- The node that `copyFromChildNodes` computes closes a divided cell. -/
theorem Divided.close (h : Divided I J V π kids k none) {n n' : Node} (hn : V π = some n)
    (hok : Node.copyFromChildNodes (childrenOf V π n) = .ok n')
    (hI : ∀ π n ks, Node.copyFromChildNodes ks = .ok n → I π n ks) :
    Rep I (Function.update V π (some n')) π (.branch kids) := by
  have hsum := h.sumChildren hn
  obtain ⟨⟨n₀, hn₀, -, hm, -⟩, hk⟩ := h
  rw [hn] at hn₀
  obtain rfl := Option.some.inj hn₀
  have hag : ∀ i, Agree V (Function.update V π (some n')) (i :: π) := fun i => Agree.update_parent
  have hrep : ∀ i, Rep I V (i :: π) (kids i) := fun i => by simpa using hk i
  have hchild : ∀ i, n'.hasChild i = n.hasChild i := fun i => by
    rw [Node.hasChild_of_copyFromChildNodes hok, childrenOf]
    cases hi : n.hasChild i with
    | false => rfl
    | true =>
      have hne : kids i ≠ .empty := by simpa using (hm i).1 hi
      rcases (hrep i).node with ⟨he, -⟩ | ⟨c, -, hv, -⟩
      · exact absurd he hne
      · simp [hv]
  refine ⟨⟨n', Function.update_self .., ?_, fun i => ?_, hI _ _ _ ?_⟩, fun i =>
    (hrep i).congr (hag i)⟩
  · rw [(Node.count_of_copyFromChildNodes hok).1, hsum]
  · rw [hchild, hm i]; simp
  · rw [← hok]
    congr 1
    funext i
    simp only [childrenOf, hchild, (hag i).self]

/-! ### The plain recursion -/

/-- A cell that contains a point has a positive edge length. -/
theorem getSize_pos {g : NodeGeometry} {pt : Vec} (h : g.contains pt = true) : 0 < g.getSize :=
  sub_pos.2 (NodeGeometry.lt_of_contains h 0)

theorem setPoint_eq (cfg : Config) {g : NodeGeometry} {n : Node} {pt col : Vec}
    (h : g.contains pt = true)
    (hn : n.children = 0) :
    n.setPoint g pt col = .ok ((pointPolicy cfg).single g (pt, col)) := by
  rw [Node.setPoint, if_pos h]
  simp [pointPolicy, hn]

theorem addPoint_eq (cfg : Config) {g : NodeGeometry} {n : Node} {pt col : Vec}
    (h : g.contains pt = true) :
    n.addPoint g pt col = if n.count + 1 = 0 then .error .divideByZero
      else .ok ((pointPolicy cfg).merge g n (pt, col)) := by
  rw [Node.addPoint, if_pos h]
  rfl

/-- What an insertion does at an open node that is not divided for the point: the node is written
through its handle. -/
theorem Opened.write {a : Node} (h : Opened I V π t) (ht : ∀ kids, t ≠ .branch kids) :
    Rep I (Function.update V π (some a)) π (.leaf a) := by
  have hd : ∀ ρ i, V (ρ ++ i :: π) = none := by
    cases t with
    | empty => exact h.2
    | leaf b => exact h.2
    | branch kids => exact absurd rfl (ht kids)
  refine ⟨Function.update_self .., fun ρ i => ?_⟩
  rw [Function.update_of_ne, hd ρ i]
  intro e
  have := congrArg List.length e
  simp at this
  omega

/-- A node in a cell that is too small to divide is a leaf, unless it takes the point at once. -/
theorem Opened.eq_leaf {g : NodeGeometry} {n : Node} (h : Opened I V π t) (hf : Shaped cfg g t)
    (hn : V π = some n) (hsize : 0 < g.getSize) (hfinest : g.getSize < cfg.minCellSize)
    (hfine : ¬ (t = .empty ∧ g.getSize / bitsD ≤ cfg.minCellSize)) : t = .leaf n := by
  cases t with
  | empty =>
    refine absurd ⟨rfl, ?_⟩ hfine
    rw [div_le_iff₀ (by norm_num [bitsD])]
    nlinarith [show (1 : ℚ) ≤ bitsD by norm_num [bitsD]]
  | leaf a =>
    have := h.1
    rw [hn] at this
    rw [Option.some.inj this]
  | branch kids =>
    have := hf.1
    simp [pointPolicy, hfinest] at this

theorem stop_empty {g : NodeGeometry} {p : Vec × Vec} (hfine : g.getSize / bitsD ≤ cfg.minCellSize) :
    (pointPolicy cfg).stop p g .empty = some ((pointPolicy cfg).single g p) := by
  simp [Policy.stop, pointPolicy, hfine]

theorem stop_leaf {g : NodeGeometry} {p : Vec × Vec} {n : Node}
    (hfinest : g.getSize < cfg.minCellSize) :
    (pointPolicy cfg).stop p g (.leaf n) = some ((pointPolicy cfg).merge g n p) := by
  simp [Policy.stop, pointPolicy, hfinest]

theorem stop_eq_none {g : NodeGeometry} {p : Vec × Vec} (hfinest : ¬ g.getSize < cfg.minCellSize)
    (hfine : t = .empty → ¬ g.getSize / bitsD ≤ cfg.minCellSize) :
    (pointPolicy cfg).stop p g t = none := by
  cases t with
  | empty =>
    simp only [Policy.stop, pointPolicy, hfinest, or_false, hfine rfl, decide_false]
    rfl
  | leaf a => simp [Policy.stop, pointPolicy, hfinest]
  | branch kids => rfl

theorem wp_addPointRecursive {Q : NodeHandle → Store → Prop} {pt col : Vec} {fuel : ℕ}
    (hI : ∀ π n ks, Node.copyFromChildNodes ks = .ok n → I π n ks) (hS : Stores cfg σ V)
    (hL : Live σ (tok cfg π m :: L)) (ht : Opened I V π t)
    (hf : Shaped cfg (geomOf cfg.rootGeometry π) t) (hB : points t < countBound)
    (hpt : (geomOf cfg.rootGeometry π).contains pt = true) (hfuel : maxDepth < π.length + fuel)
    (hX : (pointPolicy cfg).insert (pt, col) (maxDepth - π.length) (geomOf cfg.rootGeometry π) t =
      none → X .depthLimit)
    (hXz : countBound ≤ points t + 1 → X .divideByZero)
    (hQ : ∀ u V' σ', (pointPolicy cfg).insert (pt, col) (maxDepth - π.length)
      (geomOf cfg.rootGeometry π) t = some u → points t + 1 < countBound → Stores cfg σ' V' →
      Live σ' (tok cfg π true :: L) → Rep I V' π u → Frame V V' π → Q (handleAt cfg π true) σ') :
    Spec (addPointRecursive cfg pt col cfg.minCellSize fuel (handleAt cfg π m)) Q X σ := by
  induction fuel generalizing π m σ V L t Q with
  | zero =>
    obtain ⟨n, hn, -⟩ := ht.node
    have := hS.length_le hn
    omega
  | succ fuel ih =>
    obtain ⟨n, hn, hcount⟩ := ht.node
    have hlen := hS.length_le hn
    have hempty := ht.isEmpty hf hB hn
    have hsize := getSize_pos hpt
    set g := geomOf cfg.rootGeometry π with hg
    have hgeom : (handleAt cfg π m).nodeGeom = g := rfl
    unfold addPointRecursive
    refine Prog.wp_bind.2 (wp_get hS hL .tok hn ?_)
    rw [hgeom]
    by_cases hfine : n.isEmpty = true ∧ g.getSize / bitsD ≤ cfg.minCellSize
    · -- an empty cell that is fine enough takes the point
      rw [if_pos (by simpa using hfine)]
      obtain rfl := hempty.1 hfine.1
      have hstop := stop_empty (p := (pt, col)) hfine.2
      have hchildren := ht.children_empty hn
      refine Prog.wp_bind.2 (wp_get hS hL .tok hn ?_)
      rw [hgeom, setPoint_eq cfg hpt hchildren]
      refine wp_modify hS hL hn fun σ₁ hS₁ hL₁ => ?_
      exact hQ _ _ σ₁ (Policy.insert_of_stop hstop) (by simp [Policy.weight]) hS₁ hL₁
        (ht.write fun kids h => by cases h) .update
    rw [if_neg (by simpa using hfine)]
    by_cases hfinest : g.getSize < cfg.minCellSize
    · -- a cell that is not divided any more averages its points
      rw [if_pos hfinest]
      have hleaf : t = .leaf n := ht.eq_leaf hf hn hsize hfinest (fun h =>
        hfine ⟨hempty.2 h.1, h.2⟩)
      subst hleaf
      have hstop := stop_leaf (p := (pt, col)) (n := n) hfinest
      refine Prog.wp_bind.2 (wp_get hS hL .tok hn ?_)
      rw [hgeom, addPoint_eq cfg hpt]
      have hcnt : (n.count + 1).toNat = (n.count.toNat + 1) % 2 ^ 64 := UInt64.toNat_add _ _
      split_ifs with hz
      · have := congrArg UInt64.toNat hz
        rw [hcnt, UInt64.toNat_zero] at this
        have hlt := n.count.toNat_lt
        exact hXz (show 2 ^ 64 ≤ n.count.toNat + 1 by omega)
      · refine wp_modify hS hL hn fun σ₁ hS₁ hL₁ => ?_
        refine hQ _ _ σ₁ (Policy.insert_of_stop hstop) ?_ hS₁ hL₁
          (ht.write fun kids h => by cases h) .update
        change n.count.toNat + 1 < 2 ^ 64
        by_contra hge
        have hlt := n.count.toNat_lt
        refine hz (UInt64.toNat_inj.1 ?_)
        rw [hcnt, UInt64.toNat_zero]
        omega
    · -- otherwise the point goes into a child, and the node is summed up again
      rw [if_neg hfinest]
      have hstop : (pointPolicy cfg).stop (pt, col) g t = none :=
        stop_eq_none hfinest fun h hle => hfine ⟨hempty.2 h, hle⟩
      have hXd : π.length = maxDepth → X .depthLimit := fun hd => by
        refine hX ?_
        rw [hd, Nat.sub_self, Policy.insert_zero hstop]
      refine Prog.wp_bind.2 (wp_splitLeaf tolerant_noSummary hS hL ht hf hB hXd
        fun m₁ V₁ σ₁ hS₁ hL₁ hd₁ hfr₁ => ?_)
      set kids := (pointPolicy cfg).split t with hkids
      set c := g.whichChild pt with hc
      refine Prog.wp_bind.2 (wp_openChild (c := c) hS₁ hL₁ tolerant_noSummary hd₁ hXd
        fun m₂ V₂ σ₂ hlt hS₂ hL₂ hd₂ hfr₂ => ?_)
      have hins : (pointPolicy cfg).insert (pt, col) (maxDepth - π.length) g t =
          ((pointPolicy cfg).insert (pt, col) (maxDepth - (c :: π).length)
            (geomOf cfg.rootGeometry (c :: π)) (kids c)).map
              fun u => .branch (Function.update kids c u) := by
        have hn : maxDepth - π.length = maxDepth - (c :: π).length + 1 := by
          rw [List.length_cons]; omega
        rw [hn, Policy.insert_succ hstop]
        rfl
      have hg₁ := Policy.stop_none_finest fine_of_finest hf hstop
      have hfc : Shaped cfg (geomOf cfg.rootGeometry (c :: π)) (kids c) :=
        hf.split keeps_pointPolicy hg₁ c
      have hsplit : points (.branch kids) = points t := Policy.weight_split pointCount_push t
      have hle : points (kids c) ≤ points t := (Policy.weight_kid_le _ kids c).trans hsplit.le
      have hopen : Opened I V₂ (c :: π) (kids c) := by simpa using hd₂.2 c
      have hptc : (geomOf cfg.rootGeometry (c :: π)).contains pt = true :=
        NodeGeometry.contains_whichChild hpt
      refine Prog.wp_bind.2 (ih hS₂ hL₂ hopen hfc (by omega) hptc ?_ ?_ ?_ ?_)
      · rw [List.length_cons]; omega
      · intro h
        exact hX (by rw [hins, h]; rfl)
      · intro h
        exact hXz (by omega)
      intro u V₃ σ₃ hu hB₃ hS₃ hL₃ hrep₃ hfr₃
      have hu_ne := Policy.insert_ne_empty hu
      have hweight : points u = points (kids c) + 1 :=
        Policy.weight_insert pointCount_single pointCount_merge pointCount_push hB₃ hu
      have hupdate : points (.branch (Function.update kids c u)) = points t + 1 := by
        have h : points (.branch (Function.update kids c u)) + points (kids c) =
          points (.branch kids) + points u := Policy.weight_update _ kids c u
        omega
      -- all children are closed again, and only the summary is out of date
      have hd₃ : Divided I noSummary V₃ π (Function.update kids c u) (.ofNat (points t)) none := by
        obtain ⟨⟨n₂, hn₂, hk₂, hm₂, -⟩, hkids₂⟩ := hd₂
        refine ⟨⟨n₂, by rw [hfr₃.self]; exact hn₂, hk₂, fun i => ?_, trivial⟩, fun i => ?_⟩
        · rw [hm₂ i]
          by_cases hi : i = c
          · simp [hi, hu_ne]
          · have hi' : c ≠ i := fun e => hi e.symm
            simp [hi, hi']
        · rw [if_neg (by simp)]
          by_cases hi : i = c
          · subst hi
            rw [Function.update_self]
            exact hrep₃
          · have hrep := hkids₂ i
            rw [if_neg fun e => hi (Option.some.inj e).symm] at hrep
            rw [Function.update_of_ne hi]
            exact hrep.congr (hfr₃.sibling hi)
      obtain ⟨n₃, hn₃, -, hm₃, -⟩ := hd₃.1
      have hc₃ : n₃.hasChild c = true := (hm₃ c).2
        (.inl (by rw [Function.update_self]; exact hu_ne))
      have hsome := hd₃.isSome hn₃
      refine Prog.wp_bind.2 (wp_releaseNode_handleAt hL₃ fun σ₄ h₄ hL₄ => ?_)
      have hS₄ := hS₃.congr h₄
      refine Prog.wp_bind.2 (wp_createIterator hS₄ hL₄ .tok hn₃ hsome ⟨c, hc₃⟩
        fun σ₅ h₅ hL₅ => ?_)
      refine Prog.wp_bind.2 (wp_copyFromChildNodes (hS₄.congr h₅) hL₅ hn₃ hsome ?_ ?_)
      · intro e he
        obtain ⟨rfl, hz⟩ := Node.copyFromChildNodes_error he
        have hz := congrArg UInt64.toNat hz
        rw [hd₃.sumChildren hn₃, UInt64.toNat_ofNat', hupdate, UInt64.toNat_zero] at hz
        exact hXz (show 2 ^ 64 ≤ points t + 1 by omega)
      · intro n₄ σ₆ hok hS₆ hL₆
        refine Prog.wp_bind.2 (wp_destroyIterator _ _ (fun _ h => h) hL₆ fun σ₇ h₇ hL₇ => ?_)
        refine hQ _ _ σ₇ (by rw [hins, hu]; rfl) ?_ (hS₆.congr h₇) hL₇ (hd₃.close hn₃ hok hI)
          (((hfr₁.trans hfr₂).trans hfr₃.child).trans .update)
        obtain ⟨hcnt, hne⟩ := Node.count_of_copyFromChildNodes hok
        rw [hd₃.sumChildren hn₃, hupdate] at hcnt
        by_contra hge
        have hmax : points t + 1 = 2 ^ 64 := by
          change ¬ points t + 1 < 2 ^ 64 at hge
          change points t < 2 ^ 64 at hB
          omega
        rw [hmax] at hcnt
        exact hne hcnt

end MegaTree
