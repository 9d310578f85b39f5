import MegaTree.Store.Insert

/-!
# Fast insertion

A `TreeFastCache` is a stack of open nodes from the root down to the node of the last point.
`Spine` describes the open nodes that have an open child: their own counts do not know yet what
happened in that child since it was opened, and `pop` adds exactly that.

Forgetting the stack, the store represents the tree `plug t fs` : the subtree `t` at the top inside
the frames `fs`.  A `pop` keeps that tree (`wp_pop`), and an insertion at the top is an insertion
into the whole tree, because the point lies in the cell of the top (`wp_fastAddPointRecursive` and
`SpaceTree.Policy.insert_plug`).
-/

namespace MegaTree

open Effect SpaceTree

/-- One step down the stack: the closed siblings, and the number of the open child. -/
abbrev OpenFrame := Policy.Frame ChildNr Node

/-- The path of the node inside some frames. -/
def pathOf : List OpenFrame → Path
  | [] => []
  | f :: fs => f.step :: pathOf fs

/-- A node with the values that a `NodeCache` has kept of its node. -/
def NodeCache.Keeps (nc : NodeCache) (o : Node) : Prop :=
  o.count = nc.origCnt ∧ (∀ i, (o.point i).toUInt64 = nc.origPnt i) ∧
    ∀ i, (o.color i).toUInt64 = nc.origCol i

/-- The stack of open nodes around the tree `t` at the top, with its tokens.  Each node below the
top holds the count of its closed children and of the open child when it was opened, and it is
related to them by `J`.  Points only come in, so a child never has fewer than when it was opened. -/
inductive Spine (cfg : Config) (I J : Summary) (V : Path → Option Node) :
    List NodeCache → List OpenFrame → List Token → CellTree → Prop
  | root {nc : NodeCache} {m : Bool} {t : CellTree} : nc.nh = handleAt cfg [] m →
      Spine cfg I J V [nc] [] [tok cfg [] m] t
  | push {nc : NodeCache} {ncs : List NodeCache} {f : OpenFrame} {fs : List OpenFrame}
      {L : List Token} {m : Bool} {n o : Node} {t : CellTree} :
      Spine cfg I J V ncs fs L (.branch (Function.update f.kids f.step t)) →
      nc.nh = handleAt cfg (f.step :: pathOf fs) m → nc.Keeps o →
      nc.origCnt.toNat ≤ points t → V (pathOf fs) = some n →
      n.count = .ofNat (points (.branch (Function.update f.kids f.step .empty))) + nc.origCnt →
      (∀ i, n.hasChild i = true ↔ (f.kids i ≠ .empty ∨ f.step = i)) →
      (∀ i, i ≠ f.step → Rep I V (i :: pathOf fs) (f.kids i)) →
      J (pathOf fs) n (Function.update (childrenOf V (pathOf fs) n) f.step (some o)) →
      Spine cfg I J V (nc :: ncs) (f :: fs) (tok cfg (f.step :: pathOf fs) m :: L) t

variable {cfg : Config} {I I' J J' : Summary} {V V' : Path → Option Node} {σ : Store}
  {nc pc : NodeCache} {ncs : List NodeCache} {f : OpenFrame} {fs : List OpenFrame} {L : List Token}
  {t : CellTree} {X : Err → Prop}

theorem cell_eq (cfg : Config) (fs : List OpenFrame) :
    (pointPolicy cfg).cell cfg.rootGeometry fs = geomOf cfg.rootGeometry (pathOf fs) := by
  induction fs with
  | nil => rfl
  | cons f fs ih => rw [Policy.cell, ih]; rfl

theorem length_pathOf (fs : List OpenFrame) : (pathOf fs).length = fs.length := by
  induction fs with
  | nil => rfl
  | cons f fs ih => rw [pathOf, List.length_cons, ih, List.length_cons]

theorem update_childrenOf_frame {π : Path} {c : ChildNr} {o : Option Node}
    (h : Frame V V' (c :: π)) (n : Node) :
    Function.update (childrenOf V' π n) c o = Function.update (childrenOf V π n) c o := by
  funext i
  by_cases hi : i = c
  · rw [hi, Function.update_self, Function.update_self]
  · rw [Function.update_of_ne hi, Function.update_of_ne hi, childrenOf, childrenOf,
      (h.sibling hi).self]

/-- The stack does not depend on the nodes at and below its top. -/
theorem Spine.frame (h : Spine cfg I J V ncs fs L t) (hfr : Frame V V' (pathOf fs)) :
    Spine cfg I J V' ncs fs L t := by
  induction h with
  | root hnh => exact .root hnh
  | @push nc ncs f fs L m n o t hs hnh ho hle hn hk hm hkids hJ ih =>
    refine .push (ih hfr.child) hnh ho hle (by rw [hfr.self]; exact hn) hk hm (fun i hi => ?_) ?_
    · exact (hkids i hi).congr (hfr.sibling hi)
    · rw [update_childrenOf_frame hfr]
      exact hJ

theorem Rep.mono {π : Path} (hI : ∀ ρ n ks, I ρ n ks → I' ρ n ks) (h : Rep I V π t) :
    Rep I' V π t := by
  induction t generalizing π with
  | empty => exact h
  | leaf a => exact h
  | branch kids ih =>
    obtain ⟨⟨n, hn, hk, hm, hs⟩, hkids⟩ := h
    exact ⟨⟨n, hn, hk, hm, hI _ _ _ hs⟩, fun i => ih i (hkids i)⟩

theorem Opened.mono {π : Path} (hI : ∀ ρ n ks, I ρ n ks → I' ρ n ks) (h : Opened I V π t) :
    Opened I' V π t := by
  cases t with
  | empty => exact h
  | leaf a => exact h
  | branch kids => exact Rep.mono hI h

theorem Spine.mono (hI : ∀ ρ n ks, I ρ n ks → I' ρ n ks) (hJ : ∀ ρ n ks, J ρ n ks → J' ρ n ks)
    (h : Spine cfg I J V ncs fs L t) : Spine cfg I' J' V ncs fs L t := by
  induction h with
  | root hnh => exact .root hnh
  | push _ hnh ho hle hn hk hm hkids hj ih =>
    exact .push ih hnh ho hle hn hk hm (fun i hi => (hkids i hi).mono hI) (hJ _ _ _ hj)

/-- The tree at the top may grow. -/
theorem Spine.grow {t' : CellTree} (h : Spine cfg I J V ncs fs L t) (hle : points t ≤ points t') :
    Spine cfg I J V ncs fs L t' := by
  induction h generalizing t' with
  | root hnh => exact .root hnh
  | @push nc ncs f fs L m n o t hs hnh ho hk' hn hk hm hkids hj ih =>
    refine .push (ih ?_) hnh ho (hk'.trans hle) hn hk hm hkids hj
    have h₁ := Policy.weight_update pointCount f.kids f.step t
    have h₂ := Policy.weight_update pointCount f.kids f.step t'
    change points (.branch (Function.update f.kids f.step t)) + _ = _ + points t at h₁
    change points (.branch (Function.update f.kids f.step t')) + _ = _ + points t' at h₂
    omega

/-- The handle at the top of the stack. -/
theorem Spine.top (h : Spine cfg I J V (nc :: ncs) fs L t) :
    ∃ m L', nc.nh = handleAt cfg (pathOf fs) m ∧ L = tok cfg (pathOf fs) m :: L' ∧
      ∀ m', Spine cfg I J V ({ nc with nh := handleAt cfg (pathOf fs) m' } :: ncs) fs
        (tok cfg (pathOf fs) m' :: L') t := by
  cases h with
  | @root _ m _ hnh => exact ⟨m, [], hnh, rfl, fun m' => .root rfl⟩
  | @push _ _ f fs L m n o _ hs hnh ho hle hn hk hm hkids hJ =>
    exact ⟨m, L, hnh, rfl, fun m' => .push hs rfl ho hle hn hk hm hkids hJ⟩

/-! ### The rules -/

theorem wp_createNodeCache {Q : NodeCache → Store → Prop} {π : Path} {m : Bool} {n : Node}
    (hS : Stores cfg σ V) (hL : Live σ L) (hr : Reads L (fileOf cfg π)) (hn : V π = some n)
    (hQ : ∀ nc, nc.nh = handleAt cfg π m → nc.Keeps n → Q nc σ) :
    Spec (NodeCache.create (handleAt cfg π m)) Q X σ :=
  Prog.wp_bind.2 (wp_get hS hL hr hn (hQ _ rfl ⟨rfl, fun _ => rfl, fun _ => rfl⟩))

theorem mergedNode_error {c n : Node} {i : ChildNr} {e : Err} (h : nc.mergedNode i c n = .error e) :
    e = .divideByZero ∧ n.count + nc.diffCnt c = 0 := by
  simp only [NodeCache.mergedNode] at h
  split_ifs at h with hz
  exact ⟨(Except.error.inj h).symm, hz⟩

theorem mergedNode_ok {c n n' : Node} {i : ChildNr} (h : nc.mergedNode i c n = .ok n') :
    n'.count = n.count + nc.diffCnt c ∧ n'.children = n.children := by
  simp only [NodeCache.mergedNode] at h
  split_ifs at h with hz
  obtain rfl := Except.ok.inj h
  exact ⟨rfl, rfl⟩

/-- The top is closed: its change is folded into the node below it. -/
theorem wp_pop {Q : Unit → Store → Prop} (hS : Stores cfg σ V) (hL : Live σ L)
    (hs : Spine cfg I J V (nc :: pc :: ncs) (f :: fs) L t) (ht : Opened I V (f.step :: pathOf fs) t)
    (hne : t ≠ .empty) (hBt : points t < countBound)
    (hB : UInt64.ofNat (points (.branch (Function.update f.kids f.step t))) ≠ 0)
    (hI : ∀ ρ n ks, I ρ n ks → I' ρ n ks) (hJ : ∀ ρ n ks, J ρ n ks → J' ρ n ks)
    (hmerge : ∀ n n' o c, V (pathOf fs) = some n → V (f.step :: pathOf fs) = some c →
      nc.Keeps o → nc.origCnt ≤ c.count → nc.mergedNode f.step c n = .ok n' →
      (∀ i, n.hasChild i = true → i ≠ f.step → (V (i :: pathOf fs)).isSome) →
      J (pathOf fs) n (Function.update (childrenOf V (pathOf fs) n) f.step (some o)) →
      I' (pathOf fs) n' (Function.update (childrenOf V (pathOf fs) n) f.step (some c)))
    (hQ : ∀ n n' c V' L' σ', V (pathOf fs) = some n → V (f.step :: pathOf fs) = some c →
      nc.mergedNode f.step c n = .ok n' → V' = Function.update V (pathOf fs) (some n') →
      Stores cfg σ' V' → Live σ' L' →
      Spine cfg I' J' V' (pc :: ncs) fs L' (.branch (Function.update f.kids f.step t)) →
      Opened I' V' (pathOf fs) (.branch (Function.update f.kids f.step t)) → Q () σ') :
    Spec (FastCache.pop nc (pc :: ncs)) Q X σ := by
  cases hs with
  | @push _ _ _ _ L m n o _ hs hnh ho hle hn hk hm hkids hJn =>
  obtain ⟨mp, Lp, hpc, rfl, hsp⟩ := hs.top
  obtain ⟨c, hc, hcnt⟩ := ht.node
  have hlen := hS.length_le hc
  have hnr : nc.nh.id.getChildNr = f.step := by
    rw [hnh]
    exact getChildNr_idOf_cons hlen
  -- the counter of the top only went up since it was pushed, so that the difference is what was
  -- added
  have hgrown : nc.origCnt ≤ c.count := by
    rw [UInt64.le_iff_toNat_le, hcnt, UInt64.toNat_ofNat', Nat.mod_eq_of_lt hBt]
    exact hle
  -- the count below does not wrap around, because the whole branch has a count
  have hsum : n.count + nc.diffCnt c =
      .ofNat (points (.branch (Function.update f.kids f.step t))) := by
    have hw : points (.branch (Function.update f.kids f.step t)) =
        points (.branch (Function.update f.kids f.step .empty)) + points t := by
      have h := Policy.weight_update pointCount (Function.update f.kids f.step .empty) f.step t
      rw [Function.update_idem, Function.update_self] at h
      exact h
    rw [NodeCache.diffCnt, hk, hcnt, hw, UInt64.ofNat_add]
    grind
  have hsib : ∀ i, n.hasChild i = true → i ≠ f.step → (V (i :: pathOf fs)).isSome := by
    intro i hi hne
    rcases (hkids i hne).node with ⟨he, -⟩ | ⟨k, -, hk', -⟩
    · rcases (hm i).1 hi with h | h
      · exact absurd he h
      · exact absurd h.symm hne
    · rw [hk']; rfl
  unfold FastCache.pop NodeCache.mergeChild
  refine Prog.wp_bind.2 (Prog.wp_bind.2 ?_)
  rw [hnr, hnh, hpc]
  refine wp_get hS hL .tok hc ?_
  refine Prog.wp_bind.2 (wp_get hS hL (.tail .tok) hn ?_)
  refine Prog.wp_bind.2 (Prog.wp_lift.2 ⟨fun n' hok => ?_, fun e he => ?_⟩)
  -- the mean of no points: excluded by the count of the branch
  swap
  · exact absurd (hsum ▸ (mergedNode_error he).2) hB
  obtain ⟨hcount, hchildren⟩ := mergedNode_ok hok
  refine wp_overwrite (t := tok cfg (pathOf fs) mp) hS hL (by simp) rfl rfl hn (.inr rfl)
    fun σ₁ hS₁ hL₁ => ?_
  unfold NodeCache.release
  rw [hnh]
  refine Prog.wp_bind.2 (wp_releaseNode_handleAt hL₁ fun σ₂ h₂ hL₂ => ?_)
  have hag : ∀ i, Agree V (Function.update V (pathOf fs) (some n')) (i :: pathOf fs) := fun i =>
    Agree.update_parent
  have hhas : ∀ i, n'.hasChild i = n.hasChild i := fun i => by
    rw [Node.hasChild_eq, Node.hasChild_eq, hchildren]
  have hstep : n.hasChild f.step = true := (hm _).2 (.inr rfl)
  refine hQ n n' c _ _ σ₂ hn hc hok rfl (hS₁.congr h₂) hL₂ ((hs.frame .update).mono hI hJ)
    ⟨⟨n', ?_, ?_, fun i => ?_, ?_⟩, fun i => ?_⟩
  · exact Function.update_self ..
  · rw [hcount, hsum]
  · rw [hhas, hm i]
    by_cases hi : i = f.step
    · simp [hi, hne]
    · have hi' : f.step ≠ i := fun e => hi e.symm
      simp [hi, hi']
  -- only the summary of the closed child is replaced
  · convert hmerge n n' o c hn hc ho hgrown hok hsib hJn using 1
    funext i
    rw [childrenOf, hhas, (hag i).self]
    by_cases hi : i = f.step
    · rw [hi, Function.update_self, hstep, if_pos rfl, hc]
    · rw [Function.update_of_ne hi, childrenOf]
  · by_cases hi : i = f.step
    · rw [hi, Function.update_self]
      exact ((ht.rep hne).congr (hag _)).mono hI
    · rw [Function.update_of_ne hi]
      exact ((hkids i hi).congr (hag i)).mono hI

/-- An insertion at the top of the stack.  `plug u fs` is the whole tree with the point inserted
below the old top, and the new stack represents the same tree. -/
theorem wp_fastAddPointRecursive {Q : List NodeCache → Store → Prop} {pt col : Vec} {fuel : ℕ}
    (hJ : Tolerant I J) (hS : Stores cfg σ V) (hL : Live σ L)
    (hs : Spine cfg I J V (nc :: ncs) fs L t) (ht : Opened I V (pathOf fs) t)
    (hf : Shaped cfg (geomOf cfg.rootGeometry (pathOf fs)) t) (hB : points t + 1 < countBound)
    (hpt : (geomOf cfg.rootGeometry (pathOf fs)).contains pt = true)
    (hfuel : maxDepth < fs.length + fuel)
    (hX : (pointPolicy cfg).insert (pt, col) (maxDepth - fs.length)
      (geomOf cfg.rootGeometry (pathOf fs)) t = none → X .depthLimit)
    (hQ : ∀ u ncs' fs' t' L' V' σ', (pointPolicy cfg).insert (pt, col) (maxDepth - fs.length)
      (geomOf cfg.rootGeometry (pathOf fs)) t = some u →
      Policy.plug t' fs' = Policy.plug u fs → t' ≠ .empty → Stores cfg σ' V' → Live σ' L' →
      Spine cfg I J V' ncs' fs' L' t' → Opened I V' (pathOf fs') t' → Q ncs' σ') :
    Spec (FastCache.addPointRecursive cfg pt col cfg.minCellSize fuel (nc :: ncs)) Q X σ := by
  induction fuel generalizing nc ncs fs L σ V t with
  | zero =>
    obtain ⟨n, hn, -⟩ := ht.node
    have := hS.length_le hn
    rw [length_pathOf] at this
    omega
  | succ fuel ih =>
    obtain ⟨m, L, hnh, rfl, htop⟩ := hs.top
    obtain ⟨n, hn, hcount⟩ := ht.node
    have hlen := hS.length_le hn
    rw [length_pathOf] at hlen
    have hB' : points t < countBound := by omega
    have hempty := ht.isEmpty hf hB' hn
    have hsize := getSize_pos hpt
    set g := geomOf cfg.rootGeometry (pathOf fs) with hg
    have hgeom : (handleAt cfg (pathOf fs) m).nodeGeom = g := rfl
    unfold FastCache.addPointRecursive
    rw [hnh]
    refine Prog.wp_bind.2 (wp_get hS hL .tok hn ?_)
    rw [hgeom]
    by_cases hfine : n.isEmpty = true ∧ g.getSize / bitsD ≤ cfg.minCellSize
    · -- an empty cell that is fine enough takes the point
      rw [if_pos (by simpa using hfine)]
      obtain rfl := hempty.1 hfine.1
      have hstop := stop_empty (p := (pt, col)) hfine.2
      have hchildren := ht.children_empty hn
      refine Prog.wp_bind.2 (Prog.wp_bind.2 (wp_get hS hL .tok hn ?_))
      rw [hgeom, setPoint_eq cfg hpt hchildren]
      refine wp_modify hS hL hn fun σ₁ hS₁ hL₁ => ?_
      have hgrow : points .empty ≤ points (.leaf ((pointPolicy cfg).single g (pt, col))) :=
        Nat.zero_le _
      exact hQ _ _ _ _ _ _ σ₁ (Policy.insert_of_stop hstop) rfl (fun h => by cases h) hS₁ hL₁
        (((htop true).frame .update).grow hgrow) (ht.write fun kids h => by cases h)
    rw [if_neg (by simpa using hfine)]
    by_cases hfinest : g.getSize < cfg.minCellSize
    · -- a cell that is not divided any more averages its points
      rw [if_pos hfinest]
      have hleaf : t = .leaf n := ht.eq_leaf hf hn hsize hfinest (fun h =>
        hfine ⟨hempty.2 h.1, h.2⟩)
      subst hleaf
      have hstop := stop_leaf (p := (pt, col)) (n := n) hfinest
      refine Prog.wp_bind.2 (Prog.wp_bind.2 (wp_get hS hL .tok hn ?_))
      rw [hgeom, addPoint_eq cfg hpt]
      have hcnt : (n.count + 1).toNat = (n.count.toNat + 1) % 2 ^ 64 := UInt64.toNat_add _ _
      have hlt : n.count.toNat + 1 < 2 ^ 64 := hB
      split_ifs with hz
      · have := congrArg UInt64.toNat hz
        rw [hcnt, UInt64.toNat_zero] at this
        omega
      · refine wp_modify hS hL hn fun σ₁ hS₁ hL₁ => ?_
        have hgrow : points (.leaf n) ≤ points (.leaf ((pointPolicy cfg).merge g n (pt, col))) :=
          (Nat.le_succ _).trans (pointCount_merge g n (pt, col) hB).ge
        exact hQ _ _ _ _ _ _ σ₁ (Policy.insert_of_stop hstop) rfl (fun h => by cases h) hS₁ hL₁
          (((htop true).frame .update).grow hgrow) (ht.write fun kids h => by cases h)
    · -- otherwise a child is opened and becomes the new top
      rw [if_neg hfinest]
      have hstop : (pointPolicy cfg).stop (pt, col) g t = none :=
        stop_eq_none hfinest fun h hle => hfine ⟨hempty.2 h, hle⟩
      have hXd : (pathOf fs).length = maxDepth → X .depthLimit := fun hd => by
        rw [length_pathOf] at hd
        refine hX ?_
        rw [hd, Nat.sub_self, Policy.insert_zero hstop]
      refine Prog.wp_bind.2 (wp_splitLeaf hJ hS hL ht hf hB' hXd
        fun m₁ V₁ σ₁ hS₁ hL₁ hd₁ hfr₁ => ?_)
      set kids := (pointPolicy cfg).split t with hkids
      set c := g.whichChild pt with hc
      refine Prog.wp_bind.2 (wp_openChild (c := c) hS₁ hL₁ hJ hd₁ hXd
        fun m₂ V₂ σ₂ hlt hS₂ hL₂ hd₂ hfr₂ => ?_)
      rw [length_pathOf] at hlt
      have hins : (pointPolicy cfg).insert (pt, col) (maxDepth - fs.length) g t =
          ((pointPolicy cfg).insert (pt, col) (maxDepth - (fs.length + 1))
            (geomOf cfg.rootGeometry (c :: pathOf fs)) (kids c)).map
              fun u => .branch (Function.update kids c u) := by
        have hn : maxDepth - fs.length = maxDepth - (fs.length + 1) + 1 := by omega
        rw [hn, Policy.insert_succ hstop]
        rfl
      have hg₁ := Policy.stop_none_finest fine_of_finest hf hstop
      have hfc : Shaped cfg (geomOf cfg.rootGeometry (c :: pathOf fs)) (kids c) :=
        hf.split keeps_pointPolicy hg₁ c
      have hsplit : points (.branch kids) = points t := Policy.weight_split pointCount_push t
      have hle : points (kids c) ≤ points t := (Policy.weight_kid_le _ kids c).trans hsplit.le
      have hopen : Opened I V₂ (c :: pathOf fs) (kids c) := by simpa using hd₂.2 c
      have hptc : (geomOf cfg.rootGeometry (c :: pathOf fs)).contains pt = true :=
        NodeGeometry.contains_whichChild hpt
      obtain ⟨o, ho, hocnt⟩ := hopen.node
      refine Prog.wp_bind.2 (wp_createNodeCache hS₂ hL₂ .tok ho fun nc' hnc' hkeeps => ?_)
      -- the old top is now a node with an open child
      have hpush : Spine cfg I J V₂ (nc' :: { nc with nh := handleAt cfg (pathOf fs) m₂ } :: ncs)
          (⟨kids, c⟩ :: fs) (tok cfg (c :: pathOf fs) false :: tok cfg (pathOf fs) m₂ :: L)
          (kids c) := by
        obtain ⟨⟨n₂, hn₂, hk₂, hm₂, hJ₂⟩, hkids₂⟩ := hd₂
        have hbelow := ((htop m₂).frame (hfr₁.trans hfr₂)).grow hsplit.ge
        rw [← Function.update_eq_self c kids] at hbelow
        refine .push (f := ⟨kids, c⟩) hbelow hnc' hkeeps ?_ hn₂ ?_ (fun i => ?_)
          (fun i hi => ?_) ?_
        · rw [← hkeeps.1, hocnt, UInt64.toNat_ofNat']
          exact Nat.mod_le _ _
        · have hw : points (.branch (Function.update kids c .empty)) + points (kids c) =
              points (.branch kids) + 0 := Policy.weight_update _ kids c .empty
          rw [hk₂, ← hkeeps.1, hocnt, ← UInt64.ofNat_add, hw, hsplit]
          rfl
        · rw [hm₂ i]
          simp
        · have := hkids₂ i
          rwa [if_neg fun e => hi (Option.some.inj e).symm] at this
        · have hself : childrenOf V₂ (pathOf fs) n₂ c = some o := by
            rw [childrenOf, if_pos ((hm₂ c).2 (.inr rfl)), ho]
          rw [← hself, Function.update_eq_self]
          exact hJ₂
      refine ih hS₂ hL₂ hpush hopen hfc (by omega) hptc ?_ ?_ ?_
      · rw [List.length_cons]; omega
      · intro h
        rw [List.length_cons] at h
        refine hX ?_
        rw [hins]
        exact Option.map_eq_none_iff.2 h
      · intro u ncs' fs' t' L' V' σ' hu hplug
        rw [List.length_cons] at hu
        refine hQ (.branch (Function.update kids c u)) ncs' fs' t' L' V' σ' ?_ hplug
        rw [hins]
        exact Option.map_eq_some_iff.2 ⟨u, hu, rfl⟩

/-! ### The life of a fast cache -/

variable (cfg) in
/-- The stack `ncs` represents the tree `T`. -/
structure FastHolds (I J : Summary) (σ : Store) (V : Path → Option Node) (ncs : List NodeCache)
    (fs : List OpenFrame) (t T : CellTree) : Prop where
  stores : Stores cfg σ V
  spine : ∃ L, Live σ L ∧ Spine cfg I J V ncs fs L t
  opened : Opened I V (pathOf fs) t
  whole : Policy.plug t fs = T
  shaped : Shaped cfg cfg.rootGeometry T
  bound : points T < countBound
  occupied : fs ≠ [] → t ≠ .empty

/-- A point of the top cell belongs to every cell on the way there. -/
theorem leads_of_contains {pt c : Vec}
    (h : (geomOf cfg.rootGeometry (pathOf fs)).contains pt = true) :
    cfg.rootGeometry.contains pt = true ∧
      (pointPolicy cfg).Leads (pt, c) cfg.rootGeometry fs := by
  have hroot := root_lt_of_contains h
  induction fs with
  | nil => exact ⟨h, trivial⟩
  | cons f fs ih =>
    obtain ⟨hin, hwhich⟩ := NodeGeometry.whichChild_of_contains (geomOf_lt hroot _) h
    exact ⟨(ih hin).1, by rw [cell_eq]; exact hwhich, (ih hin).2⟩

namespace FastHolds

variable {T : CellTree}

theorem shaped_top (h : FastHolds cfg I J σ V ncs fs t T) :
    Shaped cfg (geomOf cfg.rootGeometry (pathOf fs)) t := by
  have hs := h.shaped
  rw [← h.whole] at hs
  rw [← cell_eq]
  exact hs.of_plug

theorem points_le (h : FastHolds cfg I J σ V ncs fs t T) : points t ≤ points T := by
  rw [← h.whole]
  exact Policy.weight_le_plug _ t fs

/-- Closing the top never divides by zero. -/
theorem sum_ne_zero (h : FastHolds cfg I J σ V ncs (f :: fs) t T) :
    UInt64.ofNat (points (.branch (Function.update f.kids f.step t))) ≠ 0 := by
  have hw := h.whole
  rw [Policy.plug] at hw
  have hs := h.shaped
  rw [← hw] at hs
  refine ofNat_points_ne_zero hs.of_plug (by simp) ?_
  refine (Policy.weight_le_plug pointCount _ fs).trans_lt ?_
  rw [hw]
  exact h.bound

theorem toHolds (h : FastHolds cfg I J σ V ncs [] t T) {σ' : Store} (hf : σ'.files = σ.files)
    (hL : Live σ' []) : Holds cfg I σ' V T := by
  have hw : t = T := h.whole
  subst hw
  exact ⟨h.stores.congr hf, hL, h.opened, h.shaped, h.bound⟩

/-- A stack with only the root open has no frames. -/
theorem frames_eq {σ' : Store} {V' : Path → Option Node} {t' T' : CellTree}
    (h : FastHolds cfg I J σ V ncs fs t T) (h' : FastHolds cfg I' J' σ' V' ncs [] t' T') :
    fs = [] := by
  obtain ⟨L, -, hs⟩ := h.spine
  obtain ⟨L', -, hs'⟩ := h'.spine
  cases hs'
  cases hs with
  | root => rfl
  | push hs => cases hs

end FastHolds

section Life

variable {T : CellTree}

theorem wp_create {Q : List NodeCache → Store → Prop} (h : Holds cfg I σ V T)
    (hQ : ∀ ncs σ', σ'.files = σ.files → FastHolds cfg I J σ' V ncs [] T T → Q ncs σ') :
    Spec (FastCache.create cfg) Q X σ := by
  obtain ⟨n, hn, -⟩ := h.opened.node
  refine Prog.wp_bind.2 (wp_getRoot h.stores h.live hn fun σ₁ h₁ hL₁ => ?_)
  refine Prog.wp_bind.2 (wp_createNodeCache (h.stores.congr h₁) hL₁ .tok hn fun nc hnc _ => ?_)
  exact hQ [nc] σ₁ h₁ ⟨h.stores.congr h₁, ⟨_, hL₁, .root hnc⟩, h.opened, rfl, h.shaped, h.bound,
    fun h => absurd rfl h⟩

/-- The top is closed, in terms of the whole tree. -/
theorem wp_popTop {Q : Unit → Store → Prop} {nc : NodeCache}
    (h : FastHolds cfg I J σ V (nc :: ncs) (f :: fs) t T)
    (hI : ∀ ρ n ks, I ρ n ks → I' ρ n ks) (hJ : ∀ ρ n ks, J ρ n ks → J' ρ n ks)
    (hmerge : ∀ n n' o c, V (pathOf fs) = some n → V (f.step :: pathOf fs) = some c →
      nc.Keeps o → nc.origCnt ≤ c.count → nc.mergedNode f.step c n = .ok n' →
      (∀ i, n.hasChild i = true → i ≠ f.step → (V (i :: pathOf fs)).isSome) →
      J (pathOf fs) n (Function.update (childrenOf V (pathOf fs) n) f.step (some o)) →
      I' (pathOf fs) n' (Function.update (childrenOf V (pathOf fs) n) f.step (some c)))
    (hQ : ∀ n n' c V' σ', V (pathOf fs) = some n → V (f.step :: pathOf fs) = some c →
      nc.mergedNode f.step c n = .ok n' → V' = Function.update V (pathOf fs) (some n') →
      FastHolds cfg I' J' σ' V' ncs fs (.branch (Function.update f.kids f.step t)) T → Q () σ') :
    Spec (FastCache.pop nc ncs) Q X σ := by
  obtain ⟨L, hL, hs⟩ := h.spine
  have hne := h.occupied (by simp)
  obtain ⟨pc, ncs, rfl⟩ : ∃ pc rest, ncs = pc :: rest := by
    cases hs with
    | push hs => cases hs <;> exact ⟨_, _, rfl⟩
  refine wp_pop h.stores hL hs h.opened hne (h.points_le.trans_lt h.bound) h.sum_ne_zero hI hJ hmerge
    fun n n' c V' L' σ' hn hc hok hV hS' hL' hs' ht' => ?_
  exact hQ n n' c V' σ' hn hc hok hV
    ⟨hS', ⟨L', hL', hs'⟩, ht', h.whole, h.shaped, h.bound, fun _ => by simp⟩

/-- Closing the top keeps the tree. -/
theorem wp_popKeep {Q : Unit → Store → Prop} {nc : NodeCache}
    (h : FastHolds cfg noSummary noSummary σ V (nc :: ncs) (f :: fs) t T)
    (hQ : ∀ V' σ', FastHolds cfg noSummary noSummary σ' V' ncs fs
      (.branch (Function.update f.kids f.step t)) T → Q () σ') :
    Spec (FastCache.pop nc ncs) Q X σ :=
  wp_popTop h (fun _ _ _ h => h) (fun _ _ _ h => h) (fun _ _ _ _ _ _ _ _ _ _ _ => trivial)
    fun _ _ _ V' σ' _ _ _ _ h' => hQ V' σ' h'

/-- Open nodes are closed until the top contains the point. -/
theorem wp_popOutside {Q : List NodeCache → Store → Prop} {pt : Vec}
    (h : FastHolds cfg noSummary noSummary σ V ncs fs t T)
    (hX : cfg.rootGeometry.contains pt = false → X .emptyStack)
    (hQ : ∀ ncs' fs' t' V' σ', FastHolds cfg noSummary noSummary σ' V' ncs' fs' t' T →
      (geomOf cfg.rootGeometry (pathOf fs')).contains pt = true → Q ncs' σ') :
    Spec (FastCache.popOutside pt ncs) Q X σ := by
  induction fs generalizing ncs t V σ with
  | nil =>
    obtain ⟨L, hL, hs⟩ := h.spine
    cases hs with
    | @root nc m _ hnh =>
      unfold FastCache.popOutside
      rw [hnh]
      by_cases hin : cfg.rootGeometry.contains pt = true
      · rw [if_pos (show (handleAt cfg [] m).nodeGeom.contains pt = true from hin)]
        exact hQ _ [] t V σ h hin
      · rw [if_neg (show ¬ (handleAt cfg [] m).nodeGeom.contains pt = true from hin)]
        unfold FastCache.pop NodeCache.release
        rw [hnh]
        refine Prog.wp_bind.2 (Prog.wp_bind.2 (wp_releaseNode_handleAt hL fun σ₁ h₁ hL₁ => ?_))
        exact hX (by simpa using hin)
  | cons f fs ih =>
    obtain ⟨L, -, hs⟩ := h.spine
    cases hs with
    | @push nc ncs _ _ L m n o _ hs hnh =>
    unfold FastCache.popOutside
    rw [hnh]
    by_cases hin : (geomOf cfg.rootGeometry (f.step :: pathOf fs)).contains pt = true
    · rw [if_pos (show (handleAt cfg (f.step :: pathOf fs) m).nodeGeom.contains pt = true from hin)]
      exact hQ _ (f :: fs) t V σ h hin
    · rw [if_neg (show ¬ (handleAt cfg (f.step :: pathOf fs) m).nodeGeom.contains pt = true from hin)]
      exact Prog.wp_bind.2 (wp_popKeep h fun V' σ' h' => ih h')

/-- An insertion below the top is an insertion into the whole tree. -/
theorem wp_addTop {Q : List NodeCache → Store → Prop} {p : Vec × Vec} (hJ : Tolerant I J)
    (h : FastHolds cfg I J σ V ncs fs t T) (hB : points T + 1 < countBound)
    (hin : (geomOf cfg.rootGeometry (pathOf fs)).contains p.1 = true)
    (hXd : insertPoints cfg [p] T = none → X .depthLimit)
    (hQ : ∀ u ncs' fs' t' V' σ', insertPoints cfg [p] T = some u →
      FastHolds cfg I J σ' V' ncs' fs' t' u → points u = points T + 1 → Q ncs' σ') :
    Spec (FastCache.addPointRecursive cfg p.1 p.2 cfg.minCellSize maxLevel ncs) Q X σ := by
  obtain ⟨hroot, hleads⟩ := leads_of_contains (c := p.2) hin
  rw [insertPoints_single hroot] at hXd hQ
  obtain ⟨L, hL, hs⟩ := h.spine
  obtain ⟨nc, ncs, rfl⟩ : ∃ nc rest, ncs = nc :: rest := by cases hs <;> exact ⟨_, _, rfl⟩
  have hle := h.points_le
  have hlen : fs.length ≤ maxDepth := by
    obtain ⟨n, hn, -⟩ := h.opened.node
    have := h.stores.length_le hn
    rwa [length_pathOf] at this
  have hplug := Policy.insert_plug (n := maxDepth - fs.length) (t := t) hleads
  rw [show maxDepth - fs.length + fs.length = maxDepth by omega, h.whole, cell_eq] at hplug
  refine wp_fastAddPointRecursive hJ h.stores hL hs h.opened h.shaped_top
    (by omega) hin (by simp only [maxDepth, maxLevel]; omega) (fun hnone => ?_)
    fun v ncs' fs' t' L' V' σ' hv hwhole hne hS' hL' hs' ht' => ?_
  · exact hXd (by rw [hplug, hnone]; rfl)
  · rw [hv, Option.map_some] at hplug
    have hw : points (Policy.plug v fs) = points T + 1 :=
      Policy.weight_insert pointCount_single pointCount_merge pointCount_push hB hplug
    refine hQ _ ncs' fs' t' V' σ' hplug
      ⟨hS', ⟨L', hL', hs'⟩, ht', hwhole, ?_, by rw [hw]; exact hB, fun _ => hne⟩ hw
    exact h.shaped.insert keeps_pointPolicy fine_of_finest pointCount_push hB hplug

theorem wp_fastAddPoint {Q : List NodeCache → Store → Prop} {p : Vec × Vec}
    (h : FastHolds cfg noSummary noSummary σ V ncs fs t T) (hB : points T + 1 < countBound)
    (hXo : cfg.rootGeometry.contains p.1 = false → X .emptyStack)
    (hXd : insertPoints cfg [p] T = none → X .depthLimit)
    (hQ : ∀ u ncs' fs' t' V' σ', insertPoints cfg [p] T = some u →
      FastHolds cfg noSummary noSummary σ' V' ncs' fs' t' u → points u = points T + 1 → Q ncs' σ') :
    Spec (FastCache.addPoint cfg p.1 p.2 ncs) Q X σ :=
  Prog.wp_bind.2 (wp_popOutside h hXo fun _ _ _ _ _ h₁ hin =>
    wp_addTop tolerant_noSummary h₁ hB hin hXd hQ)

theorem wp_fastAddPoints {Q : List NodeCache → Store → Prop} {pts : List (Vec × Vec)}
    (h : FastHolds cfg noSummary noSummary σ V ncs fs t T)
    (hB : points T + pts.length < countBound)
    (hXo : (∃ p ∈ pts, cfg.rootGeometry.contains p.1 = false) → X .emptyStack)
    (hXd : insertPoints cfg pts T = none → X .depthLimit)
    (hQ : ∀ u ncs' fs' t' V' σ', insertPoints cfg pts T = some u →
      points u = points T + pts.length → FastHolds cfg noSummary noSummary σ' V' ncs' fs' t' u →
      (pts = [] → ncs' = ncs ∧ σ' = σ) → Q ncs' σ') :
    Spec (FastCache.addPoints cfg pts ncs) Q X σ := by
  induction pts generalizing ncs fs t T V σ with
  | nil =>
    exact hQ T ncs fs t V σ rfl rfl h fun _ => ⟨rfl, rfl⟩
  | cons p pts ih =>
    rw [insertPoints_cons] at hXd hQ
    rw [List.length_cons] at hB hQ
    refine Prog.wp_bind.2 (wp_fastAddPoint h (by omega) (fun ho => hXo ⟨p, List.mem_cons_self, ho⟩)
      (fun hnone => hXd (by rw [hnone]; rfl)) fun v ncs₁ fs₁ t₁ V₁ σ₁ hv h₁ hw => ?_)
    rw [hv, Option.bind_some] at hXd hQ
    refine ih h₁ (by omega) (fun ⟨q, hq, ho⟩ => hXo ⟨q, List.mem_cons_of_mem _ hq, ho⟩) hXd
      fun u ncs' fs' t' V' σ' hu hw' h' _ => ?_
    exact hQ u ncs' fs' t' V' σ' hu (by omega) h' fun h => nomatch h

/-- The destructor closes every open node and keeps the tree. -/
theorem wp_destroy {Q : Unit → Store → Prop}
    (h : FastHolds cfg noSummary noSummary σ V ncs fs t T)
    (hQ : ∀ V' σ', Holds cfg noSummary σ' V' T → (fs = [] → σ'.files = σ.files) → Q () σ') :
    Spec (FastCache.destroy ncs) Q X σ := by
  induction fs generalizing ncs t V σ with
  | nil =>
    obtain ⟨L, hL, hs⟩ := h.spine
    cases hs with
    | @root nc m _ hnh =>
      unfold FastCache.destroy FastCache.pop NodeCache.release
      rw [hnh]
      refine Prog.wp_bind.2 (Prog.wp_bind.2 (wp_releaseNode_handleAt hL fun σ₁ h₁ hL₁ => ?_))
      exact hQ V σ₁ (h.toHolds h₁ hL₁) fun _ => h₁
  | cons f fs ih =>
    obtain ⟨nc, ncs, rfl⟩ : ∃ nc rest, ncs = nc :: rest := by
      obtain ⟨L, -, hs⟩ := h.spine
      cases hs
      exact ⟨_, _, rfl⟩
    refine Prog.wp_bind.2 (wp_popKeep h fun V₁ σ₁ h₁ => ?_)
    exact ih h₁ fun V' σ' h' _ => hQ V' σ' h' fun h => nomatch h

/-- A fast cache inserts its points into the tree. -/
theorem wp_insertAll {Q : Unit → Store → Prop} {pts : List (Vec × Vec)}
    (h : Holds cfg noSummary σ V T) (hB : points T + pts.length < countBound)
    (hXo : (∃ p ∈ pts, cfg.rootGeometry.contains p.1 = false) → X .emptyStack)
    (hXd : insertPoints cfg pts T = none → X .depthLimit)
    (hQ : ∀ u V' σ', insertPoints cfg pts T = some u → Holds cfg noSummary σ' V' u →
      points u = points T + pts.length → (pts = [] → σ'.files = σ.files) → Q () σ') :
    Spec (FastCache.insertAll cfg pts) Q X σ := by
  refine Prog.wp_bind.2 (wp_create (J := noSummary) h fun ncs₁ σ₁ hf₁ h₁ => ?_)
  refine Prog.wp_bind.2 (wp_fastAddPoints h₁ hB hXo hXd
    fun u ncs₂ fs t V₂ σ₂ hu hw h₂ hnil₂ => ?_)
  refine wp_destroy h₂ fun V₃ σ₃ h₃ hnil₃ => hQ u V₃ σ₃ hu h₃ hw fun hpts => ?_
  obtain ⟨rfl, rfl⟩ := hnil₂ hpts
  rw [hnil₃ (h₂.frames_eq h₁), hf₁]

end Life

end MegaTree
