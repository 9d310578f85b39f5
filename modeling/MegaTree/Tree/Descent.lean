import MegaTree.Tree.Always

/-!
# Descending to the cell of a point

`getChild` and `whichChild` compute the middle of a cell in two places.  Here the middle is any
function `mid` of the two borders, exact or rounded, and the insertion algorithms are those of
`MegaTree.Tree.AddPoint` with the cells of the children computed by `mid`; with `halfway` they are
the same programs (`addPointBy_halfway`, `FastCache.addPointBy_halfway`).

* `contains_childBy_iff` : a point of a cell lies in the child that `whichChild` names and in no
  other, whatever `mid` is.
* `insertion_in_cell` : so no insertion path leaves the cells that contain the point, and neither the
  abort of `setPoint` nor the assertion of `addPoint` is ever reached.
-/

namespace MegaTree

open Effect

/-- The middle of an interval without rounding. -/
def halfway (lo hi : ℚ) : ℚ := (lo + hi) / 2

namespace NodeGeometry

variable (mid : ℚ → ℚ → ℚ) (g : NodeGeometry)

/-- `mid` in `getChild`, and `center` in `whichChild`. -/
def centerBy (i : Axis) : ℚ := mid (g.lo i) (g.hi i)

/-- `getChild(to_child)` -/
def childBy (toChild : ChildNr) : NodeGeometry where
  lo i := if upper toChild i then g.centerBy mid i else g.lo i
  hi i := if upper toChild i then g.hi i else g.centerBy mid i
  level := g.level + 1

/-- `whichChild(pnt)` -/
def whichChildBy (pnt : Vec) : ChildNr := childOf fun i => decide (g.centerBy mid i ≤ pnt i)

variable {mid g}

theorem childBy_halfway (c : ChildNr) : g.childBy halfway c = g.getChild c := rfl

theorem whichChildBy_halfway (pnt : Vec) : g.whichChildBy halfway pnt = g.whichChild pnt := rfl

/-- A point of a cell lies in exactly one child: the one that `whichChild` names. -/
theorem contains_childBy_iff {pt : Vec} (h : g.contains pt = true) (c : ChildNr) :
    (g.childBy mid c).contains pt = true ↔ c = g.whichChildBy mid pt := by
  rw [contains_iff] at h ⊢
  constructor
  · intro hc
    rw [← childOf_upper c, whichChildBy]
    refine congrArg childOf (funext fun i => ?_)
    have hi := hc i
    simp only [childBy] at hi
    cases hu : upper c i with
    | true => rw [hu] at hi; exact (decide_eq_true hi.1).symm
    | false => rw [hu] at hi; exact (decide_eq_false (not_le.2 hi.2)).symm
  · rintro rfl i
    simp only [childBy, whichChildBy, upper_childOf, decide_eq_true_eq]
    split_ifs with hc
    · exact ⟨hc, (h i).2⟩
    · exact ⟨(h i).1, not_le.1 hc⟩

end NodeGeometry

/-- The cell after a chain of `getChild` calls. -/
def geomBy (mid : ℚ → ℚ → ℚ) (root : NodeGeometry) : Path → NodeGeometry
  | [] => root
  | c :: π => (geomBy mid root π).childBy mid c

/-- The first `d` steps of the descent towards a point. -/
def descentBy (mid : ℚ → ℚ → ℚ) (root : NodeGeometry) (pt : Vec) : ℕ → Path
  | 0 => []
  | d + 1 =>
    (geomBy mid root (descentBy mid root pt d)).whichChildBy mid pt :: descentBy mid root pt d

theorem contains_descentBy {mid : ℚ → ℚ → ℚ} {root : NodeGeometry} {pt : Vec}
    (h : root.contains pt = true) (d : ℕ) :
    (geomBy mid root (descentBy mid root pt d)).contains pt = true := by
  induction d with
  | zero => exact h
  | succ d ih => exact (NodeGeometry.contains_childBy_iff ih _).2 rfl

/-! ### The insertion algorithms -/

variable (cfg : Config) (mid : ℚ → ℚ → ℚ)

/-- `openChild`, with the cell of the child computed by `mid`. -/
def openChildBy (node : NodeHandle) (newChild : ChildNr) : TreeM (NodeHandle × NodeHandle) := do
  let (node, newChildNode) ← openChild cfg node newChild
  pure (node, { newChildNode with nodeGeom := node.nodeGeom.childBy mid newChild })

/-- `addPointRecursive(tree, node, pt, color, point_accuracy)` -/
def addPointRecursiveBy (pt color : Vec) (pointAccuracy : ℚ) : ℕ → NodeHandle → TreeM NodeHandle
  | 0, _ => Prog.fail .outOfFuel
  | fuel + 1, node => do
    let nodeCellSize := node.nodeGeom.getSize
    let n ← node.get
    if n.isEmpty && decide (nodeCellSize / bitsD ≤ pointAccuracy) then
      node.setPoint pt color
    else if nodeCellSize < cfg.minCellSize then
      node.addPoint pt color
    else
      let node ← splitLeaf cfg node
      let (node, newChildNode) ← openChildBy cfg mid node (node.nodeGeom.whichChildBy mid pt)
      let newChildNode ← addPointRecursiveBy pt color pointAccuracy fuel newChildNode
      let newChildNode ← releaseNode newChildNode
      let children ← ChildIterator.create cfg node newChildNode.nodeFile
      let node ← node.copyFromChildNodes children
      ChildIterator.destroy children (List.finRange 8)
      pure node

/-- `addPoint(tree, pt, col)` -/
def addPointBy (pt col : Vec) : TreeM Unit :=
  if cfg.rootGeometry.contains pt then do
    let root ← getRoot cfg
    let root ← addPointRecursiveBy cfg mid pt col cfg.minCellSize maxLevel root
    let _ ← releaseNode root
    pure ()
  else pure ()

namespace FastCache

/-- `TreeFastCache::addPointRecursive(pt, color, point_accuracy)` -/
def addPointRecursiveBy (pt color : Vec) (pointAccuracy : ℚ) :
    ℕ → List NodeCache → TreeM (List NodeCache)
  | 0, _ => Prog.fail .outOfFuel
  | _ + 1, [] => Prog.fail .emptyStack
  | fuel + 1, nc :: nodes => do
    let nh := nc.nh
    let nodeCellSize := nh.nodeGeom.getSize
    let n ← nh.get
    if n.isEmpty && decide (nodeCellSize / bitsD ≤ pointAccuracy) then
      let nh ← nh.setPoint pt color
      pure ({ nc with nh := nh } :: nodes)
    else if nodeCellSize < cfg.minCellSize then
      let nh ← nh.addPoint pt color
      pure ({ nc with nh := nh } :: nodes)
    else
      let nh ← splitLeaf cfg nh
      let (nh, newChild) ← openChildBy cfg mid nh (nh.nodeGeom.whichChildBy mid pt)
      let newNc ← NodeCache.create newChild
      addPointRecursiveBy pt color pointAccuracy fuel (newNc :: { nc with nh := nh } :: nodes)

/-- `TreeFastCache::addPoint(pt, color)` -/
def addPointBy (pt color : Vec) (nodes : List NodeCache) : TreeM (List NodeCache) := do
  let nodes ← popOutside pt nodes
  addPointRecursiveBy cfg mid pt color cfg.minCellSize maxLevel nodes

end FastCache

/-! ### What is kept on the way down -/

variable (P : CacheOp → Prop) (X : Err → Prop) (pt : Vec)

/-- What `J` knows about the ids and cells of the nodes on the way to a point, with the number of
calls that are left: each one takes the point, or has a child that is one call further. -/
structure Descent (J : ℕ → LongId → NodeGeometry → Prop) : Prop where
  fuel : ∀ id g, J 0 id g → X .outOfFuel
  point : ∀ k id g, J (k + 1) id g → g.contains pt = true ∨ X .notInGeometry
  down : ∀ k id g, J (k + 1) id g → cfg.minCellSize ≤ g.getSize → MayDescend cfg P X id
  child : ∀ k id g childId, J (k + 1) id g → cfg.minCellSize ≤ g.getSize →
    id.getChild (g.whichChildBy mid pt) = .ok childId →
    J k childId (g.childBy mid (g.whichChildBy mid pt))

variable {cfg mid P X pt} {node : NodeHandle} {child : ChildNr} {color : Vec}
  {J : ℕ → LongId → NodeGeometry → Prop} {pointAccuracy : ℚ}

theorem always_openChildBy (hX : Permits P X) (hd : MayDescend cfg P X node.id) :
    (openChildBy cfg mid node child).Always P (fun r => r.1.id = node.id ∧
      r.1.nodeGeom = node.nodeGeom ∧ node.id.getChild child = .ok r.2.id ∧
      r.2.nodeGeom = node.nodeGeom.childBy mid child) X :=
  (always_openChild hX hd).bind fun r hr =>
    ⟨hr.parentId, hr.parentGeom, hr.id, by simp only [hr.parentGeom]⟩

/-- The way down along `J`; the handle of the node comes back. -/
theorem always_addPointRecursiveBy (hX : Permits P X) (hJ : Descent cfg mid P X pt J) {fuel : ℕ}
    (h : J fuel node.id node.nodeGeom) :
    (addPointRecursiveBy cfg mid pt color pointAccuracy fuel node).Always P (fun _ => True) X := by
  induction fuel generalizing node with
  | zero => exact hJ.fuel _ _ h
  | succ fuel ih =>
    refine (always_get hX).bind fun n _ => Prog.Always.ite (fun _ => ?_) fun _ => ?_
    · exact (always_setPoint hX (hJ.point _ _ _ h)).mono fun _ _ => trivial
    refine Prog.Always.ite (fun _ => ?_) fun hsize => ?_
    · exact (always_addPoint hX (hJ.point _ _ _ h)).mono fun _ _ => trivial
    have hmin := not_lt.1 hsize
    have hd := hJ.down _ _ _ h hmin
    -- splitting a leaf does not move the node
    refine (always_splitLeaf hX hd).bind fun node' hnode => ?_
    rw [← hnode.1] at hd
    refine (always_openChildBy hX hd).bind fun r ⟨hid, hgeom, hchild, hcell⟩ => ?_
    rw [hnode.1, hnode.2] at hchild
    rw [hnode.2] at hcell
    have hJ' : J fuel r.2.id r.2.nodeGeom := by
      rw [hcell]
      exact hJ.child _ _ _ _ h hmin hchild
    refine (ih hJ').bind fun _ _ => (always_releaseNode hX).bind fun h' hh' => ?_
    rw [← hid] at hd
    rw [hh']
    refine (always_createIterator hX hd).bind fun children _ => ?_
    refine (always_copyFromChildNodes hX children).bind fun _ _ => ?_
    exact (always_destroyIterator hX children _).bind fun _ _ => trivial

theorem always_addPointBy (hX : Permits P X) (hJ : Descent cfg mid P X pt J)
    (hr : P (.readNode (getFileId cfg rootId) (getShortId cfg rootId)))
    (h : cfg.rootGeometry.contains pt = true → J maxLevel rootId cfg.rootGeometry) :
    (addPointBy cfg mid pt color).Always P (fun _ => True) X := by
  refine Prog.Always.ite (fun hin => ?_) fun _ => trivial
  refine (always_getRoot hX hr).bind fun root hroot => ?_
  have hroot' : J maxLevel root.id root.nodeGeom := by
    rw [hroot.1, hroot.2]
    exact h hin
  refine (always_addPointRecursiveBy hX hJ hroot').bind fun _ _ => ?_
  exact (always_releaseNode hX).bind fun _ _ => trivial

namespace FastCache

/-- The stack grows along `J`: every new node is at an id and a cell that `K` allows. -/
theorem always_addPointRecursiveBy {K : LongId → NodeGeometry → Prop} (hX : Permits P X)
    (hJ : Descent cfg mid P X pt J) (hK : ∀ k id g, J k id g → K id g) {fuel : ℕ} {nc : NodeCache}
    {nodes : List NodeCache} (h : J fuel nc.nh.id nc.nh.nodeGeom)
    (hn : ∀ nc ∈ nodes, K nc.nh.id nc.nh.nodeGeom) :
    (addPointRecursiveBy cfg mid pt color pointAccuracy fuel (nc :: nodes)).Always P
      (fun nodes' => ∀ nc ∈ nodes', K nc.nh.id nc.nh.nodeGeom) X := by
  induction fuel generalizing nc nodes with
  | zero => exact hJ.fuel _ _ h
  | succ fuel ih =>
    have keep : ∀ {nh : NodeHandle}, nh.id = nc.nh.id → nh.nodeGeom = nc.nh.nodeGeom →
        ∀ nc' ∈ { nc with nh := nh } :: nodes, K nc'.nh.id nc'.nh.nodeGeom := by
      intro nh hid hgeom nc' hmem
      rcases List.mem_cons.1 hmem with rfl | hmem
      · simp only [hid, hgeom]
        exact hK _ _ _ h
      · exact hn nc' hmem
    refine (always_get hX).bind fun n _ => Prog.Always.ite (fun _ => ?_) fun _ => ?_
    · exact (always_setPoint hX (hJ.point _ _ _ h)).bind fun nh hnh =>
        keep (by rw [hnh]) (by rw [hnh])
    refine Prog.Always.ite (fun _ => ?_) fun hsize => ?_
    · exact (always_addPoint hX (hJ.point _ _ _ h)).bind fun nh hnh =>
        keep (by rw [hnh]) (by rw [hnh])
    have hmin := not_lt.1 hsize
    have hd := hJ.down _ _ _ h hmin
    refine (always_splitLeaf hX hd).bind fun nh hnh => ?_
    rw [← hnh.1] at hd
    refine (always_openChildBy hX hd).bind fun r ⟨hid, hgeom, hchild, hcell⟩ => ?_
    rw [hnh.1, hnh.2] at hchild
    rw [hnh.2] at hcell
    refine (always_createNodeCache hX).bind fun nc' hnc => ih ?_ (keep ?_ ?_)
    · rw [hnc, hcell]
      exact hJ.child _ _ _ _ h hmin hchild
    · exact hid.trans hnh.1
    · exact hgeom.trans hnh.2

theorem always_addPointBy {K : LongId → NodeGeometry → Prop} (hX : Permits P X)
    (hJ : Descent cfg mid P X pt J) (hK : ∀ k id g, J k id g → K id g) {nodes : List NodeCache}
    (h : ∀ nc ∈ nodes, nc.nh.nodeGeom.contains pt = true → J maxLevel nc.nh.id nc.nh.nodeGeom)
    (hn : ∀ nc ∈ nodes, K nc.nh.id nc.nh.nodeGeom) :
    (addPointBy cfg mid pt color nodes).Always P
      (fun nodes' => ∀ nc ∈ nodes', K nc.nh.id nc.nh.nodeGeom) X := by
  refine (always_popOutside hX nodes).bind fun nodes' hpop => ?_
  obtain ⟨hsuf, nc, rest, rfl, hin⟩ := hpop
  have hmem : ∀ x ∈ nc :: rest, x ∈ nodes := fun x hx => hsuf.subset hx
  exact always_addPointRecursiveBy hX hJ hK (h nc (hmem nc List.mem_cons_self) hin)
    fun x hx => hn x (hmem x (List.mem_cons_of_mem nc hx))

end FastCache

/-! ### The cells on the way down contain the point -/

/-- All errors but the abort of `setPoint` and the assertion of `addPoint`. -/
abbrev InCell (e : Err) : Prop := e ≠ .notInGeometry

theorem permits_inCell : Permits (fun _ => True) InCell :=
  ⟨fun _ _ => trivial, nofun, nofun, nofun, nofun, nofun, nofun⟩

theorem descent_contains (cfg : Config) (mid : ℚ → ℚ → ℚ) (pt : Vec) :
    Descent cfg mid (fun _ => True) InCell pt fun _ _ g => g.contains pt = true where
  fuel _ _ _ := nofun
  point _ _ _ h := .inl h
  down _ id _ _ _ := by
    refine ⟨fun _ _ _ => trivial, fun _ _ _ _ _ _ => trivial, fun c e he => ?_⟩
    unfold LongId.getChild at he
    split_ifs at he
    cases he
    exact nofun
  child _ _ _ _ h _ _ := (NodeGeometry.contains_childBy_iff h _).2 rfl

theorem always_addPointBy_inCell (cfg : Config) (mid : ℚ → ℚ → ℚ) (pt col : Vec) :
    (addPointBy cfg mid pt col).Always (fun _ => True) (fun _ => True) InCell :=
  always_addPointBy permits_inCell (descent_contains cfg mid pt) trivial id

theorem FastCache.always_addPointBy_inCell (cfg : Config) (mid : ℚ → ℚ → ℚ) (pt col : Vec)
    (nodes : List NodeCache) :
    (FastCache.addPointBy cfg mid pt col nodes).Always (fun _ => True) (fun _ => True) InCell :=
  (FastCache.always_addPointBy (K := fun _ _ => True) permits_inCell (descent_contains cfg mid pt)
    (fun _ _ _ _ => trivial) (fun _ _ h => h) fun _ _ => trivial).mono fun _ _ => trivial

/-! ### Without rounding -/

theorem openChildBy_halfway : openChildBy cfg halfway node child = openChild cfg node child := by
  -- nothing is assumed about the operations and errors: only the value that is returned matters
  refine Prog.Always.bind_eq_self (P := fun _ => True) (X := fun _ => True)
    (always_openChild ⟨fun _ _ => trivial, trivial, trivial, trivial, trivial, trivial, trivial⟩
      ⟨fun _ _ _ => trivial, fun _ _ _ _ _ _ => trivial, fun _ _ _ => trivial⟩) fun r hr => ?_
  obtain ⟨parent, child', geom, id, file, modified⟩ := r
  obtain ⟨-, hparent, -, hgeom⟩ := hr
  simp only at hparent hgeom
  simp only [hparent, hgeom, NodeGeometry.childBy_halfway]
  rfl

theorem addPointRecursiveBy_halfway {pointAccuracy : ℚ} (fuel : ℕ) (node : NodeHandle) :
    addPointRecursiveBy cfg halfway pt color pointAccuracy fuel node =
      addPointRecursive cfg pt color pointAccuracy fuel node := by
  induction fuel generalizing node with
  | zero => rfl
  | succ fuel ih =>
    simp only [addPointRecursiveBy, addPointRecursive, openChildBy_halfway,
      NodeGeometry.whichChildBy_halfway, ih]

theorem addPointBy_halfway : addPointBy cfg halfway pt color = addPoint cfg pt color := by
  simp only [addPointBy, addPoint, addPointRecursiveBy_halfway]

namespace FastCache

theorem addPointRecursiveBy_halfway {pointAccuracy : ℚ} (fuel : ℕ) (nodes : List NodeCache) :
    addPointRecursiveBy cfg halfway pt color pointAccuracy fuel nodes =
      addPointRecursive cfg pt color pointAccuracy fuel nodes := by
  induction fuel generalizing nodes with
  | zero => rfl
  | succ fuel ih =>
    cases nodes with
    | nil => rfl
    | cons nc nodes =>
      simp only [addPointRecursiveBy, addPointRecursive, openChildBy_halfway,
        NodeGeometry.whichChildBy_halfway, ih]

theorem addPointBy_halfway (nodes : List NodeCache) :
    addPointBy cfg halfway pt color nodes = addPoint cfg pt color nodes := by
  simp only [addPointBy, addPoint, addPointRecursiveBy_halfway]

end FastCache

/-- Under no meaning of the operations an insertion is aborted because a point is not in a cell. -/
theorem exec_addPoint_inCell {C S : Type} {h : Handler cacheSig C S} {s s' : S} {e : Err}
    (he : Prog.Exec h (addPoint cfg pt color) s (.fail e) s') : e ≠ .notInGeometry := by
  rw [← addPointBy_halfway] at he
  exact (always_addPointBy_inCell cfg halfway pt color).exec he

theorem FastCache.exec_addPoint_inCell {C S : Type} {h : Handler cacheSig C S} {s s' : S} {e : Err}
    {nodes : List NodeCache}
    (he : Prog.Exec h (FastCache.addPoint cfg pt color nodes) s (.fail e) s') :
    e ≠ .notInGeometry := by
  rw [← FastCache.addPointBy_halfway] at he
  exact (FastCache.always_addPointBy_inCell cfg halfway pt color nodes).exec he

/-- **Descending by `whichChild` never leaves the cell**, whatever function of the two borders the
middle is.  A point of a cell lies in exactly one child, the one that is named; the cells on the way
down all contain the point; and neither insertion algorithm reaches the abort of `setPoint` or the
assertion of `addPoint`, with any open nodes and any replies of the file cache. -/
theorem insertion_in_cell (cfg : Config) (mid : ℚ → ℚ → ℚ) (pt : Vec) :
    (∀ π, (geomBy mid cfg.rootGeometry π).contains pt = true → ∀ c,
      ((geomBy mid cfg.rootGeometry π).childBy mid c).contains pt = true ↔
        c = (geomBy mid cfg.rootGeometry π).whichChildBy mid pt) ∧
    (cfg.rootGeometry.contains pt = true → ∀ d,
      (geomBy mid cfg.rootGeometry (descentBy mid cfg.rootGeometry pt d)).contains pt = true) ∧
    (∀ col, (addPointBy cfg mid pt col).Always (fun _ => True) (fun _ => True) InCell) ∧
    ∀ col nodes, (FastCache.addPointBy cfg mid pt col nodes).Always (fun _ => True) (fun _ => True)
      InCell :=
  ⟨fun _ h c => NodeGeometry.contains_childBy_iff h c, contains_descentBy,
    always_addPointBy_inCell cfg mid pt, FastCache.always_addPointBy_inCell cfg mid pt⟩

/-- The two algorithms as they are, without rounding: no execution reaches the error. -/
theorem insertion_in_cell_sample :
    (addPoint .sample (fun _ => 1) fun _ => 0).Always (fun _ => True) (fun _ => True) InCell ∧
      ((geomBy halfway Config.sample.rootGeometry []).childBy halfway 7).contains (fun _ => 1) =
        true := by
  have h := insertion_in_cell .sample halfway fun _ => 1
  have hadd := h.2.2.1 fun _ => 0
  rw [addPointBy_halfway] at hadd
  exact ⟨hadd, (h.1 [] (by decide +kernel) 7).2 (by decide +kernel)⟩

end MegaTree
