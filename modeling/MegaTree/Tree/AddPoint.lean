import MegaTree.Tree.Basic

/-!
# Inserting points

The two insertion algorithms of `tree_functions.cpp`.

* `addPoint` walks from the root to a leaf and recomputes the summary of every node on the way
  back.
* `TreeFastCache` keeps the nodes on the way to the last point open (`FastCache.addPoint` starts
  from the deepest of them that contains the new point) and folds the change of a node into its
  parent only when the node is closed (`FastCache.pop`).

Both share the two middle steps: `splitLeaf` pushes the point of an occupied leaf one level down
and `openChild` fetches or creates the child to continue with.
-/

namespace MegaTree

open Effect

variable (cfg : Config)

/-- An occupied leaf gets a child that takes over its point. -/
def splitLeaf (node : NodeHandle) : TreeM NodeHandle := do
  let n ← node.get
  if !n.isEmpty && n.isLeaf then
    let originalChild := n.getChildForNodePoint
    let (node, newLeaf) ← createChildNode cfg node originalChild
    let n ← node.get
    let c ← newLeaf.get
    let c' ← Prog.lift (n.copyToChildNode originalChild c)
    newLeaf.overwrite c' .copy
    let _ ← releaseNode newLeaf
    pure node
  else pure node

/-- The child to continue with: loaded if it exists, otherwise created. -/
def openChild (node : NodeHandle) (newChild : ChildNr) : TreeM (NodeHandle × NodeHandle) := do
  let n ← node.get
  if n.hasChild newChild then
    let newChildNode ← getChildNode cfg node newChild
    newChildNode.waitUntilLoaded
    pure (node, newChildNode)
  else createChildNode cfg node newChild

/-- `addPointRecursive(tree, node, pt, color, point_accuracy)`: the handle of `node` afterwards.
The recursion ends at the latest when `getChild` refuses to go deeper. -/
def addPointRecursive (pt color : Vec) (pointAccuracy : ℚ) : ℕ → NodeHandle → TreeM NodeHandle
  | 0, _ => Prog.fail .outOfFuel
  | fuel + 1, node => do
    let nodeCellSize := node.nodeGeom.getSize
    let n ← node.get
    if n.isEmpty && decide (nodeCellSize / bitsD ≤ pointAccuracy) then
      node.setPoint pt color
    else if nodeCellSize < cfg.minCellSize then
      node.addPoint pt color
    else
      let node ← splitLeaf cfg node
      let (node, newChildNode) ← openChild cfg node (node.nodeGeom.whichChild pt)
      let newChildNode ← addPointRecursive pt color pointAccuracy fuel newChildNode
      let newChildNode ← releaseNode newChildNode
      -- the handle was just released, so its file is `NULL` and the iterator looks it up again
      let children ← ChildIterator.create cfg node newChildNode.nodeFile
      let node ← node.copyFromChildNodes children
      ChildIterator.destroy children (List.finRange 8)
      pure node

/-- The recursion visits at most one node per level. -/
def maxLevel : ℕ := 42

/-- `addPoint(tree, pt, col)`; a point outside the root cell only causes a message. -/
def addPoint (pt col : Vec) : TreeM Unit :=
  if cfg.rootGeometry.contains pt then do
    let root ← getRoot cfg
    let root ← addPointRecursive cfg pt col cfg.minCellSize maxLevel root
    let _ ← releaseNode root
    pure ()
  else pure ()

/-- A sequence of calls of `addPoint`. -/
def addPoints : List (Vec × Vec) → TreeM Unit
  | [] => pure ()
  | (pt, col) :: pts => do
    addPoint cfg pt col
    addPoints pts

/-! ### Fast insertion -/

/-- `NodeCache`: an open node, with its values at the time it was opened. -/
structure NodeCache where
  /-- `nh` -/
  nh : NodeHandle
  /-- `orig_pnt` -/
  origPnt : Axis → UInt64
  /-- `orig_col` -/
  origCol : Axis → UInt64
  /-- `orig_cnt` -/
  origCnt : UInt64

namespace NodeCache

/-- The constructor `NodeCache(nh)`. -/
def create (nh : NodeHandle) : TreeM NodeCache := do
  let n ← nh.get
  pure ⟨nh, fun i => (n.point i).toUInt64, fun i => (n.color i).toUInt64, n.count⟩

/-- `diff_cnt`, for the open child `c`; `nc` holds its values at the time it was opened. -/
def diffCnt (nc : NodeCache) (c : Node) : UInt64 := c.count - nc.origCnt

/-- `diff_sum_pnt` -/
def diffSumPnt (nc : NodeCache) (childNr : ChildNr) (c : Node) (i : Axis) : UInt64 :=
  (c.point i).toUInt64 * c.count - nc.origPnt i * nc.origCnt +
    Node.getChildBitOffset childNr i * nc.diffCnt c

/-- `diff_sum_col` -/
def diffSumCol (nc : NodeCache) (c : Node) (i : Axis) : UInt64 :=
  (c.color i).toUInt64 * c.count - nc.origCol i * nc.origCnt

/-- The quotient that is stored in the position of the parent `n`, before it is cut to 16 bits. -/
def mergedPnt (nc : NodeCache) (childNr : ChildNr) (c n : Node) (i : Axis) : UInt64 :=
  ((n.point i).toUInt64 * n.count + nc.diffSumPnt childNr c i) / (n.count + nc.diffCnt c)

/-- The quotient that is stored in the color of the parent `n`, before it is cut to 8 bits. -/
def mergedCol (nc : NodeCache) (c n : Node) (i : Axis) : UInt64 :=
  ((n.color i).toUInt64 * n.count + nc.diffSumCol c i) / (n.count + nc.diffCnt c)

/-- The node that `mergeChild` leaves: `n` is the parent and `c` the open child with the number
`childNr`. -/
def mergedNode (nc : NodeCache) (childNr : ChildNr) (c n : Node) : Except Err Node :=
  if n.count + nc.diffCnt c = 0 then .error .divideByZero
  else .ok { n with
    point := fun i => (nc.mergedPnt childNr c n i).toUInt16
    color := fun i => (nc.mergedCol c n i).toUInt8
    count := n.count + nc.diffCnt c }

/-- `mergeChild(nc)` on the node cache `self`; the fields are written through the `Node*`. -/
def mergeChild (self nc : NodeCache) : TreeM Unit := do
  let c ← nc.nh.get
  let n ← self.nh.get
  let n' ← Prog.lift (nc.mergedNode nc.nh.id.getChildNr c n)
  self.nh.overwrite n' .merge

/-- `release(tree)` -/
def release (self : NodeCache) : TreeM Unit := do
  let _ ← releaseNode self.nh
  pure ()

end NodeCache

namespace FastCache

/-- The constructor of `TreeFastCache`: the stack holds the root. -/
def create : TreeM (List NodeCache) := do
  let root ← getRoot cfg
  let nc ← NodeCache.create root
  pure [nc]

/-- `pop()` of the top `child` of a stack with the rest `nodes`. -/
def pop (child : NodeCache) (nodes : List NodeCache) : TreeM Unit := do
  match nodes with
  | [] => pure ()
  | parent :: _ => parent.mergeChild child
  child.release

/-- The destructor of `TreeFastCache`: close every open node. -/
def destroy : List NodeCache → TreeM Unit
  | [] => pure ()
  | nc :: nodes => do
    pop nc nodes
    destroy nodes

/-- `clear()` -/
def clear (nodes : List NodeCache) : TreeM (List NodeCache) := do
  destroy nodes
  create cfg

/-- The loop of `TreeFastCache::addPoint`: close open nodes until one contains the point. -/
def popOutside (pt : Vec) : List NodeCache → TreeM (List NodeCache)
  | [] => Prog.fail .emptyStack
  | nc :: nodes =>
    if nc.nh.nodeGeom.contains pt then pure (nc :: nodes)
    else do
      pop nc nodes
      popOutside pt nodes

/-- `TreeFastCache::addPointRecursive(pt, color, point_accuracy)`: the stack afterwards. -/
def addPointRecursive (pt color : Vec) (pointAccuracy : ℚ) :
    ℕ → List NodeCache → TreeM (List NodeCache)
  | 0, _ => Prog.fail .outOfFuel
  | _ + 1, [] => Prog.fail .emptyStack
  | fuel + 1, nc :: nodes => do
    let nh := nc.nh
    let nodeCellSize := nh.nodeGeom.getSize
    let n ← nh.get
    if n.isEmpty && decide (nodeCellSize / bitsD ≤ pointAccuracy) then
      let nh ← nh.setPoint pt color
      pure ({ nc with nh := nh } :: nodes)
    else if nodeCellSize < cfg.minCellSize then
      let nh ← nh.addPoint pt color
      pure ({ nc with nh := nh } :: nodes)
    else
      let nh ← splitLeaf cfg nh
      let (nh, newChild) ← openChild cfg nh (nh.nodeGeom.whichChild pt)
      let newNc ← NodeCache.create newChild
      addPointRecursive pt color pointAccuracy fuel (newNc :: { nc with nh := nh } :: nodes)

/-- `TreeFastCache::addPoint(pt, color)` -/
def addPoint (pt color : Vec) (nodes : List NodeCache) : TreeM (List NodeCache) := do
  let nodes ← popOutside pt nodes
  addPointRecursive cfg pt color cfg.minCellSize maxLevel nodes

/-- A sequence of calls of `TreeFastCache::addPoint`. -/
def addPoints : List (Vec × Vec) → List NodeCache → TreeM (List NodeCache)
  | [], nodes => pure nodes
  | (pt, col) :: pts, nodes => do
    let nodes ← addPoint cfg pt col nodes
    addPoints pts nodes

/-- The life of a `TreeFastCache` that inserts the given points. -/
def insertAll (pts : List (Vec × Vec)) : TreeM Unit := do
  let nodes ← create cfg
  let nodes ← addPoints cfg pts nodes
  destroy nodes

end FastCache

end MegaTree
