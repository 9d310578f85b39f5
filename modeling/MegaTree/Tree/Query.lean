import MegaTree.Tree.Basic

/-!
# Range queries

`queryRange` collects the representative points of the nodes that a query box touches at a given
resolution, with two shortcuts: a cell outside the box is skipped, and in a cell inside the box all
points are taken without a test.  `rangeQueryLoop` is the asynchronous variant: a node whose file
is not loaded yet is put on a work list and looked at again later.
-/

namespace MegaTree

open Effect

variable (cfg : Config)

/-- The vectors `results` and `colors` of a query; the three entries of a point are one element. -/
structure QueryResult where
  /-- `results` -/
  results : List Vec
  /-- `colors` -/
  colors : List Vec

namespace QueryResult

/-- Append a point and its color. -/
def push (out : QueryResult) (point color : Vec) : QueryResult :=
  ⟨out.results ++ [point], out.colors ++ [color]⟩

end QueryResult

/-- The range test of `queryRangeIntersecting`. -/
def pointInRange (rangeMid rangeSize point : Vec) : Bool :=
  decide (∀ i, rangeMid i - rangeSize i / 2 ≤ point i ∧ point i < rangeMid i + rangeSize i / 2)

/-- `nodeOutsideRange(node_geom, range_mid, range_size)` -/
def nodeOutsideRange (nodeGeom : NodeGeometry) (rangeMid rangeSize : Vec) : Bool :=
  decide (∃ i, nodeGeom.hi i ≤ rangeMid i - rangeSize i / 2 ∨
    rangeMid i + rangeSize i / 2 ≤ nodeGeom.lo i)

/-- `nodeInsideRange(node_geom, range_mid, range_size)` -/
def nodeInsideRange (nodeGeom : NodeGeometry) (rangeMid rangeSize : Vec) : Bool :=
  decide (∀ i, rangeMid i - rangeSize i / 2 ≤ nodeGeom.lo i ∧
    nodeGeom.hi i ≤ rangeMid i + rangeSize i / 2)

/-- `node.isLeaf() || node.getNodeGeometry().getSize() <= resolution` -/
def stopsAt (node : NodeHandle) (n : Node) (resolution : ℚ) : Bool :=
  n.isLeaf || decide (node.nodeGeom.getSize ≤ resolution)

/-- `queryRangeIntersecting(tree, node, range_mid, range_size, results, colors)` -/
def queryRangeIntersecting (node : NodeHandle) (rangeMid rangeSize : Vec) (out : QueryResult) :
    TreeM QueryResult := do
  let n ← node.get
  Prog.ensure (!n.isEmpty) .emptyNode
  let point := n.getPoint node.nodeGeom
  if pointInRange rangeMid rangeSize point then pure (out.push point n.getColor) else pure out

/-- The loop over a `ChildIterator` in the queries: run `body` on every valid child. -/
def forChildren (children : ChildNr → NodeHandle)
    (body : NodeHandle → QueryResult → TreeM QueryResult) :
    List ChildNr → QueryResult → TreeM QueryResult
  | [], out => pure out
  | i :: is, out => do
    let valid ← (children i).isValid
    if valid then
      let out ← body (children i) out
      forChildren children body is out
    else forChildren children body is out

/-- `getAllPointsRecursive(tree, node, resolution, results, colors)` -/
def getAllPointsRecursive (resolution : ℚ) :
    ℕ → NodeHandle → QueryResult → TreeM QueryResult
  | 0, _, _ => Prog.fail .outOfFuel
  | fuel + 1, node, out => do
    let n ← node.get
    Prog.ensure (!n.isEmpty) .emptyNode
    if stopsAt node n resolution then pure (out.push (n.getPoint node.nodeGeom) n.getColor)
    else
      let children ← ChildIterator.create cfg node none
      let out ← forChildren children (getAllPointsRecursive resolution fuel) (List.finRange 8) out
      ChildIterator.destroy children (List.finRange 8)
      pure out

/-- `queryRangeRecursive(tree, node, range_mid, range_size, resolution, results, colors)` -/
def queryRangeRecursive (rangeMid rangeSize : Vec) (resolution : ℚ) :
    ℕ → NodeHandle → QueryResult → TreeM QueryResult
  | 0, _, _ => Prog.fail .outOfFuel
  | fuel + 1, node, out =>
    if nodeOutsideRange node.nodeGeom rangeMid rangeSize then pure out
    else if nodeInsideRange node.nodeGeom rangeMid rangeSize then
      getAllPointsRecursive cfg resolution (fuel + 1) node out
    else do
      let n ← node.get
      if stopsAt node n resolution then queryRangeIntersecting node rangeMid rangeSize out
      else
        let children ← ChildIterator.create cfg node none
        let out ← forChildren children (queryRangeRecursive rangeMid rangeSize resolution fuel)
          (List.finRange 8) out
        ChildIterator.destroy children (List.finRange 8)
        pure out

/-- `queryRange(tree, lo, hi, resolution, results, colors)`, on empty result vectors. -/
def queryRange (lo hi : Vec) (resolution : ℚ) : TreeM QueryResult := do
  let root ← getRoot cfg
  let rangeMid := fun i => (hi i + lo i) / 2
  let rangeSize := fun i => hi i - lo i
  let out ← queryRangeRecursive cfg rangeMid rangeSize resolution 42 root ⟨[], []⟩
  let _ ← releaseNode root
  pure out

/-! ### The asynchronous query -/

/-- What the asynchronous recursion collects: the results, and `nodes_to_load`. -/
abbrev AsyncResult := QueryResult × List NodeHandle

/-- The loop over the children in the asynchronous recursion: a child whose file is not loaded is
put on the work list, for the others `body` runs at once. -/
def forChildrenAsync (node : NodeHandle) (body : NodeHandle → AsyncResult → TreeM AsyncResult) :
    List ChildNr → AsyncResult → TreeM AsyncResult
  | [], out => pure out
  | i :: is, out => do
    let n ← node.get
    if n.hasChild i then
      let child ← getChildNode cfg node i
      let valid ← child.isValid
      if !valid then forChildrenAsync node body is (out.1, out.2 ++ [child])
      else
        let out ← body child out
        let _ ← releaseNode child
        forChildrenAsync node body is out
    else forChildrenAsync node body is out

/-- `getAllPointsRecursiveAsync` -/
def getAllPointsRecursiveAsync (resolution : ℚ) :
    ℕ → NodeHandle → AsyncResult → TreeM AsyncResult
  | 0, _, _ => Prog.fail .outOfFuel
  | fuel + 1, node, out => do
    let n ← node.get
    Prog.ensure (!n.isEmpty) .emptyNode
    if stopsAt node n resolution then
      pure (out.1.push (n.getPoint node.nodeGeom) n.getColor, out.2)
    else
      forChildrenAsync cfg node (getAllPointsRecursiveAsync resolution fuel) (List.finRange 8) out

/-- `queryRangeRecursiveAsync` -/
def queryRangeRecursiveAsync (rangeMid rangeSize : Vec) (resolution : ℚ) :
    ℕ → NodeHandle → AsyncResult → TreeM AsyncResult
  | 0, _, _ => Prog.fail .outOfFuel
  | fuel + 1, node, out =>
    if nodeOutsideRange node.nodeGeom rangeMid rangeSize then pure out
    else if nodeInsideRange node.nodeGeom rangeMid rangeSize then
      getAllPointsRecursiveAsync cfg resolution (fuel + 1) node out
    else do
      let n ← node.get
      if stopsAt node n resolution then
        let res ← queryRangeIntersecting node rangeMid rangeSize out.1
        pure (res, out.2)
      else
        forChildrenAsync cfg node (queryRangeRecursiveAsync rangeMid rangeSize resolution fuel)
          (List.finRange 8) out

/-- The `while` loop of `rangeQueryLoop`, for at most `rounds` rounds: the results and the nodes
that are still waiting. -/
def processQueue (rangeMid rangeSize : Vec) (resolution : ℚ) :
    ℕ → QueryResult → List NodeHandle → TreeM AsyncResult
  | 0, out, queue => pure (out, queue)
  | _ + 1, out, [] => pure (out, [])
  | rounds + 1, out, node :: queue => do
    let valid ← node.isValid
    if !valid then processQueue rangeMid rangeSize resolution rounds out (queue ++ [node])
    else
      let (out, nodesToLoad) ←
        queryRangeRecursiveAsync cfg rangeMid rangeSize resolution 42 node (out, [])
      let _ ← releaseNode node
      processQueue rangeMid rangeSize resolution rounds out (queue ++ nodesToLoad)

/-- The first `rounds` rounds of `rangeQueryLoop(tree, lo, hi, resolution, results, colors)`; the
call returns when no node is waiting any more. -/
def rangeQueryLoop (lo hi : Vec) (resolution : ℚ) (rounds : ℕ) : TreeM AsyncResult := do
  let root ← getRoot cfg
  let valid ← root.isValid
  Prog.ensure valid .notLoaded
  let rangeMid := fun i => (hi i + lo i) / 2
  let rangeSize := fun i => hi i - lo i
  processQueue cfg rangeMid rangeSize resolution rounds ⟨[], []⟩ [root]

end MegaTree
