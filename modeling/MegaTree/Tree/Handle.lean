import MegaTree.Tree.Op

/-!
# Node handles

`NodeHandle` couples a `Node*` with the id and the cell of the node, the file it lives in and a
flag that says whether the node was modified through the handle.  The mutators of a handle raise
that flag; a write through the bare `Node*` does not.
-/

namespace MegaTree

open Effect

/-- `NodeHandle` -/
structure NodeHandle where
  /-- `node`: the file and the short id of the node, or `NULL`. -/
  node : Option (LongId × ShortId)
  /-- `node_geom` -/
  nodeGeom : NodeGeometry
  /-- `id` -/
  id : LongId
  /-- `node_file`, or `NULL`. -/
  nodeFile : Option LongId
  /-- `modified` -/
  modified : Bool

namespace NodeHandle

/-- `NodeHandle()` -/
def null : NodeHandle := ⟨none, ⟨fun _ => 0, fun _ => 0, 0⟩, .ofValue 0, none, false⟩

/-- A handle set up by `initialize(node_p, id_p, node_file_p, node_geom_p)`. -/
def initialized (node : Option (LongId × ShortId)) (id : LongId) (nodeFile : LongId)
    (nodeGeom : NodeGeometry) : NodeHandle :=
  ⟨node, nodeGeom, id, some nodeFile, false⟩

variable (h : NodeHandle)

/-- `invalidate()` -/
def invalidate : NodeHandle := { h with node := none, nodeFile := none }

/-- `isValid()` -/
def isValid : TreeM Bool :=
  match h.nodeFile with
  | none => pure false
  | some f => do
    let loaded : Bool ← perform (.isLoaded f)
    pure (loaded && h.id.isValid)

/-- `waitUntilLoaded()` -/
def waitUntilLoaded : TreeM Unit :=
  match h.nodeFile with
  | none => Prog.fail .nullPointer
  | some f => perform (.waitUntilLoaded f)

/-- The `Node*` of the handle, to be dereferenced. -/
def ptr : TreeM (LongId × ShortId) := Prog.lift (h.node.elim (.error .nullPointer) .ok)

/-- Read the fields of the node. -/
def get : TreeM Node := do
  let (f, s) ← h.ptr
  perform (.getNode f s)

/-- Write the fields of the node through a mutator of the handle. -/
def modify (n : Node) : TreeM NodeHandle := do
  let (f, s) ← h.ptr
  perform (.setNode f s n (if h.modified then .again else .first))
  pure { h with modified := true }

/-- Write the fields of the node through its `Node*`. -/
def overwrite (n : Node) (w : Write) : TreeM Unit := do
  let (f, s) ← h.ptr
  perform (.setNode f s n w)

/-- `setChild(child)` -/
def setChild (child : ChildNr) : TreeM NodeHandle := do
  let n ← h.get
  h.modify (n.setChild child)

/-- `setPoint(pt, col)` -/
def setPoint (pt col : Vec) : TreeM NodeHandle := do
  let n ← h.get
  let n' ← Prog.lift (n.setPoint h.nodeGeom pt col)
  h.modify n'

/-- `addPoint(pt, col)` -/
def addPoint (pt col : Vec) : TreeM NodeHandle := do
  let n ← h.get
  let n' ← Prog.lift (n.addPoint h.nodeGeom pt col)
  h.modify n'

/-- The loop of `copyFromChildNodes` that collects the nodes of the valid handles. -/
def childNodes (children : ChildNr → NodeHandle) :
    List ChildNr → (ChildNr → Option Node) → TreeM (ChildNr → Option Node)
  | [], nodes => pure nodes
  | i :: is, nodes => do
    let valid ← (children i).isValid
    if valid && (children i).node.isSome then
      let n ← (children i).get
      childNodes children is (Function.update nodes i (some n))
    else childNodes children is (Function.update nodes i none)

/-- `copyFromChildNodes(children)` -/
def copyFromChildNodes (children : ChildNr → NodeHandle) : TreeM NodeHandle := do
  let nodes ← childNodes children (List.finRange 8) fun _ => none
  let n ← Prog.lift (Node.copyFromChildNodes nodes)
  h.modify n

end NodeHandle

end MegaTree
