import MegaTree.Tree.Handle

/-!
# Node access

The functions of `megatree.cpp` that turn node ids into nodes: the file and the short id of a node,
the root, existing children and new children, and the `ChildIterator` over all children of a node.
A file is pinned by a user while a node is fetched from it, and the node itself counts as a user
until it is released.
-/

namespace MegaTree

open Effect

variable (cfg : Config)

/-- `getFileId(node_id)` -/
def getFileId (nodeId : LongId) : LongId := nodeId.getParent cfg.subtreeWidth

/-- `getShortId(node_id)` -/
def getShortId (nodeId : LongId) : ShortId :=
  nodeId.getBits (min nodeId.level cfg.subtreeWidth * 3)

/-- `createNodeFile(file_id)` -/
def createNodeFile (fileId : LongId) : TreeM Unit := do
  perform (.createNodeFile fileId)
  perform .cacheMaintenance

/-- `releaseNodeFile(node_file)` -/
def releaseNodeFile (nodeFile : LongId) : TreeM Unit := perform (.removeUser nodeFile)

/-- The middle of `createChildNode`: the file of the new node is fetched, or created and announced
in the file of the parent. -/
def openChildFile (parentFileId childFileId : LongId) : TreeM Unit := do
  let whichChildFile := childFileId.getChildNr
  let known : Bool ← perform (.hasChildFile parentFileId whichChildFile)
  if childFileId.isRootFile || known then
    perform (.getNodeFile childFileId)
    perform (.waitUntilLoaded childFileId)
  else
    -- the file does not exist yet, so there is nothing to read from the storage
    createNodeFile childFileId
    perform (.setChildFile parentFileId whichChildFile)

/-- `createChildNode(parent_node, child, child_node_handle)`: the parent handle, now marked as
modified, and the handle of the new node. -/
def createChildNode (parent : NodeHandle) (child : ChildNr) : TreeM (NodeHandle × NodeHandle) := do
  let n ← parent.get
  Prog.ensure (!n.hasChild child) .childExists
  let childId ← Prog.lift (parent.id.getChild child)
  let childFileId := getFileId cfg childId
  let childGeometry := parent.nodeGeom.getChild child
  let parentFileId := getFileId cfg parent.id
  perform (.getNodeFile parentFileId)
  perform (.waitUntilLoaded parentFileId)
  let loaded : Bool ← perform (.isLoaded parentFileId)
  Prog.ensure loaded .notLoaded
  openChildFile parentFileId childFileId
  releaseNodeFile parentFileId
  let parent ← parent.setChild child
  perform (.createNode childFileId (getShortId cfg childId))
  perform .countNode
  releaseNodeFile childFileId
  pure (parent, .initialized (some (childFileId, getShortId cfg childId)) childId childFileId
    childGeometry)

/-- `getChildNode(parent_node, child, child_node_handle)` -/
def getChildNode (parent : NodeHandle) (child : ChildNr) : TreeM NodeHandle := do
  let n ← parent.get
  Prog.ensure (n.hasChild child) .childExists
  let childId ← Prog.lift (parent.id.getChild child)
  let childFileId := getFileId cfg childId
  let childGeometry := parent.nodeGeom.getChild child
  perform (.getNodeFile childFileId)
  let found : Bool ← perform (.readNode childFileId (getShortId cfg childId))
  let node := if found then some (childFileId, getShortId cfg childId) else none
  releaseNodeFile childFileId
  pure (.initialized node childId childFileId childGeometry)

/-- `releaseNode(node_handle)`: the handle afterwards. -/
def releaseNode (h : NodeHandle) : TreeM NodeHandle := do
  match h.nodeFile, h.node with
  | some f, some _ => perform (.releaseNode f h.modified)
  | _, _ => pure ()  -- "Trying to release a node_handle that doesn't have a node"
  pure h.invalidate

/-- The id of the root node, `IdType(1L)`. -/
def rootId : LongId := .ofValue 1

/-- `createRoot(root_node_handle)` -/
def createRoot : TreeM NodeHandle := do
  let rootFileId := getFileId cfg rootId
  createNodeFile rootFileId
  perform (.createNode rootFileId (getShortId cfg rootId))
  perform .countNode
  perform (.removeUser rootFileId)
  pure (.initialized (some (rootFileId, getShortId cfg rootId)) rootId rootFileId cfg.rootGeometry)

/-- `getRoot(root_node_handle)` -/
def getRoot : TreeM NodeHandle := do
  let rootFileId := getFileId cfg rootId
  perform (.getNodeFile rootFileId)
  perform (.waitUntilLoaded rootFileId)
  let found : Bool ← perform (.readNode rootFileId (getShortId cfg rootId))
  let node := if found then some (rootFileId, getShortId cfg rootId) else none
  perform (.removeUser rootFileId)
  pure (.initialized node rootId rootFileId cfg.rootGeometry)

/-- The part of the constructor of a new `MegaTree` that creates the root node. -/
def newTree : TreeM Unit := do
  let root ← createRoot cfg
  let _ ← releaseNode root
  pure ()

/-! ### The iterator over the children of a node -/

namespace ChildIterator

/-- The loop of the constructor that reads the existing children from their file. -/
def load (parent : NodeHandle) (childrenFile : LongId) :
    List ChildNr → (ChildNr → NodeHandle) → TreeM (ChildNr → NodeHandle)
  | [], children => pure children
  | i :: is, children => do
    let n ← parent.get
    if n.hasChild i then
      let childId ← Prog.lift (parent.id.getChild i)
      let found : Bool ← perform (.readNode childrenFile (getShortId cfg childId))
      let node := if found then some (childrenFile, getShortId cfg childId) else none
      load parent childrenFile is (Function.update children i
        (.initialized node childId childrenFile (parent.nodeGeom.getChild i)))
    else load parent childrenFile is children

/-- The constructor `ChildIterator(tree, parent, children_file)`. -/
def create (parent : NodeHandle) (childrenFile : Option LongId) :
    TreeM (ChildNr → NodeHandle) := do
  match childrenFile with
  | some f => load cfg parent f (List.finRange 8) fun _ => .null
  | none =>
    let childId ← Prog.lift (parent.id.getChild 0)
    let childrenFileId := getFileId cfg childId
    perform (.getNodeFile childrenFileId)
    perform (.waitUntilLoaded childrenFileId)
    let children ← load cfg parent childrenFileId (List.finRange 8) fun _ => .null
    perform (.removeUser childrenFileId)
    pure children

/-- The loop of the destructor. -/
def destroy (children : ChildNr → NodeHandle) : List ChildNr → TreeM Unit
  | [] => pure ()
  | i :: is => do
    let valid ← (children i).isValid
    if valid then
      let _ ← releaseNode (children i)
      destroy children is
    else destroy children is

end ChildIterator

end MegaTree
