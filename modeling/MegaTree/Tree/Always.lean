import MegaTree.Effect.Always
import MegaTree.Tree.AddPoint

/-!
# What the client functions always do

The ids and cells in the handles that a client works with come from its own computations, not from
the file cache.  So what the functions of a client return, which nodes they name and which errors
they can raise is known whatever the cache replies.

`Permits P X` are the operations that name no node, and the errors that depend on the cache.
`MayDescend` says which further operations and errors the children of a node need.
-/

namespace MegaTree

open Effect

/-- The operation creates or reads a node. -/
def CacheOp.namesNode : CacheOp → Bool
  | .createNode _ _ => true
  | .readNode _ _ => true
  | _ => false

/-- All operations that name no node are in `P`, and all errors that depend on the replies in
`X`. -/
structure Permits (P : CacheOp → Prop) (X : Err → Prop) : Prop where
  op : ∀ o, o.namesNode = false → P o
  nullPointer : X .nullPointer
  childExists : X .childExists
  notLoaded : X .notLoaded
  wrongOctant : X .wrongOctant
  divideByZero : X .divideByZero
  emptyStack : X .emptyStack

variable (cfg : Config) (P : CacheOp → Prop) (X : Err → Prop)

/-- The children of the node with an id may be created and read, as far as they have an id.  The
iterator looks for all of them in the file of the first. -/
structure MayDescend (id : LongId) : Prop where
  create : ∀ c childId, id.getChild c = .ok childId →
    P (.createNode (getFileId cfg childId) (getShortId cfg childId))
  read : ∀ c d childId childId', id.getChild c = .ok childId → id.getChild d = .ok childId' →
    P (.readNode (getFileId cfg childId) (getShortId cfg childId'))
  error : ∀ c e, id.getChild c = .error e → X e

variable {cfg P X} {node : NodeHandle} {child : ChildNr} {n : Node} {pt color : Vec}

/-! ### Handles -/

theorem always_perform {o : CacheOp} (hX : Permits P X) (ho : o.namesNode = false) :
    (perform o).Always P (fun _ => True) X := .op (hX.op o ho) fun _ => trivial

theorem always_ptr (hX : Permits P X) : node.ptr.Always P (fun _ => True) X := by
  refine Prog.Always.lift (fun _ _ => trivial) fun e he => ?_
  cases hn : node.node <;> rw [hn] at he <;> cases he
  exact hX.nullPointer

theorem always_get (hX : Permits P X) : node.get.Always P (fun _ => True) X :=
  (always_ptr hX).bind fun _ _ => always_perform hX rfl

/-- A mutator only marks the handle. -/
theorem always_modify (hX : Permits P X) :
    (node.modify n).Always P (fun h => h = { node with modified := true }) X :=
  (always_ptr hX).bind fun _ _ => (always_perform hX rfl).bind fun _ _ => rfl

theorem always_overwrite {w : Write} (hX : Permits P X) :
    (node.overwrite n w).Always P (fun _ => True) X :=
  (always_ptr hX).bind fun _ _ => always_perform hX rfl

theorem always_isValid (hX : Permits P X) : node.isValid.Always P (fun _ => True) X := by
  unfold NodeHandle.isValid
  split
  · trivial
  · exact (always_perform hX rfl).bind fun _ _ => trivial

theorem always_waitUntilLoaded (hX : Permits P X) :
    node.waitUntilLoaded.Always P (fun _ => True) X := by
  unfold NodeHandle.waitUntilLoaded
  split
  · exact hX.nullPointer
  · exact always_perform hX rfl

theorem always_setPoint (hX : Permits P X)
    (h : node.nodeGeom.contains pt = true ∨ X .notInGeometry) :
    (node.setPoint pt color).Always P (fun h => h = { node with modified := true }) X := by
  refine (always_get hX).bind fun n _ => Prog.Always.bind (Q := fun _ => True) ?_ fun _ _ =>
    always_modify hX
  refine Prog.Always.lift (fun _ _ => trivial) fun e he => ?_
  rw [Node.setPoint] at he
  split_ifs at he with hin
  cases he
  exact h.resolve_left hin

theorem always_addPoint (hX : Permits P X)
    (h : node.nodeGeom.contains pt = true ∨ X .notInGeometry) :
    (node.addPoint pt color).Always P (fun h => h = { node with modified := true }) X := by
  refine (always_get hX).bind fun n _ => Prog.Always.bind (Q := fun _ => True) ?_ fun _ _ =>
    always_modify hX
  refine Prog.Always.lift (fun _ _ => trivial) fun e he => ?_
  simp only [Node.addPoint] at he
  split_ifs at he with hin hzero
  · cases he
    exact hX.divideByZero
  · cases he
    exact h.resolve_left hin

/-! ### Nodes -/

theorem always_releaseNode (hX : Permits P X) :
    (releaseNode node).Always P (fun h => h = node.invalidate) X := by
  unfold releaseNode
  split
  · exact (always_perform hX rfl).bind fun _ _ => rfl
  · rfl

theorem always_openChildFile {f f' : LongId} (hX : Permits P X) :
    (openChildFile f f').Always P (fun _ => True) X := by
  refine (always_perform hX rfl).bind fun _ _ => Prog.Always.ite (fun _ => ?_) fun _ => ?_
  · exact (always_perform hX rfl).bind fun _ _ => always_perform hX rfl
  · refine Prog.Always.bind (Q := fun _ => True) ?_ fun _ _ => always_perform hX rfl
    exact (always_perform hX rfl).bind fun _ _ => always_perform hX rfl

/-- The handles of a node and of a child that was fetched or created. -/
structure IsChild (node : NodeHandle) (child : ChildNr) (r : NodeHandle × NodeHandle) : Prop where
  parentId : r.1.id = node.id
  parentGeom : r.1.nodeGeom = node.nodeGeom
  id : node.id.getChild child = .ok r.2.id
  geom : r.2.nodeGeom = node.nodeGeom.getChild child

theorem always_createChildNode (hX : Permits P X) (hd : MayDescend cfg P X node.id) :
    (createChildNode cfg node child).Always P (IsChild node child) X := by
  refine (always_get hX).bind fun _ _ => (Prog.Always.ensure hX.childExists).bind fun _ _ => ?_
  refine Prog.Always.bind (Prog.Always.lift (fun _ => id) (hd.error child)) fun childId hid => ?_
  refine (always_perform hX rfl).bind fun _ _ => (always_perform hX rfl).bind fun _ _ => ?_
  refine (always_perform hX rfl).bind fun _ _ =>
    (Prog.Always.ensure hX.notLoaded).bind fun _ _ => ?_
  refine (always_openChildFile hX).bind fun _ _ => (always_perform hX rfl).bind fun _ _ => ?_
  refine ((always_get hX).bind fun _ _ => always_modify hX).bind fun p hp => ?_
  -- the new node is the only one that is named
  refine (Prog.Always.op (hd.create child childId hid) fun _ => trivial).bind fun _ _ => ?_
  refine (always_perform hX rfl).bind fun _ _ => (always_perform hX rfl).bind fun _ _ => ?_
  exact ⟨by rw [hp], by rw [hp], hid, rfl⟩

theorem always_getChildNode (hX : Permits P X) (hd : MayDescend cfg P X node.id) :
    (getChildNode cfg node child).Always P (fun r => IsChild node child (node, r)) X := by
  refine (always_get hX).bind fun _ _ => (Prog.Always.ensure hX.childExists).bind fun _ _ => ?_
  refine Prog.Always.bind (Prog.Always.lift (fun _ => id) (hd.error child)) fun childId hid => ?_
  refine (always_perform hX rfl).bind fun _ _ => ?_
  have hread := hd.read child child childId childId hid hid
  refine (Prog.Always.op hread fun _ => trivial).bind fun _ _ => ?_
  exact (always_perform hX rfl).bind fun _ _ => ⟨rfl, rfl, hid, rfl⟩

theorem always_getRoot (hX : Permits P X)
    (hr : P (.readNode (getFileId cfg rootId) (getShortId cfg rootId))) :
    (getRoot cfg).Always P (fun r => r.id = rootId ∧ r.nodeGeom = cfg.rootGeometry) X := by
  refine (always_perform hX rfl).bind fun _ _ => (always_perform hX rfl).bind fun _ _ => ?_
  refine (Prog.Always.op hr fun _ => trivial).bind fun _ _ => ?_
  exact (always_perform hX rfl).bind fun _ _ => ⟨rfl, rfl⟩

/-! ### The iterator over the children -/

theorem always_load {f : LongId} (hX : Permits P X) (hd : MayDescend cfg P X node.id)
    (hf : ∀ c childId, node.id.getChild c = .ok childId → P (.readNode f (getShortId cfg childId)))
    (is : List ChildNr) (children : ChildNr → NodeHandle) :
    (ChildIterator.load cfg node f is children).Always P (fun _ => True) X := by
  induction is generalizing children with
  | nil => trivial
  | cons i is ih =>
    refine (always_get hX).bind fun n _ => Prog.Always.ite (fun _ => ?_) fun _ => ih children
    refine Prog.Always.bind (Prog.Always.lift (fun _ => id) (hd.error i)) fun childId hid => ?_
    exact (Prog.Always.op (hf i childId hid) fun _ => trivial).bind fun _ _ => ih _

/-- The iterator of a node whose children are in a file that is looked up. -/
theorem always_createIterator (hX : Permits P X) (hd : MayDescend cfg P X node.id) :
    (ChildIterator.create cfg node none).Always P (fun _ => True) X := by
  refine Prog.Always.bind (Prog.Always.lift (fun _ => id) (hd.error 0)) fun childId hid => ?_
  refine (always_perform hX rfl).bind fun _ _ => (always_perform hX rfl).bind fun _ _ => ?_
  refine (always_load hX hd (fun c childId' => hd.read 0 c childId childId' hid) _ _).bind fun _ _ => ?_
  exact (always_perform hX rfl).bind fun _ _ => trivial

theorem always_destroyIterator (hX : Permits P X) (children : ChildNr → NodeHandle)
    (is : List ChildNr) : (ChildIterator.destroy children is).Always P (fun _ => True) X := by
  induction is with
  | nil => trivial
  | cons i is ih =>
    refine (always_isValid hX).bind fun _ _ => Prog.Always.ite (fun _ => ?_) fun _ => ih
    exact (always_releaseNode hX).bind fun _ _ => ih

theorem always_childNodes (hX : Permits P X) (children : ChildNr → NodeHandle) (is : List ChildNr)
    (nodes : ChildNr → Option Node) :
    (NodeHandle.childNodes children is nodes).Always P (fun _ => True) X := by
  induction is generalizing nodes with
  | nil => trivial
  | cons i is ih =>
    refine (always_isValid hX).bind fun _ _ => Prog.Always.ite (fun _ => ?_) fun _ => ih _
    exact (always_get hX).bind fun _ _ => ih _

theorem always_copyFromChildNodes (hX : Permits P X) (children : ChildNr → NodeHandle) :
    (node.copyFromChildNodes children).Always P (fun h =>
    h = { node with modified := true }) X := by
  refine (always_childNodes hX children _ _).bind fun nodes _ => ?_
  refine Prog.Always.bind (Q := fun _ => True) ?_ fun n _ => always_modify hX
  refine Prog.Always.lift (fun _ _ => trivial) fun e he => ?_
  rw [(Node.copyFromChildNodes_error he).1]
  exact hX.divideByZero

/-! ### The steps of an insertion -/

/-- A node keeps its id and its cell while its leaf is split. -/
theorem always_splitLeaf (hX : Permits P X) (hd : MayDescend cfg P X node.id) :
    (splitLeaf cfg node).Always P (fun r => r.id = node.id ∧ r.nodeGeom = node.nodeGeom) X := by
  refine (always_get hX).bind fun n _ => Prog.Always.ite (fun _ => ?_) fun _ => ⟨rfl, rfl⟩
  refine (always_createChildNode hX hd).bind fun r hr => (always_get hX).bind fun n _ => ?_
  refine (always_get hX).bind fun c _ => Prog.Always.bind (Q := fun _ => True) ?_ fun c' _ => ?_
  · refine Prog.Always.lift (fun _ _ => trivial) fun e he => ?_
    unfold Node.copyToChildNode at he
    split_ifs at he
    cases he
    exact hX.wrongOctant
  · refine (always_overwrite hX).bind fun _ _ => (always_releaseNode hX).bind fun _ _ => ?_
    exact ⟨hr.parentId, hr.parentGeom⟩

theorem always_openChild (hX : Permits P X) (hd : MayDescend cfg P X node.id) :
    (openChild cfg node child).Always P (IsChild node child) X := by
  refine (always_get hX).bind fun n _ => Prog.Always.ite (fun _ => ?_) fun _ =>
    always_createChildNode hX hd
  exact (always_getChildNode hX hd).bind fun r hr =>
    (always_waitUntilLoaded hX).bind fun _ _ => hr

/-! ### The stack of a fast cache -/

theorem always_createNodeCache (hX : Permits P X) :
    (NodeCache.create node).Always P (fun nc => nc.nh = node) X :=
  (always_get hX).bind fun _ _ => rfl

theorem always_pop (hX : Permits P X) (child : NodeCache) (nodes : List NodeCache) :
    (FastCache.pop child nodes).Always P (fun _ => True) X := by
  have hrelease : child.release.Always P (fun _ => True) X :=
    (always_releaseNode hX).bind fun _ _ => trivial
  cases nodes with
  | nil => exact hrelease
  | cons parent nodes =>
    refine Prog.Always.bind (Q := fun _ => True) ?_ fun _ _ => hrelease
    refine (always_get hX).bind fun c _ => (always_get hX).bind fun n _ => ?_
    refine Prog.Always.bind (Q := fun _ => True) ?_ fun _ _ => always_overwrite hX
    refine Prog.Always.lift (fun _ _ => trivial) fun e he => ?_
    unfold NodeCache.mergedNode at he
    split_ifs at he
    cases he
    exact hX.divideByZero

/-- Closing open nodes ends at a node whose cell contains the point. -/
theorem always_popOutside (hX : Permits P X) (nodes : List NodeCache) :
    (FastCache.popOutside pt nodes).Always P (fun nodes' => nodes' <:+ nodes ∧
      ∃ nc rest, nodes' = nc :: rest ∧ nc.nh.nodeGeom.contains pt = true) X := by
  induction nodes with
  | nil => exact hX.emptyStack
  | cons nc nodes ih =>
    refine Prog.Always.ite (fun hin => ⟨List.suffix_rfl, nc, nodes, rfl, hin⟩) fun _ => ?_
    refine (always_pop hX nc nodes).bind fun _ _ => ih.mono fun nodes' h => ?_
    exact ⟨h.1.trans (List.suffix_cons nc nodes), h.2⟩

end MegaTree
