import MegaTree.Tree.Session

/-!
# Properties that composition keeps

A property of programs that every `return`, failure and ordinary operation has, and that sequencing
keeps, holds for all functions of a client, as soon as it holds for the two that create nodes.

* `Composed P` : `P` is such a property.
* `Composed.session` : then every session has it, if the writes of `mergeChild` have it too.
-/

namespace MegaTree

open Effect

/-- The operations other than the creation of nodes, the writes of `mergeChild` and those of
`flushCache`. -/
def CacheOp.Ordinary : CacheOp → Prop
  | .createNode _ _ => False
  | .countNode => False
  | .setNode _ _ _ .merge => False
  | .flushBegin => False
  | .flushFile _ => False
  | .flushWait => False
  | _ => True

/-- A property of programs that sequencing keeps. -/
structure Composed (P : (α : Type) → TreeM α → Prop) : Prop where
  ret : ∀ {α : Type} (a : α), P α (pure a)
  fail : ∀ {α : Type} (e : Err), P α (Prog.fail e)
  bind : ∀ {α β : Type} {p : TreeM α} {k : α → TreeM β}, P α p → (∀ a, P β (k a)) → P β (p >>= k)
  op : ∀ o : CacheOp, o.Ordinary → P o.Res (perform o)
  createChildNode : ∀ cfg h c, P _ (createChildNode cfg h c)
  createRoot : ∀ cfg, P _ (createRoot cfg)
  flushCache : P _ flushCache

namespace Composed

variable {P : (α : Type) → TreeM α → Prop} {cfg : Config} {pt col lo hi mid size : Vec}
  {h : NodeHandle} {α : Type} {p q : TreeM α} {f : LongId} {resolution acc : ℚ} {fuel : ℕ}
  {out : QueryResult} {res : AsyncResult} {children : ChildNr → NodeHandle} {is : List ChildNr}
  {c : ChildNr} {n : Node} {nc : NodeCache} {nodes : List NodeCache}

theorem ite (hp : P α p) (hq : P α q) {b : Prop} [Decidable b] : P α (if b then p else q) := by
  split_ifs
  · exact hp
  · exact hq

variable (hP : Composed P)
include hP

theorem lift (x : Except Err α) : P α (Prog.lift x) := by
  cases x with
  | ok a => exact hP.ret a
  | error e => exact hP.fail e

theorem ensure (b : Bool) (e : Err) : P Unit (Prog.ensure b e) := by
  cases b with
  | true => exact hP.ret ()
  | false => exact hP.fail e

/-! ### Handles -/

theorem get : P _ h.get := hP.bind (hP.lift _) fun _ => hP.op (.getNode _ _) trivial

theorem modify : P _ (h.modify n) := by
  refine hP.bind (hP.lift _) fun x => hP.bind (hP.op (.setNode _ _ _ _) ?_) fun _ => hP.ret _
  cases h.modified <;> trivial

theorem isValid : P _ h.isValid := by
  unfold NodeHandle.isValid
  cases h.nodeFile with
  | none => exact hP.ret _
  | some f => exact hP.bind (hP.op (.isLoaded _) trivial) fun _ => hP.ret _

theorem waitUntilLoaded : P _ h.waitUntilLoaded := by
  unfold NodeHandle.waitUntilLoaded
  cases h.nodeFile with
  | none => exact hP.fail _
  | some f => exact hP.op (.waitUntilLoaded _) trivial

theorem releaseNode : P _ (releaseNode h) := by
  unfold MegaTree.releaseNode
  cases h.nodeFile with
  | none => exact hP.bind (hP.ret _) fun _ => hP.ret _
  | some f =>
    cases h.node with
    | none => exact hP.bind (hP.ret _) fun _ => hP.ret _
    | some x => exact hP.bind (hP.op (.releaseNode _ _) trivial) fun _ => hP.ret _

theorem getRoot : P _ (getRoot cfg) := by
  refine hP.bind (hP.op (.getNodeFile _) trivial) fun _ => ?_
  refine hP.bind (hP.op (.waitUntilLoaded _) trivial) fun _ => ?_
  refine hP.bind (hP.op (.readNode _ _) trivial) fun _ => ?_
  exact hP.bind (hP.op (.removeUser _) trivial) fun _ => hP.ret _

theorem getChildNode : P _ (getChildNode cfg h c) := by
  refine hP.bind hP.get fun n => hP.bind (hP.ensure _ _) fun _ => ?_
  refine hP.bind (hP.lift _) fun childId => hP.bind (hP.op (.getNodeFile _) trivial) fun _ => ?_
  refine hP.bind (hP.op (.readNode _ _) trivial) fun _ => ?_
  exact hP.bind (hP.op (.removeUser _) trivial) fun _ => hP.ret _

theorem newTree : P _ (newTree cfg) :=
  hP.bind (hP.createRoot cfg) fun _ => hP.bind hP.releaseNode fun _ => hP.ret _

theorem load : P _ (ChildIterator.load cfg h f is children) := by
  induction is generalizing children with
  | nil => exact hP.ret _
  | cons i is ih =>
    refine hP.bind hP.get fun n => ite ?_ ih
    refine hP.bind (hP.lift _) fun _ => ?_
    exact hP.bind (hP.op (.readNode _ _) trivial) fun _ => ih

theorem createIterator {f : Option LongId} : P _ (ChildIterator.create cfg h f) := by
  unfold ChildIterator.create
  cases f with
  | some f => exact hP.load
  | none =>
    refine hP.bind (hP.lift _) fun _ => hP.bind (hP.op (.getNodeFile _) trivial) fun _ => ?_
    refine hP.bind (hP.op (.waitUntilLoaded _) trivial) fun _ => hP.bind hP.load fun _ => ?_
    exact hP.bind (hP.op (.removeUser _) trivial) fun _ => hP.ret _

theorem destroyIterator : P _ (ChildIterator.destroy children is) := by
  induction is with
  | nil => exact hP.ret _
  | cons i is ih =>
    refine hP.bind hP.isValid fun _ => ite ?_ ih
    exact hP.bind hP.releaseNode fun _ => ih

theorem childNodes {nodes : ChildNr → Option Node} :
    P _ (NodeHandle.childNodes children is nodes) := by
  induction is generalizing nodes with
  | nil => exact hP.ret _
  | cons i is ih =>
    refine hP.bind hP.isValid fun _ => ite ?_ ih
    exact hP.bind hP.get fun _ => ih

/-! ### Insertion -/

theorem splitLeaf : P _ (splitLeaf cfg h) := by
  refine hP.bind hP.get fun n => ite ?_ (hP.ret _)
  refine hP.bind (hP.createChildNode ..) fun _ => hP.bind hP.get fun _ => ?_
  refine hP.bind hP.get fun _ => hP.bind (hP.lift _) fun _ => ?_
  refine hP.bind (hP.bind (hP.lift _) fun _ => hP.op (.setNode _ _ _ .copy) trivial) fun _ => ?_
  exact hP.bind hP.releaseNode fun _ => hP.ret _

theorem openChild : P _ (openChild cfg h c) := by
  refine hP.bind hP.get fun n => ite ?_ (hP.createChildNode ..)
  refine hP.bind hP.getChildNode fun _ => ?_
  exact hP.bind hP.waitUntilLoaded fun _ => hP.ret _

theorem setPoint : P _ (h.setPoint pt col) :=
  hP.bind hP.get fun _ => hP.bind (hP.lift _) fun _ => hP.modify

theorem addToPoint : P _ (h.addPoint pt col) :=
  hP.bind hP.get fun _ => hP.bind (hP.lift _) fun _ => hP.modify

theorem addPointRecursive : P _ (addPointRecursive cfg pt col acc fuel h) := by
  induction fuel generalizing h with
  | zero => exact hP.fail _
  | succ fuel ih =>
    refine hP.bind hP.get fun n => ite hP.setPoint (ite hP.addToPoint ?_)
    refine hP.bind hP.splitLeaf fun _ => hP.bind hP.openChild fun _ => ?_
    refine hP.bind ih fun _ => hP.bind hP.releaseNode fun _ => ?_
    refine hP.bind hP.createIterator fun _ => hP.bind ?_ fun _ => ?_
    · exact hP.bind hP.childNodes fun _ => hP.bind (hP.lift _) fun _ => hP.modify
    · exact hP.bind hP.destroyIterator fun _ => hP.ret _

theorem addPoint : P _ (addPoint cfg pt col) := by
  refine ite (hP.bind hP.getRoot fun _ => ?_) (hP.ret _)
  refine hP.bind hP.addPointRecursive fun _ => ?_
  exact hP.bind hP.releaseNode fun _ => hP.ret _

/-! ### Queries -/

theorem forChildren {body : NodeHandle → QueryResult → TreeM QueryResult}
    (hb : ∀ h out, P _ (body h out)) : P _ (forChildren children body is out) := by
  induction is generalizing out with
  | nil => exact hP.ret _
  | cons i is ih =>
    refine hP.bind hP.isValid fun _ => ite ?_ ih
    exact hP.bind (hb _ _) fun _ => ih

theorem intersecting : P _ (queryRangeIntersecting h mid size out) := by
  refine hP.bind hP.get fun _ => hP.bind (hP.ensure ..) fun _ => ?_
  exact ite (hP.ret _) (hP.ret _)

theorem getAllPointsRecursive : P _ (getAllPointsRecursive cfg resolution fuel h out) := by
  induction fuel generalizing h out with
  | zero => exact hP.fail _
  | succ fuel ih =>
    refine hP.bind hP.get fun _ => hP.bind (hP.ensure ..) fun _ => ?_
    refine ite (hP.ret _) (hP.bind hP.createIterator fun _ => ?_)
    refine hP.bind (hP.forChildren fun _ _ => ih) fun _ => ?_
    exact hP.bind hP.destroyIterator fun _ => hP.ret _

theorem queryRangeRecursive : P _ (queryRangeRecursive cfg mid size resolution fuel h out) := by
  induction fuel generalizing h out with
  | zero => exact hP.fail _
  | succ fuel ih =>
    refine ite (hP.ret _) (ite hP.getAllPointsRecursive ?_)
    refine hP.bind hP.get fun _ => ite hP.intersecting ?_
    refine hP.bind hP.createIterator fun _ => ?_
    refine hP.bind (hP.forChildren fun _ _ => ih) fun _ => ?_
    exact hP.bind hP.destroyIterator fun _ => hP.ret _

theorem queryRange : P _ (queryRange cfg lo hi resolution) := by
  refine hP.bind hP.getRoot fun _ => hP.bind hP.queryRangeRecursive fun _ => ?_
  exact hP.bind hP.releaseNode fun _ => hP.ret _

theorem forChildrenAsync {body : NodeHandle → AsyncResult → TreeM AsyncResult}
    (hb : ∀ h res, P _ (body h res)) : P _ (forChildrenAsync cfg h body is res) := by
  induction is generalizing res with
  | nil => exact hP.ret _
  | cons i is ih =>
    refine hP.bind hP.get fun _ => ite (hP.bind hP.getChildNode fun _ => ?_) ih
    refine hP.bind hP.isValid fun _ => ite ih (hP.bind (hb _ _) fun _ => ?_)
    exact hP.bind hP.releaseNode fun _ => ih

theorem getAllPointsRecursiveAsync : P _ (getAllPointsRecursiveAsync cfg resolution fuel h res) := by
  induction fuel generalizing h res with
  | zero => exact hP.fail _
  | succ fuel ih =>
    refine hP.bind hP.get fun _ => hP.bind (hP.ensure ..) fun _ => ?_
    exact ite (hP.ret _) (hP.forChildrenAsync fun _ _ => ih)

theorem queryRangeRecursiveAsync :
    P _ (queryRangeRecursiveAsync cfg mid size resolution fuel h res) := by
  induction fuel generalizing h res with
  | zero => exact hP.fail _
  | succ fuel ih =>
    refine ite (hP.ret _) (ite hP.getAllPointsRecursiveAsync ?_)
    refine hP.bind hP.get fun _ => ite ?_ (hP.forChildrenAsync fun _ _ => ih)
    exact hP.bind hP.intersecting fun _ => hP.ret _

theorem processQueue {rounds : ℕ} {queue : List NodeHandle} :
    P _ (processQueue cfg mid size resolution rounds out queue) := by
  induction rounds generalizing out queue with
  | zero => exact hP.ret _
  | succ rounds ih =>
    cases queue with
    | nil => exact hP.ret _
    | cons node queue =>
      refine hP.bind hP.isValid fun _ => ite ih ?_
      refine hP.bind hP.queryRangeRecursiveAsync fun _ => ?_
      exact hP.bind hP.releaseNode fun _ => ih

theorem rangeQueryLoop {rounds : ℕ} : P _ (rangeQueryLoop cfg lo hi resolution rounds) := by
  refine hP.bind hP.getRoot fun _ => hP.bind hP.isValid fun _ => ?_
  exact hP.bind (hP.ensure ..) fun _ => hP.processQueue

theorem operations (ops : List TreeOp) : P _ (operations cfg ops) := by
  induction ops with
  | nil => exact hP.ret _
  | cons o ops ih =>
    refine hP.bind ?_ fun _ => ih
    cases o with
    | addPoint pt col => exact hP.addPoint
    | queryRange lo hi resolution => exact hP.bind hP.queryRange fun _ => hP.ret _
    | rangeQueryLoop lo hi resolution rounds =>
      exact hP.bind hP.rangeQueryLoop fun _ => hP.ensure ..

/-! ### Fast insertion -/

theorem createNodeCache : P _ (NodeCache.create h) := hP.bind hP.get fun _ => hP.ret _

theorem createCache : P _ (FastCache.create cfg) :=
  hP.bind hP.getRoot fun _ => hP.bind hP.createNodeCache fun _ => hP.ret _

theorem fastAddPointRecursive : P _ (FastCache.addPointRecursive cfg pt col acc fuel nodes) := by
  induction fuel generalizing nodes with
  | zero => exact hP.fail _
  | succ fuel ih =>
    cases nodes with
    | nil => exact hP.fail _
    | cons nc nodes =>
      refine hP.bind hP.get fun _ => ite ?_ (ite ?_ ?_)
      · exact hP.bind hP.setPoint fun _ => hP.ret _
      · exact hP.bind hP.addToPoint fun _ => hP.ret _
      · refine hP.bind hP.splitLeaf fun _ => hP.bind hP.openChild fun _ => ?_
        exact hP.bind hP.createNodeCache fun _ => ih

section Merge

variable (hm : ∀ f s n, P _ (perform (.setNode f s n .merge)))
include hm

theorem pop : P _ (FastCache.pop nc nodes) := by
  have hrelease : P _ nc.release := hP.bind hP.releaseNode fun _ => hP.ret _
  unfold FastCache.pop
  cases nodes with
  | nil => exact hrelease
  | cons parent nodes =>
    refine hP.bind (hP.bind hP.get fun _ => hP.bind hP.get fun _ => ?_) fun _ => hrelease
    exact hP.bind (hP.lift _) fun _ => hP.bind (hP.lift _) fun _ => hm ..

theorem destroyCache : P _ (FastCache.destroy nodes) := by
  induction nodes with
  | nil => exact hP.ret _
  | cons nc nodes ih => exact hP.bind (hP.pop hm) fun _ => ih

theorem clearCache : P _ (FastCache.clear cfg nodes) :=
  hP.bind (hP.destroyCache hm) fun _ => hP.createCache

theorem popOutside : P _ (FastCache.popOutside pt nodes) := by
  induction nodes with
  | nil => exact hP.fail _
  | cons nc nodes ih => exact ite (hP.ret _) (hP.bind (hP.pop hm) fun _ => ih)

theorem fastAddPoint : P _ (FastCache.addPoint cfg pt col nodes) :=
  hP.bind (hP.popOutside hm) fun _ => hP.fastAddPointRecursive

theorem call {s : Client} (a : Call) : P _ (a.run cfg s) := by
  cases a with
  | getRoot => exact hP.bind hP.getRoot fun _ => hP.ret _
  | getChildNode k child =>
    simp only [Call.run]
    cases s.handles[k]? with
    | none => exact hP.ret _
    | some parent => exact hP.bind hP.getChildNode fun _ => hP.ret _
  | createChildNode k child =>
    simp only [Call.run]
    cases s.handles[k]? with
    | none => exact hP.ret _
    | some parent => exact hP.bind (hP.createChildNode ..) fun _ => hP.ret _
  | waitUntilLoaded k =>
    simp only [Call.run]
    cases s.handles[k]? with
    | none => exact hP.ret _
    | some h => exact hP.bind hP.waitUntilLoaded fun _ => hP.ret _
  | releaseNode k =>
    simp only [Call.run]
    cases s.handles[k]? with
    | none => exact hP.ret _
    | some h => exact hP.bind hP.releaseNode fun _ => hP.ret _
  | openIterator k =>
    simp only [Call.run]
    cases s.handles[k]? with
    | none => exact hP.ret _
    | some parent => exact hP.bind hP.createIterator fun _ => hP.ret _
  | closeIterator k =>
    simp only [Call.run]
    cases s.iterators[k]? with
    | none => exact hP.ret _
    | some kids => exact hP.bind hP.destroyIterator fun _ => hP.ret _
  | addPoint pt col => exact hP.bind hP.addPoint fun _ => hP.ret _
  | openCache => exact hP.bind hP.createCache fun _ => hP.ret _
  | fastAddPoint k pt col =>
    simp only [Call.run]
    cases s.caches[k]? with
    | none => exact hP.ret _
    | some nodes => exact hP.bind (hP.fastAddPoint hm) fun _ => hP.ret _
  | clearCache k =>
    simp only [Call.run]
    cases s.caches[k]? with
    | none => exact hP.ret _
    | some nodes => exact hP.bind (hP.clearCache hm) fun _ => hP.ret _
  | closeCache k =>
    simp only [Call.run]
    cases s.caches[k]? with
    | none => exact hP.ret _
    | some nodes => exact hP.bind (hP.destroyCache hm) fun _ => hP.ret _
  | queryRange lo hi resolution => exact hP.bind hP.queryRange fun _ => hP.ret _
  | rangeQueryLoop lo hi resolution rounds => exact hP.bind hP.rangeQueryLoop fun _ => hP.ret _
  | flushCache => exact hP.bind hP.flushCache fun _ => hP.ret _

theorem session {calls : List Call} {s : Client} : P _ (session cfg calls s) := by
  induction calls generalizing s with
  | nil => exact hP.ret _
  | cons a calls ih => exact hP.bind (hP.call hm a) fun _ => ih

theorem life {create : Bool} {calls : List Call} : P _ (life cfg create calls) := by
  refine hP.bind ?_ fun _ => hP.session hm
  exact ite hP.newTree (hP.ret _)

end Merge

end Composed

end MegaTree
