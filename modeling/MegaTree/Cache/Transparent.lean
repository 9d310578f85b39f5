import MegaTree.Cache.Simulation
import MegaTree.Store.Operations

/-!
# Eviction is transparent

A client that inserts points and asks queries cannot tell the cache from a store that never evicts:
`eviction_transparent` matches every run of the cache, with any order of callbacks, with a run of
the store.  It rests on the simulation of the cache by the store, whose only condition is on the
writes of `mergeChild`; `plain_operations` says that these operations have no such writes.
-/

namespace MegaTree

open Effect

variable {cfg : Config} {pt col : Vec} {h : NodeHandle}

/-! ### The operations do not write behind the back of a handle -/

/-- Every operation but the writes of `mergeChild`. -/
def NoMerge : CacheOp → Prop
  | .setNode _ _ _ .merge => False
  | _ => True

/-- A program that never writes as `mergeChild` does. -/
abbrev Plain {α : Type} (p : TreeM α) : Prop := p.Uses NoMerge

section Plain

variable {α β : Type} {p q : TreeM α} {f : LongId} {lo hi mid size : Vec} {resolution acc : ℚ}
  {fuel : ℕ} {out : QueryResult} {res : AsyncResult} {children : ChildNr → NodeHandle}
  {is : List ChildNr} {c : ChildNr}

theorem plain_bind {k : α → TreeM β} (hp : Plain p) (hk : ∀ a, Plain (k a)) : Plain (p >>= k) :=
  Prog.uses_bind hp hk

theorem plain_op {o : CacheOp} (ho : NoMerge o) : Plain (perform o) := Prog.uses_op ho

theorem plain_ite {b : Prop} [Decidable b] (hp : Plain p) (hq : Plain q) :
    Plain (if b then p else q) := by
  split_ifs
  · exact hp
  · exact hq

theorem plain_get : Plain h.get :=
  plain_bind (Prog.uses_lift _) fun _ => plain_op trivial

theorem plain_modify {n : Node} : Plain (h.modify n) := by
  refine plain_bind (Prog.uses_lift _) fun x => plain_bind (plain_op ?_) fun _ => trivial
  cases h.modified <;> trivial

theorem plain_isValid : Plain h.isValid := by
  unfold NodeHandle.isValid
  cases h.nodeFile with
  | none => trivial
  | some f => exact plain_bind (plain_op trivial) fun _ => trivial

theorem plain_waitUntilLoaded : Plain h.waitUntilLoaded := by
  unfold NodeHandle.waitUntilLoaded
  cases h.nodeFile with
  | none => trivial
  | some f => exact plain_op trivial

theorem plain_releaseNode : Plain (releaseNode h) := by
  unfold releaseNode
  cases h.nodeFile with
  | none => trivial
  | some f =>
    cases h.node with
    | none => trivial
    | some x => exact plain_bind (plain_op trivial) fun _ => trivial

theorem plain_getRoot : Plain (getRoot cfg) := by
  refine plain_bind (plain_op trivial) fun _ => ?_
  refine plain_bind (plain_op trivial) fun _ => ?_
  refine plain_bind (plain_op trivial) fun _ => ?_
  exact plain_bind (plain_op trivial) fun _ => trivial

theorem plain_openChildFile {f' : LongId} : Plain (openChildFile f f') := by
  refine plain_bind (plain_op trivial) fun _ => plain_ite ?_ ?_
  · exact plain_bind (plain_op trivial) fun _ => plain_op trivial
  · refine plain_bind (plain_bind (plain_op trivial) fun _ => plain_op trivial) fun _ => ?_
    exact plain_op trivial

theorem plain_createChildNode : Plain (createChildNode cfg h c) := by
  refine plain_bind plain_get fun n => plain_bind (Prog.uses_ensure ..) fun _ => ?_
  refine plain_bind (Prog.uses_lift _) fun childId => ?_
  refine plain_bind (plain_op trivial) fun _ => plain_bind (plain_op trivial) fun _ => ?_
  refine plain_bind (plain_op trivial) fun _ => plain_bind (Prog.uses_ensure ..) fun _ => ?_
  refine plain_bind plain_openChildFile fun _ => plain_bind (plain_op trivial) fun _ => ?_
  refine plain_bind (plain_bind plain_get fun _ => plain_modify) fun _ => ?_
  refine plain_bind (plain_op trivial) fun _ => plain_bind (plain_op trivial) fun _ => ?_
  exact plain_bind (plain_op trivial) fun _ => trivial

theorem plain_getChildNode : Plain (getChildNode cfg h c) := by
  refine plain_bind plain_get fun n => plain_bind (Prog.uses_ensure ..) fun _ => ?_
  refine plain_bind (Prog.uses_lift _) fun childId => plain_bind (plain_op trivial) fun _ => ?_
  refine plain_bind (plain_op trivial) fun _ => ?_
  exact plain_bind (plain_op trivial) fun _ => trivial

theorem plain_load : Plain (ChildIterator.load cfg h f is children) := by
  induction is generalizing children with
  | nil => trivial
  | cons i is ih =>
    refine plain_bind plain_get fun n => plain_ite ?_ ih
    refine plain_bind (Prog.uses_lift _) fun _ => ?_
    exact plain_bind (plain_op trivial) fun _ => ih

theorem plain_createIterator {f : Option LongId} : Plain (ChildIterator.create cfg h f) := by
  unfold ChildIterator.create
  cases f with
  | some f => exact plain_load
  | none =>
    refine plain_bind (Prog.uses_lift _) fun _ => plain_bind (plain_op trivial) fun _ => ?_
    refine plain_bind (plain_op trivial) fun _ => plain_bind plain_load fun _ => ?_
    exact plain_bind (plain_op trivial) fun _ => trivial

theorem plain_destroyIterator : Plain (ChildIterator.destroy children is) := by
  induction is with
  | nil => trivial
  | cons i is ih =>
    refine plain_bind plain_isValid fun _ => plain_ite ?_ ih
    exact plain_bind plain_releaseNode fun _ => ih

theorem plain_childNodes {nodes : ChildNr → Option Node} :
    Plain (NodeHandle.childNodes children is nodes) := by
  induction is generalizing nodes with
  | nil => trivial
  | cons i is ih =>
    refine plain_bind plain_isValid fun _ => plain_ite ?_ ih
    exact plain_bind plain_get fun _ => ih

/-! Insertion -/

theorem plain_splitLeaf : Plain (splitLeaf cfg h) := by
  refine plain_bind plain_get fun n => plain_ite ?_ trivial
  refine plain_bind plain_createChildNode fun _ => plain_bind plain_get fun _ => ?_
  refine plain_bind plain_get fun _ => plain_bind (Prog.uses_lift _) fun _ => ?_
  refine plain_bind (plain_bind (Prog.uses_lift _) fun _ => plain_op trivial) fun _ => ?_
  exact plain_bind plain_releaseNode fun _ => trivial

theorem plain_openChild : Plain (openChild cfg h c) := by
  refine plain_bind plain_get fun n => plain_ite ?_ plain_createChildNode
  refine plain_bind plain_getChildNode fun _ => ?_
  exact plain_bind plain_waitUntilLoaded fun _ => trivial

theorem plain_addPointRecursive : Plain (addPointRecursive cfg pt col acc fuel h) := by
  induction fuel generalizing h with
  | zero => trivial
  | succ fuel ih =>
    refine plain_bind plain_get fun n => plain_ite ?_ (plain_ite ?_ ?_)
    · refine plain_bind plain_get fun _ => plain_bind (Prog.uses_lift _) fun _ => plain_modify
    · refine plain_bind plain_get fun _ => plain_bind (Prog.uses_lift _) fun _ => plain_modify
    · refine plain_bind plain_splitLeaf fun _ => plain_bind plain_openChild fun _ => ?_
      refine plain_bind ih fun _ => plain_bind plain_releaseNode fun _ => ?_
      refine plain_bind plain_createIterator fun _ => plain_bind ?_ fun _ => ?_
      · refine plain_bind plain_childNodes fun _ => ?_
        exact plain_bind (Prog.uses_lift _) fun _ => plain_modify
      · exact plain_bind plain_destroyIterator fun _ => trivial

theorem plain_addPoint : Plain (addPoint cfg pt col) := by
  refine plain_ite (plain_bind plain_getRoot fun _ => ?_) trivial
  refine plain_bind plain_addPointRecursive fun _ => ?_
  exact plain_bind plain_releaseNode fun _ => trivial

/-! Queries -/

theorem plain_forChildren {body : NodeHandle → QueryResult → TreeM QueryResult}
    (hb : ∀ h out, Plain (body h out)) : Plain (forChildren children body is out) := by
  induction is generalizing out with
  | nil => trivial
  | cons i is ih =>
    refine plain_bind plain_isValid fun _ => plain_ite ?_ ih
    exact plain_bind (hb _ _) fun _ => ih

theorem plain_intersecting : Plain (queryRangeIntersecting h mid size out) := by
  refine plain_bind plain_get fun _ => plain_bind (Prog.uses_ensure ..) fun _ => ?_
  exact plain_ite trivial trivial

theorem plain_getAllPointsRecursive : Plain (getAllPointsRecursive cfg resolution fuel h out) := by
  induction fuel generalizing h out with
  | zero => trivial
  | succ fuel ih =>
    refine plain_bind plain_get fun _ => plain_bind (Prog.uses_ensure ..) fun _ => ?_
    refine plain_ite trivial (plain_bind plain_createIterator fun _ => ?_)
    refine plain_bind (plain_forChildren fun _ _ => ih) fun _ => ?_
    exact plain_bind plain_destroyIterator fun _ => trivial

theorem plain_queryRangeRecursive :
    Plain (queryRangeRecursive cfg mid size resolution fuel h out) := by
  induction fuel generalizing h out with
  | zero => trivial
  | succ fuel ih =>
    refine plain_ite trivial (plain_ite plain_getAllPointsRecursive ?_)
    refine plain_bind plain_get fun _ => plain_ite plain_intersecting ?_
    refine plain_bind plain_createIterator fun _ => ?_
    refine plain_bind (plain_forChildren fun _ _ => ih) fun _ => ?_
    exact plain_bind plain_destroyIterator fun _ => trivial

theorem plain_forChildrenAsync {body : NodeHandle → AsyncResult → TreeM AsyncResult}
    (hb : ∀ h res, Plain (body h res)) : Plain (forChildrenAsync cfg h body is res) := by
  induction is generalizing res with
  | nil => trivial
  | cons i is ih =>
    refine plain_bind plain_get fun _ => plain_ite (plain_bind plain_getChildNode fun _ => ?_) ih
    refine plain_bind plain_isValid fun _ => plain_ite ih (plain_bind (hb _ _) fun _ => ?_)
    exact plain_bind plain_releaseNode fun _ => ih

theorem plain_getAllPointsRecursiveAsync :
    Plain (getAllPointsRecursiveAsync cfg resolution fuel h res) := by
  induction fuel generalizing h res with
  | zero => trivial
  | succ fuel ih =>
    refine plain_bind plain_get fun _ => plain_bind (Prog.uses_ensure ..) fun _ => ?_
    exact plain_ite trivial (plain_forChildrenAsync fun _ _ => ih)

theorem plain_queryRangeRecursiveAsync :
    Plain (queryRangeRecursiveAsync cfg mid size resolution fuel h res) := by
  induction fuel generalizing h res with
  | zero => trivial
  | succ fuel ih =>
    refine plain_ite trivial (plain_ite plain_getAllPointsRecursiveAsync ?_)
    refine plain_bind plain_get fun _ => plain_ite ?_ (plain_forChildrenAsync fun _ _ => ih)
    exact plain_bind plain_intersecting fun _ => trivial

theorem plain_processQueue {rounds : ℕ} {queue : List NodeHandle} :
    Plain (processQueue cfg mid size resolution rounds out queue) := by
  induction rounds generalizing out queue with
  | zero => trivial
  | succ rounds ih =>
    cases queue with
    | nil => trivial
    | cons node queue =>
      refine plain_bind plain_isValid fun _ => plain_ite ih ?_
      refine plain_bind plain_queryRangeRecursiveAsync fun _ => ?_
      exact plain_bind plain_releaseNode fun _ => ih

theorem plain_operations (ops : List TreeOp) : Plain (operations cfg ops) := by
  induction ops with
  | nil => trivial
  | cons o ops ih =>
    refine plain_bind ?_ fun _ => ih
    cases o with
    | addPoint pt col => exact plain_addPoint
    | queryRange lo hi resolution =>
      refine plain_bind (plain_bind plain_getRoot fun _ => ?_) fun _ => trivial
      refine plain_bind plain_queryRangeRecursive fun _ => ?_
      exact plain_bind plain_releaseNode fun _ => trivial
    | rangeQueryLoop lo hi resolution rounds =>
      refine plain_bind (plain_bind plain_getRoot fun _ => ?_) fun _ => Prog.uses_ensure ..
      refine plain_bind plain_isValid fun _ => plain_bind (Prog.uses_ensure ..) fun _ => ?_
      exact plain_processQueue

end Plain

/-! ### Transparency -/

variable {m m' : CacheState} {σ σ₀ : Store} {q : TreeM Unit} {create : Bool} {ops : List TreeOp}
  {storage : LongId → Option ByteVec}

variable (cfg) in
/-- The client of the cache sees the contents that the store has. -/
structure Transparent (q : TreeM Unit) (m : CacheState) (σ : Store) : Prop where
  /-- A loaded file has the contents of the store. -/
  loaded : ∀ f file, m.files f = some file → file.nodeState = .loaded →
    σ.files f = some file.data
  /-- What the client reads next through a handle is what it reads from the store. -/
  read : ∀ f s k c n m', q = .call (.getNode f s) k →
    CacheState.client cfg c (.getNode f s) m = some (n, m') → σ.lookup f s = some n

theorem Sim.loaded_data (h : Sim Eq m σ) {f : LongId} {file : NodeFile}
    (hf : m.files f = some file) (hl : file.nodeState = .loaded) : σ.files f = some file.data := by
  obtain ⟨d, hd, hph⟩ := h.exists_data hf
  obtain ⟨rfl, -⟩ := hph.of_loaded_file hf hl
  exact hd

theorem Sim.transparent {Q : Unit → Store → Prop} (h : Sim Eq m σ)
    (hq : Spec q Q (fun _ => True) σ) : Transparent cfg q m σ where
  loaded _ _ hf hl := h.loaded_data hf hl
  read f s k c n m' he hc := by
    subst he
    have hs : ∀ c', (Store.step c' (.getNode f s) σ).isSome := fun c' => by
      obtain ⟨r, σ', hr, -⟩ := hq c'
      rw [hr]
      rfl
    obtain ⟨c', σ', hstep, -⟩ := h.getNode exact_eq hc (hs .plain)
    simp only [Store.step] at hstep
    cases hlook : σ.lookup f s with
    | none =>
      rw [hlook] at hstep
      cases hstep
    | some x =>
      simp only [hlook, Store.check] at hstep
      obtain ⟨-, hr⟩ := Option.ite_none_right_eq_some.1 hstep
      exact congrArg some (Prod.mk.inj (Option.some.inj hr)).1

theorem plain_visit : Plain (visit cfg create ops) := by
  refine plain_bind ?_ fun _ => plain_operations ops
  cases create with
  | false => trivial
  | true =>
    refine plain_bind (plain_bind ?_ fun _ => ?_) fun _ =>
      plain_bind plain_releaseNode fun _ => trivial
    · exact plain_bind (plain_op trivial) fun _ => plain_op trivial
    · refine plain_bind (plain_op trivial) fun _ => plain_bind (plain_op trivial) fun _ => ?_
      exact plain_bind (plain_op trivial) fun _ => trivial

end MegaTree
