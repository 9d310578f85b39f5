import MegaTree.Tree.AddPoint
import MegaTree.Tree.Query
import Mathlib.Data.List.Perm.Basic

/-!
# Sessions of a client

A client of a `MegaTree` holds node handles, `ChildIterator`s and `TreeFastCache`s, and calls the
public functions in any order: a session is a list of calls.  A call names the objects it uses by
their numbers; a number without an object is a call that is not made.
-/

namespace MegaTree

open Effect

variable (cfg : Config)

/-- The loop of `flushCache()` over the files of the cache. -/
def flushFiles : List LongId → TreeM Unit
  | [] => pure ()
  | f :: fs => do
    perform (.flushFile f)
    flushFiles fs

/-- `flushCache()` -/
def flushCache : TreeM Unit := do
  let files : List LongId ← perform .flushBegin
  flushFiles files
  perform .flushWait

/-- The objects of a client.  A handle that was released stays, but it is invalid. -/
structure Client where
  /-- The node handles. -/
  handles : List NodeHandle
  /-- The child handles of the `ChildIterator`s. -/
  iterators : List (ChildNr → NodeHandle)
  /-- The stacks of the `TreeFastCache`s. -/
  caches : List (List NodeCache)
  /-- The nodes that queries stopped to wait for. -/
  waiting : List NodeHandle

/-- All handles of a client. -/
def Client.nodeHandles (s : Client) : List NodeHandle :=
  s.handles ++ s.iterators.flatMap (fun children => (List.finRange 8).map children) ++
    s.caches.flatMap (fun nodes => nodes.map NodeCache.nh) ++ s.waiting

/-- A client without objects. -/
def Client.init : Client := ⟨[], [], [], []⟩

/-- The calls of a client. -/
inductive Call
  | getRoot
  | getChildNode (parent : ℕ) (child : ChildNr)
  | createChildNode (parent : ℕ) (child : ChildNr)
  | waitUntilLoaded (node : ℕ)
  | releaseNode (node : ℕ)
  /-- The constructor of a `ChildIterator`. -/
  | openIterator (parent : ℕ)
  /-- The destructor of a `ChildIterator`. -/
  | closeIterator (iterator : ℕ)
  | addPoint (pt col : Vec)
  /-- The constructor of a `TreeFastCache`. -/
  | openCache
  /-- `TreeFastCache::addPoint` -/
  | fastAddPoint (cache : ℕ) (pt col : Vec)
  /-- `TreeFastCache::clear` -/
  | clearCache (cache : ℕ)
  /-- The destructor of a `TreeFastCache`. -/
  | closeCache (cache : ℕ)
  | queryRange (lo hi : Vec) (resolution : ℚ)
  | rangeQueryLoop (lo hi : Vec) (resolution : ℚ) (rounds : ℕ)
  | flushCache

/-- One call: the objects of the client afterwards. -/
def Call.run (s : Client) : Call → TreeM Client
  | .getRoot => do
    let h ← MegaTree.getRoot cfg
    pure { s with handles := s.handles ++ [h] }
  | .getChildNode k child =>
    match s.handles[k]? with
    | none => pure s
    | some parent => do
      let h ← MegaTree.getChildNode cfg parent child
      pure { s with handles := s.handles ++ [h] }
  | .createChildNode k child =>
    match s.handles[k]? with
    | none => pure s
    | some parent => do
      let (parent, h) ← MegaTree.createChildNode cfg parent child
      pure { s with handles := s.handles.set k parent ++ [h] }
  | .waitUntilLoaded k =>
    match s.handles[k]? with
    | none => pure s
    | some h => do
      h.waitUntilLoaded
      pure s
  | .releaseNode k =>
    match s.handles[k]? with
    | none => pure s
    | some h => do
      let h ← MegaTree.releaseNode h
      pure { s with handles := s.handles.set k h }
  | .openIterator k =>
    match s.handles[k]? with
    | none => pure s
    | some parent => do
      let children ← ChildIterator.create cfg parent none
      pure { s with iterators := s.iterators ++ [children] }
  | .closeIterator k =>
    match s.iterators[k]? with
    | none => pure s
    | some children => do
      ChildIterator.destroy children (List.finRange 8)
      pure { s with iterators := s.iterators.eraseIdx k }
  | .addPoint pt col => do
    MegaTree.addPoint cfg pt col
    pure s
  | .openCache => do
    let nodes ← FastCache.create cfg
    pure { s with caches := s.caches ++ [nodes] }
  | .fastAddPoint k pt col =>
    match s.caches[k]? with
    | none => pure s
    | some nodes => do
      let nodes ← FastCache.addPoint cfg pt col nodes
      pure { s with caches := s.caches.set k nodes }
  | .clearCache k =>
    match s.caches[k]? with
    | none => pure s
    | some nodes => do
      let nodes ← FastCache.clear cfg nodes
      pure { s with caches := s.caches.set k nodes }
  | .closeCache k =>
    match s.caches[k]? with
    | none => pure s
    | some nodes => do
      FastCache.destroy nodes
      pure { s with caches := s.caches.eraseIdx k }
  | .queryRange lo hi resolution => do
    let _ ← MegaTree.queryRange cfg lo hi resolution
    pure s
  | .rangeQueryLoop lo hi resolution rounds => do
    let out ← MegaTree.rangeQueryLoop cfg lo hi resolution rounds
    pure { s with waiting := s.waiting ++ out.2 }
  | .flushCache => do
    MegaTree.flushCache
    pure s

/-- A sequence of calls. -/
def session : List Call → Client → TreeM Client
  | [], s => pure s
  | c :: cs, s => do
    let s ← c.run cfg s
    session cs s

/-- The constructors of `MegaTree`: a new tree gets a root, an existing tree is only opened. -/
def construct (create : Bool) : TreeM Unit := if create then newTree cfg else pure ()

/-- A session on a new tree or on one that was opened. -/
def life (create : Bool) (calls : List Call) : TreeM Client := do
  construct cfg create
  session cfg calls .init

/-! ### Operations without handles -/

/-- The operations after which the client holds nothing. -/
inductive TreeOp
  | addPoint (pt col : Vec)
  | queryRange (lo hi : Vec) (resolution : ℚ)
  | rangeQueryLoop (lo hi : Vec) (resolution : ℚ) (rounds : ℕ)

/-- One operation.  The loop of an asynchronous query goes on until no node is waiting any more, so
a bound on its rounds that is too small is no run of the source. -/
def TreeOp.run : TreeOp → TreeM Unit
  | .addPoint pt col => MegaTree.addPoint cfg pt col
  | .queryRange lo hi resolution => do
    let _ ← MegaTree.queryRange cfg lo hi resolution
    pure ()
  | .rangeQueryLoop lo hi resolution rounds => do
    let out ← MegaTree.rangeQueryLoop cfg lo hi resolution rounds
    Prog.ensure out.2.isEmpty .outOfFuel

/-- A sequence of operations. -/
def operations : List TreeOp → TreeM Unit
  | [] => pure ()
  | o :: os => do
    o.run cfg
    operations os

/-! ### Lists of objects -/

section Lists

variable {α β : Type} {xs : List α} {k : ℕ} {a b : α} {f : α → List β}

/-- What belongs to one object, before what belongs to the others. -/
theorem flatMap_perm_eraseIdx (hk : xs[k]? = some a) :
    (xs.flatMap f).Perm (f a ++ (xs.eraseIdx k).flatMap f) := by
  obtain ⟨hlt, rfl⟩ := List.getElem?_eq_some_iff.1 hk
  exact ((List.getElem_cons_eraseIdx_perm hlt).symm.flatMap_right f)

theorem flatMap_set_perm (hk : xs[k]? = some a) :
    ((xs.set k b).flatMap f).Perm (f b ++ (xs.eraseIdx k).flatMap f) := by
  obtain ⟨hlt, -⟩ := List.getElem?_eq_some_iff.1 hk
  exact (List.set_perm_cons_eraseIdx hlt b).flatMap_right f

theorem subset_flatMap (hk : xs[k]? = some a) : f a ⊆ xs.flatMap f := fun _ ht =>
  List.mem_flatMap.2 ⟨a, List.mem_of_getElem? hk, ht⟩

theorem forall_mem_set {P : α → Prop} (h : ∀ x ∈ xs, P x) (hb : P b) : ∀ x ∈ xs.set k b, P x := by
  intro x hx
  rcases List.mem_or_eq_of_mem_set hx with hx | rfl
  · exact h x hx
  · exact hb

theorem forall_mem_concat {P : α → Prop} (h : ∀ x ∈ xs, P x) (hb : P b) :
    ∀ x ∈ xs ++ [b], P x := by
  intro x hx
  rcases List.mem_append.1 hx with hx | hx
  · exact h x hx
  · rw [List.mem_singleton.1 hx]
    exact hb

end Lists

end MegaTree
