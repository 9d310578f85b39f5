import MegaTree.Effect.Interleave
import MegaTree.Tree.Op
import Mathlib.Data.Multiset.Filter

/-!
# The concurrent file cache

The file cache of `megatree.cpp` with one client thread, a storage and the callbacks of the storage.
A `CacheState` has the objects in the cache in LRU order, the bytes in the storage, the requests in
flight, the two size counters and the owners of the mutexes.

* `cacheMaintenance` : the eviction loop, from the back of the LRU list.
* `evictNodeFileCb` : the callback of an eviction write, with the mutexes that it takes.
* `cacheMachine` : the client calls the operations of `CacheOp`; the environment completes requests
  and runs callbacks, in any order.

Every step runs between two moments at which another thread may run.  `getNodeFile` asks the storage
before it pushes the new object; here both are one step, because until then no other thread can
tell.  A `none` stands for a step that must wait, for an abort or a failed assertion, or for the use
of an object that is gone.
-/

namespace MegaTree

open Effect

/-- `NodeState` -/
inductive NodeState
  | invalid
  | loading
  | loaded
  | evicting
  deriving DecidableEq, Repr

/-- `NodeFile`: an object in the cache. -/
structure NodeFile where
  /-- `node_state` -/
  nodeState : NodeState
  /-- `child_files` and `node_cache` -/
  data : FileData
  /-- `use_count` -/
  useCount : ℕ
  /-- `is_modified` -/
  isModified : Bool

/-- `cacheSize()` -/
def NodeFile.cacheSize (file : NodeFile) : UInt32 := .ofNat file.data.nodeCache.size

/-- The threads that hold a mutex from one step to the next. -/
inductive Thread
  /-- The client. -/
  | client
  /-- The worker that runs `evictNodeFileCb` for a file. -/
  | evictNodeFileCb (f : LongId)
  deriving DecidableEq

/-- The mutexes. -/
inductive Lock
  /-- `file_cache_mutex` -/
  | fileCacheMutex
  /-- The `mutex` of a file. -/
  | fileMutex (f : LongId)
  deriving DecidableEq

/-- A request in flight. -/
inductive Request
  /-- `getAsync` with `readNodeFileCb`; the buffer is there when the read is complete. -/
  | read (buffer : Option ByteVec)
  /-- `putAsync` with `evictNodeFileCb`, and whether the write is complete. -/
  | evict (data : ByteVec) (written : Bool)
  /-- `putAsync` with `flushNodeFileCb`, and whether the write is complete. -/
  | flush (data : ByteVec) (written : Bool)
  deriving DecidableEq

/-- The cache, the storage and what is in flight between them. -/
structure CacheState where
  /-- The objects in `file_cache`. -/
  files : LongId → Option NodeFile
  /-- The ids in `file_cache`, the most recently used first. -/
  order : List LongId
  /-- The last completed write of each path. -/
  storage : LongId → Option ByteVec
  /-- The requests in flight. -/
  pending : Multiset (LongId × Request)
  /-- The calls of `readNodeFileCb` that have yet to call `cacheMaintenance`. -/
  loaders : ℕ
  /-- `current_cache_size` -/
  currentCacheSize : UInt32
  /-- `current_write_size` -/
  currentWriteSize : UInt32
  /-- `remaining`, in `flushCache`. -/
  remaining : ℕ
  /-- The owners of the mutexes. -/
  owner : Lock → Option Thread
  /-- The number of live `NodeHandle`s of each file that have `modified` set. -/
  marked : LongId → ℕ

/-- The requests for one file. -/
def inFlight (pending : Multiset (LongId × Request)) (f : LongId) : Multiset Request :=
  (pending.filter fun x => x.1 = f).map Prod.snd

namespace CacheState

variable (m : CacheState)

/-- Replace an object. -/
def setFile (f : LongId) (file : NodeFile) : CacheState :=
  { m with files := Function.update m.files f (some file) }

/-! ### Eviction -/

/-- The branch of `cacheMaintenance` that evicts an unmodified file. -/
def dropFile (f : LongId) (file : NodeFile) : CacheState :=
  { m with
    files := Function.update m.files f none
    order := m.order.erase f
    currentCacheSize := m.currentCacheSize - file.cacheSize }

/-- The branch of `cacheMaintenance` that starts to evict a modified file. -/
def startEvict (f : LongId) (file : NodeFile) : CacheState :=
  { m with
    files := Function.update m.files f (some { file with nodeState := .evicting })
    pending := (f, .evict (serialize file.data) false) ::ₘ m.pending
    currentWriteSize := m.currentWriteSize + file.cacheSize }

/-- The loop of `cacheMaintenance` over the files from the back of the list.  The files in `busy`
are locked by another thread at that moment.  At the end of the list the loop aborts when it could
not evict enough. -/
def evictLoop (cfg : Config) (busy : LongId → Bool) (numberToEvict : Int32) :
    List LongId → Int32 → CacheState → Option CacheState
  | [], numberEvicted, m => if numberEvicted ≤ numberToEvict then none else some m
  | f :: fs, numberEvicted, m =>
    if numberEvicted < numberToEvict then
      match m.files f with
      | none => evictLoop cfg busy numberToEvict fs numberEvicted m
      | some file =>
        if busy f || file.nodeState != .loaded || decide (0 < file.useCount) then
          evictLoop cfg busy numberToEvict fs numberEvicted m
        else if !file.isModified then
          evictLoop cfg busy numberToEvict fs (numberEvicted + file.cacheSize.toInt32)
            (m.dropFile f file)
        else if cfg.readOnly then none
        else
          evictLoop cfg busy numberToEvict fs (numberEvicted + file.cacheSize.toInt32)
            (m.startEvict f file)
    else some m

/-- `cacheMaintenance()` -/
def cacheMaintenance (cfg : Config) (busy : LongId → Bool) : Option CacheState :=
  if m.owner .fileCacheMutex = none then
    evictLoop cfg busy (m.currentCacheSize - cfg.maxCacheSize - m.currentWriteSize).toInt32
      m.order.reverse 0 m
  else none

/-! ### The callbacks -/

/-- How a callback ends. -/
inductive CbResult
  /-- It waits for a mutex of another thread. -/
  | blocked
  /-- An assertion failed. -/
  | aborted
  /-- It waits for a mutex that it owns itself. -/
  | deadlocked (m : CacheState)
  /-- It returned. -/
  | finished (m : CacheState)

/-- `scoped_lock`: thread `t` takes a mutex that is not recursive. -/
def lock (t : Thread) (l : Lock) (k : CacheState → CbResult) : CbResult :=
  match m.owner l with
  | none => k { m with owner := Function.update m.owner l (some t) }
  | some t' => if t' = t then .deadlocked m else .blocked

/-- The end of the scope of a `scoped_lock`. -/
def unlock (l : Lock) : CacheState := { m with owner := Function.update m.owner l none }

/-- `evictNodeFileCb(it)` -/
def evictNodeFileCb (f : LongId) : CbResult :=
  let t := Thread.evictNodeFileCb f
  m.lock t .fileCacheMutex fun m => m.lock t (.fileMutex f) fun m =>
    match m.files f with
    | none => .aborted
    | some file =>
      if file.isModified then
        match file.nodeState with
        | .evicting => .finished (CacheState.unlock (CacheState.unlock { m with
            files := Function.update m.files f none
            order := m.order.erase f
            currentCacheSize := m.currentCacheSize - file.cacheSize
            currentWriteSize := m.currentWriteSize - file.cacheSize } (.fileMutex f)) .fileCacheMutex)
        | .loading =>
          -- the source takes `file_cache_mutex` a second time here
          (m.setFile f { file with nodeState := .loaded, isModified := false }).lock t .fileCacheMutex
            fun m => .finished (CacheState.unlock (CacheState.unlock { m with
              currentWriteSize := m.currentWriteSize - file.cacheSize } (.fileMutex f))
                .fileCacheMutex)
        | _ => .aborted
      else .aborted

/-- `readNodeFileCb(node_file, buffer)`, up to its call of `cacheMaintenance`. -/
def readNodeFileCb (f : LongId) (buffer : ByteVec) : Option CacheState :=
  if m.owner (.fileMutex f) = none then
    (m.files f).bind fun file => (deserialize buffer file.data.nodeCache).map fun data =>
      let file := { file with nodeState := .loaded, data := data, isModified := false }
      { m.setFile f file with
        currentCacheSize := m.currentCacheSize + file.cacheSize
        loaders := m.loaders + 1 }
  else none

/-- `flushNodeFileCb(it, mutex, condition, remaining)` -/
def flushNodeFileCb (f : LongId) : Option CacheState :=
  if m.owner (.fileMutex f) = none then
    (m.files f).map fun file =>
      { m.setFile f { file with isModified := false } with remaining := m.remaining - 1 }
  else none

end CacheState

/-! ### The machine -/

/-- What a step of the client leaves open. -/
structure CacheChoice where
  /-- The files that are locked by another thread when `cacheMaintenance` tries to lock them. -/
  busy : LongId → Bool
  /-- `is_modified` of a new object, which the constructor does not set. -/
  modified : Bool
  /-- What a node object held before it was allocated again. -/
  stale : Node

/-- The choice without locked files. -/
def CacheChoice.plain : CacheChoice := ⟨fun _ => false, false, .new⟩

namespace CacheState

/-- The steps of the client. -/
def client (cfg : Config) (c : CacheChoice) (o : CacheOp) (m : CacheState) :
    Option (o.Res × CacheState) :=
  match o with
  | .getNodeFile f =>
    if m.owner .fileCacheMutex = none then
      match m.files f with
      | some file => some ((), { m.setFile f { file with
          nodeState := if file.nodeState = .evicting then .loading else file.nodeState
          useCount := file.useCount + 1 } with order := f :: m.order.erase f })
      | none => some ((), { m.setFile f ⟨.loading, .empty, 1, c.modified⟩ with
          order := f :: m.order
          pending := (f, .read none) ::ₘ m.pending })
    else none
  | .createNodeFile f =>
    -- a second object with the same id would be out of reach for `find`
    if m.owner .fileCacheMutex = none ∧ (m.files f).isNone then
      some ((), { m.setFile f ⟨.loaded, .empty, 1, true⟩ with order := f :: m.order })
    else none
  | .cacheMaintenance => (m.cacheMaintenance cfg c.busy).map fun m => ((), m)
  | .waitUntilLoaded f =>
    (m.files f).bind fun file => if file.nodeState = .loaded then some ((), m) else none
  | .isLoaded f => (m.files f).map fun file => (decide (file.nodeState = .loaded), m)
  | .hasChildFile f child => (m.files f).map fun file => (file.data.hasChildFile child, m)
  | .setChildFile f child => (m.files f).map fun file =>
      ((), m.setFile f { file with data := file.data.setChildFile child, isModified := true })
  | .readNode f s => (m.files f).bind fun file =>
    match file.data.nodeCache[s]? with
    | some _ => some (true, m.setFile f { file with useCount := file.useCount + 1 })
    | none =>
      match file.nodeState with
      | .loading => some (true, m.setFile f { file with
          data := file.data.setNode s c.stale.reset
          useCount := file.useCount + 1 })
      | .evicting => none
      | _ => some (false, m)
  | .createNode f s => (m.files f).map fun file => ((), m.setFile f { file with
      -- `std::map::insert` keeps a node that is already there
      data := if (file.data.nodeCache[s]?).isSome then file.data
        else file.data.setNode s c.stale.reset
      useCount := file.useCount + 1
      isModified := true })
  | .countNode => some ((), { m with currentCacheSize := m.currentCacheSize + 1 })
  | .removeUser f => (m.files f).bind fun file =>
      if 0 < file.useCount then
        some ((), m.setFile f { file with useCount := file.useCount - 1 })
      else none
  | .getNode f s => (m.files f).bind fun file => (file.data.nodeCache[s]?).map fun n => (n, m)
  | .setNode f s n w => (m.files f).bind fun file =>
      if (file.data.nodeCache[s]?).isSome then
        some ((), { m.setFile f { file with data := file.data.setNode s n } with
          marked := Function.update m.marked f (m.marked f + if w = .first then 1 else 0) })
      else none
  | .releaseNode f modified =>
    if m.owner (.fileMutex f) = none then
      (m.files f).bind fun file =>
        if 0 < file.useCount then some ((), { m.setFile f { file with
          isModified := file.isModified || modified
          useCount := file.useCount - 1 } with
          marked := Function.update m.marked f (m.marked f - modified.toNat) })
        else none
    else none
  | .flushBegin =>
    if m.owner .fileCacheMutex = none then
      some (m.order, { m with
        owner := Function.update m.owner .fileCacheMutex (some .client)
        remaining := 0 })
    else none
  | .flushFile f =>
    if m.owner .fileCacheMutex = some .client then
      (m.files f).bind fun file =>
        if file.nodeState ≠ .loading ∧ file.isModified = true then
          if cfg.readOnly then none
          else some ((), { m with
            remaining := m.remaining + 1
            pending := (f, .flush (serialize file.data) false) ::ₘ m.pending })
        else some ((), m)
    else none
  | .flushWait =>
    if m.owner .fileCacheMutex = some .client ∧ m.remaining = 0 then
      some ((), m.unlock .fileCacheMutex)
    else none

/-- A step of the environment. -/
inductive Event
  /-- The storage completes a request. -/
  | complete (f : LongId) (r : Request)
  /-- The callback of a completed request runs. -/
  | callback (f : LongId) (r : Request)
  /-- `readNodeFileCb` calls `cacheMaintenance`. -/
  | maintenance (busy : LongId → Bool)

/-- The steps of the storage and its callbacks. -/
def env (cfg : Config) (e : Event) (m : CacheState) : Option CacheState :=
  match e with
  | .complete f r =>
    if (f, r) ∈ m.pending then
      let rest := m.pending.erase (f, r)
      match r with
      | .read none => (m.storage f).map fun b => { m with pending := (f, .read (some b)) ::ₘ rest }
      | .evict data false => some { m with
          storage := Function.update m.storage f (some data)
          pending := (f, .evict data true) ::ₘ rest }
      | .flush data false => some { m with
          storage := Function.update m.storage f (some data)
          pending := (f, .flush data true) ::ₘ rest }
      | _ => none
    else none
  | .callback f r =>
    if (f, r) ∈ m.pending then
      let m := { m with pending := m.pending.erase (f, r) }
      match r with
      | .read (some buffer) => m.readNodeFileCb f buffer
      | .evict _ true =>
        match m.evictNodeFileCb f with
        | .finished m' => some m'
        | .deadlocked m' => some m'
        | _ => none
      | .flush _ true => m.flushNodeFileCb f
      | _ => none
    else none
  | .maintenance busy =>
    if 0 < m.loaders then { m with loaders := m.loaders - 1 }.cacheMaintenance cfg busy else none

/-- The cache when a tree is opened: nothing is in memory or in flight. -/
def opened (storage : LongId → Option ByteVec) : CacheState :=
  ⟨fun _ => none, [], storage, 0, 0, 0, 0, 0, fun _ => none, fun _ => 0⟩

end CacheState

/-- The machine of the file cache. -/
def cacheMachine (cfg : Config) : Machine cacheSig CacheChoice CacheState.Event CacheState :=
  ⟨CacheState.client cfg, CacheState.env cfg⟩

end MegaTree
