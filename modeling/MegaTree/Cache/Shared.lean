import MegaTree.Cache.Basic
import MegaTree.Effect.Transition

/-!
# Several clients of one file cache

With more than one client thread the lookup of a file and the insertion of a new object are two
critical sections, and other threads run between them.  Then a `NodeFile*` is no longer named by the
id of its file: an object has an identity of its own, the address `ObjectId`, and the list and the
hash table of `Cache` are two data structures.

A step is one section under `file_cache_mutex`, or what a thread does outside of it.  What a client
does with the files that it holds is not restricted: it may change their contents at any time.
-/

namespace MegaTree

/-- The address of a `NodeFile`, and of its node in the list of the cache. -/
abbrev ObjectId := ℕ

/-- Where a client is inside `getNodeFile` or `createNodeFile`. -/
inductive Stage
  /-- In `getNodeFile`: the file was not found. -/
  | missed (f : LongId)
  /-- The new object is about to be pushed, in `createNodeFile` or in `getNodeFile`. -/
  | insert (f : LongId) (o : ObjectId) (create : Bool)
  /-- In `createNodeFile`, about to call `cacheMaintenance`. -/
  | maintain
  deriving DecidableEq

/-- The cache with its objects, and the calls of the clients `ι`. -/
structure SharedCache (ι : Type) where
  /-- The objects that were not deleted. -/
  objects : ObjectId → Option NodeFile
  /-- The address of the next object. -/
  fresh : ObjectId
  /-- `list_`, from the front. -/
  list : List (LongId × ObjectId)
  /-- `hash_` -/
  hash : LongId → Option ObjectId
  /-- The last completed write of each path. -/
  storage : LongId → Option ByteVec
  /-- The requests in flight, with the object that their callback is bound to. -/
  pending : Multiset (LongId × ObjectId × Request)
  /-- The calls of `readNodeFileCb` that have yet to call `cacheMaintenance`. -/
  loaders : ℕ
  /-- `current_cache_size` -/
  currentCacheSize : UInt32
  /-- `current_write_size` -/
  currentWriteSize : UInt32
  /-- The object whose `evictNodeFileCb` waits for `file_cache_mutex`, which it owns itself. -/
  jammed : Option ObjectId
  /-- The calls in progress. -/
  calls : ι → Option Stage
  /-- The files that the clients got from their calls and still use. -/
  held : Multiset (ι × LongId × ObjectId)

namespace SharedCache

variable {ι : Type} [DecidableEq ι] (s : SharedCache ι)

/-- Replace an object. -/
def setObject (o : ObjectId) (file : NodeFile) : SharedCache ι :=
  { s with objects := Function.update s.objects o (some file) }

/-- The next step of a call. -/
def goTo (c : ι) (stage : Option Stage) : SharedCache ι :=
  { s with calls := Function.update s.calls c stage }

/-! ### `Cache` -/

/-- `push_front(id, object)`: `unordered_map::insert` keeps an entry that is already there. -/
def pushFront (f : LongId) (o : ObjectId) : SharedCache ι :=
  { s with
    list := (f, o) :: s.list
    hash := if (s.hash f).isSome then s.hash else Function.update s.hash f (some o) }

/-- `erase(it)` -/
def erase (f : LongId) (o : ObjectId) : SharedCache ι :=
  { s with
    list := s.list.erase (f, o)
    hash := Function.update s.hash f none }

/-- `move_to_front(it)` -/
def moveToFront (f : LongId) (o : ObjectId) : SharedCache ι :=
  { s with list := (f, o) :: s.list.erase (f, o) }

/-! ### Eviction -/

/-- The branch of `cacheMaintenance` that evicts an unmodified file. -/
def dropFile (f : LongId) (o : ObjectId) (file : NodeFile) : SharedCache ι :=
  { s.erase f o with
    objects := Function.update s.objects o none
    currentCacheSize := s.currentCacheSize - file.cacheSize }

/-- The branch of `cacheMaintenance` that starts to evict a modified file. -/
def startEvict (f : LongId) (o : ObjectId) (file : NodeFile) : SharedCache ι :=
  { s.setObject o { file with nodeState := .evicting } with
    pending := (f, o, .evict (serialize file.data) false) ::ₘ s.pending
    currentWriteSize := s.currentWriteSize + file.cacheSize }

/-- The loop of `cacheMaintenance` over the list, from its back. -/
def evictLoop (cfg : Config) (busy : ObjectId → Bool) (numberToEvict : Int32) :
    List (LongId × ObjectId) → Int32 → SharedCache ι → Option (SharedCache ι)
  | [], numberEvicted, s => if numberEvicted ≤ numberToEvict then none else some s
  | (f, o) :: rest, numberEvicted, s =>
    if numberEvicted < numberToEvict then
      match s.objects o with
      | none => none
      | some file =>
        if busy o || file.nodeState != .loaded || decide (0 < file.useCount) then
          evictLoop cfg busy numberToEvict rest numberEvicted s
        else if !file.isModified then
          evictLoop cfg busy numberToEvict rest (numberEvicted + file.cacheSize.toInt32)
            (s.dropFile f o file)
        else if cfg.readOnly then none
        else
          evictLoop cfg busy numberToEvict rest (numberEvicted + file.cacheSize.toInt32)
            (s.startEvict f o file)
    else some s

/-- `cacheMaintenance()` -/
def cacheMaintenance (cfg : Config) (busy : ObjectId → Bool) : Option (SharedCache ι) :=
  if s.jammed = none then
    evictLoop cfg busy (s.currentCacheSize - cfg.maxCacheSize - s.currentWriteSize).toInt32
      s.list.reverse 0 s
  else none

/-! ### The calls of the clients -/

/-- The first section of `getNodeFile(file_id)`: the file is found, or not. -/
def getNodeFile (c : ι) (f : LongId) : Option (SharedCache ι) :=
  if s.jammed = none ∧ s.calls c = none then
    match s.hash f with
    | some o => (s.objects o).map fun file =>
        { (s.setObject o { file with
            nodeState := if file.nodeState = .evicting then .loading else file.nodeState
            useCount := file.useCount + 1 }).moveToFront f o with
          held := (c, f, o) ::ₘ s.held }
    | none => some (s.goTo c (some (.missed f)))
  else none

/-- `getNodeFile` goes on without the mutex: a new object, and the request to read it. -/
def request (c : ι) (modified : Bool) : Option (SharedCache ι) :=
  match s.calls c with
  | some (.missed f) => some { (s.setObject s.fresh ⟨.loading, .empty, 1, modified⟩).goTo c
      (some (.insert f s.fresh false)) with
        fresh := s.fresh + 1
        pending := (f, s.fresh, .read none) ::ₘ s.pending }
  | _ => none

/-- The start of `createNodeFile(file_id)`: a new object. -/
def createNodeFile (c : ι) (f : LongId) : Option (SharedCache ι) :=
  if s.calls c = none then
    some { (s.setObject s.fresh ⟨.loaded, .empty, 1, true⟩).goTo c
      (some (.insert f s.fresh true)) with fresh := s.fresh + 1 }
  else none

/-- The section that pushes the new object. -/
def insert (c : ι) : Option (SharedCache ι) :=
  if s.jammed = none then
    match s.calls c with
    | some (.insert f o create) => some { (s.pushFront f o).goTo c
        (if create then some .maintain else none) with held := (c, f, o) ::ₘ s.held }
    | _ => none
  else none

/-- The end of `createNodeFile`. -/
def maintain (cfg : Config) (c : ι) (busy : ObjectId → Bool) : Option (SharedCache ι) :=
  if s.calls c = some .maintain then (s.goTo c none).cacheMaintenance cfg busy else none

/-- A client changes the contents of a file that it holds, in any way. -/
def update (c : ι) (f : LongId) (o : ObjectId) (data : FileData) (modified : Bool)
    (added : UInt32) : Option (SharedCache ι) :=
  if (c, f, o) ∈ s.held then
    (s.objects o).map fun file => { s.setObject o { file with
      data := data
      isModified := file.isModified || modified } with
        currentCacheSize := s.currentCacheSize + added }
  else none

/-- `readNode` or `createNode` in a file that the client holds: the handle is one more user. -/
def addUser (c : ι) (f : LongId) (o : ObjectId) : Option (SharedCache ι) :=
  if (c, f, o) ∈ s.held then
    (s.objects o).map fun file =>
      { s.setObject o { file with useCount := file.useCount + 1 } with
        held := (c, f, o) ::ₘ s.held }
  else none

/-- `releaseNode` or `removeUser` -/
def removeUser (c : ι) (f : LongId) (o : ObjectId) (modified : Bool) : Option (SharedCache ι) :=
  if (c, f, o) ∈ s.held ∧ s.jammed ≠ some o then
    (s.objects o).bind fun file =>
      if 0 < file.useCount then
        some { s.setObject o { file with
          isModified := file.isModified || modified
          useCount := file.useCount - 1 } with held := s.held.erase (c, f, o) }
      else none
  else none

/-! ### The callbacks -/

/-- `evictNodeFileCb(it)` -/
def evictNodeFileCb (f : LongId) (o : ObjectId) : Option (SharedCache ι) :=
  if s.jammed = none then
    (s.objects o).bind fun file =>
      if file.isModified then
        match file.nodeState with
        | .evicting => some { s.erase f o with
            objects := Function.update s.objects o none
            currentCacheSize := s.currentCacheSize - file.cacheSize
            currentWriteSize := s.currentWriteSize - file.cacheSize }
        | .loading => some { s.setObject o { file with
            nodeState := .loaded, isModified := false } with jammed := some o }
        | _ => none
      else none
  else none

/-- `readNodeFileCb(node_file, buffer)`, up to its call of `cacheMaintenance`. -/
def readNodeFileCb (o : ObjectId) (buffer : ByteVec) : Option (SharedCache ι) :=
  if s.jammed ≠ some o then
    (s.objects o).bind fun file => (deserialize buffer file.data.nodeCache).map fun data =>
      let file := { file with nodeState := .loaded, data := data, isModified := false }
      { s.setObject o file with
        currentCacheSize := s.currentCacheSize + file.cacheSize
        loaders := s.loaders + 1 }
  else none

/-- The storage completes a request. -/
def complete (f : LongId) (o : ObjectId) (r : Request) : Option (SharedCache ι) :=
  if (f, o, r) ∈ s.pending then
    let rest := s.pending.erase (f, o, r)
    match r with
    | .read none => (s.storage f).map fun b =>
        { s with pending := (f, o, .read (some b)) ::ₘ rest }
    | .evict data false => some { s with
        storage := Function.update s.storage f (some data)
        pending := (f, o, .evict data true) ::ₘ rest }
    | _ => none
  else none

/-- The callback of a completed request runs. -/
def callback (f : LongId) (o : ObjectId) (r : Request) : Option (SharedCache ι) :=
  if (f, o, r) ∈ s.pending then
    let s := { s with pending := s.pending.erase (f, o, r) }
    match r with
    | .read (some buffer) => s.readNodeFileCb o buffer
    | .evict _ true => s.evictNodeFileCb f o
    | _ => none
  else none

end SharedCache

/-- The steps of the clients and of the storage. -/
inductive SharedEvent (ι : Type)
  | getNodeFile (c : ι) (f : LongId)
  | request (c : ι) (modified : Bool)
  | createNodeFile (c : ι) (f : LongId)
  | insert (c : ι)
  | maintain (c : ι) (busy : ObjectId → Bool)
  | update (c : ι) (f : LongId) (o : ObjectId) (data : FileData) (modified : Bool) (added : UInt32)
  | addUser (c : ι) (f : LongId) (o : ObjectId)
  | removeUser (c : ι) (f : LongId) (o : ObjectId) (modified : Bool)
  | complete (f : LongId) (o : ObjectId) (r : Request)
  | callback (f : LongId) (o : ObjectId) (r : Request)
  /-- `readNodeFileCb` calls `cacheMaintenance`. -/
  | maintenance (busy : ObjectId → Bool)

namespace SharedCache

variable {ι : Type} [DecidableEq ι]

/-- The meaning of the steps. -/
def step (cfg : Config) (e : SharedEvent ι) (s : SharedCache ι) : Option (SharedCache ι) :=
  match e with
  | .getNodeFile c f => s.getNodeFile c f
  | .request c modified => s.request c modified
  | .createNodeFile c f => s.createNodeFile c f
  | .insert c => s.insert c
  | .maintain c busy => s.maintain cfg c busy
  | .update c f o data modified added => s.update c f o data modified added
  | .addUser c f o => s.addUser c f o
  | .removeUser c f o modified => s.removeUser c f o modified
  | .complete f o r => s.complete f o r
  | .callback f o r => s.callback f o r
  | .maintenance busy =>
    if 0 < s.loaders then { s with loaders := s.loaders - 1 }.cacheMaintenance cfg busy else none

/-- The cache when a tree is opened. -/
def opened (storage : LongId → Option ByteVec) : SharedCache ι :=
  ⟨fun _ => none, 0, [], fun _ => none, storage, 0, 0, 0, 0, none, fun _ => none, 0⟩

end SharedCache

end MegaTree
