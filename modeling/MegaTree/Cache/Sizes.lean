import MegaTree.Cache.Flight

/-!
# What the size counters count

`current_cache_size` is meant to be the number of nodes of all files that have finished their first
load, and `current_write_size` the number of nodes of the files with an eviction write in flight.

* `sizes` : the sum of `cacheSize()` over a list of files.
* `SizesExact` : the counters have the numbers that they are meant to have.
* `heldNodes`, `poolSize` : the node objects of all files in memory, and how many there are.
-/

namespace MegaTree

/-- The number of objects of the `node_allocator`. -/
def Config.poolSize (cfg : Config) : UInt32 := cfg.maxCacheSize + cfg.maxCacheSize / 2

/-- A write of `cacheMaintenance`. -/
def Request.isEvict : Request → Bool
  | .evict _ _ => true
  | _ => false

namespace CacheState

variable (m : CacheState)

/-- `cacheSize()` of the object of a file. -/
def sizeOf (f : LongId) : ℕ := ((m.files f).map fun file => file.cacheSize.toNat).getD 0

/-- The sum of `cacheSize()` over some files. -/
def sizes (fs : List LongId) : ℕ := (fs.map m.sizeOf).sum

/-- An eviction write of the file is in flight. -/
def isWriting (f : LongId) : Bool :=
  decide (0 < (inFlight m.pending f).countP fun r => r.isEvict = true)

/-- The file has finished its first load: after that it is only `LOADING` when it was requested again
during its eviction. -/
def isCounted (f : LongId) : Bool :=
  (m.files f).any fun file => file.nodeState != .loading || m.isWriting f

/-- What `current_cache_size` is meant to be. -/
def cachedNodes : ℕ := m.sizes (m.order.filter m.isCounted)

/-- What `current_write_size` is meant to be. -/
def writingNodes : ℕ := m.sizes (m.order.filter m.isWriting)

/-- The number of nodes of a file. -/
def nodesOf (f : LongId) : ℕ := ((m.files f).map fun file => file.data.nodeCache.size).getD 0

/-- The number of node objects that the files in memory hold. -/
def heldNodes : ℕ := (m.order.map m.nodesOf).sum

/-- The counters have the numbers that they are meant to have. -/
structure SizesExact : Prop where
  cache : m.currentCacheSize.toNat = m.cachedNodes
  write : m.currentWriteSize.toNat = m.writingNodes

variable {m} {f : LongId} {file : NodeFile} {fs gs : List LongId}

theorem sizeOf_of_some (hf : m.files f = some file) : m.sizeOf f = file.cacheSize.toNat := by
  rw [sizeOf, hf]
  rfl

@[simp] theorem sizes_nil : m.sizes [] = 0 := rfl

@[simp] theorem sizes_cons : m.sizes (f :: fs) = m.sizeOf f + m.sizes fs := by
  simp [sizes]

@[simp] theorem sizes_append : m.sizes (fs ++ gs) = m.sizes fs + m.sizes gs := by
  simp [sizes]

theorem sizes_sublist (h : fs.Sublist gs) : m.sizes fs ≤ m.sizes gs := by
  induction h with
  | slnil => exact le_rfl
  | cons f _ ih =>
    rw [sizes_cons]
    omega
  | cons_cons f _ ih =>
    rw [sizes_cons, sizes_cons]
    omega

theorem sizes_perm (h : fs.Perm gs) : m.sizes fs = m.sizes gs := (h.map _).sum_eq

theorem nodesOf_of_some (hf : m.files f = some file) : m.nodesOf f = file.data.nodeCache.size := by
  rw [nodesOf, hf]
  rfl

theorem nodesOf_of_files {m' : CacheState} (hf : m'.files f = m.files f) :
    m'.nodesOf f = m.nodesOf f := by
  rw [nodesOf, nodesOf, hf]

theorem nodesOf_of_none (hf : m.files f = none) : m.nodesOf f = 0 := by
  rw [nodesOf, hf]
  rfl

theorem sizeOf_le_nodesOf (f : LongId) : m.sizeOf f ≤ m.nodesOf f := by
  cases hf : m.files f with
  | none => rw [sizeOf, hf]; exact Nat.zero_le _
  | some file =>
    rw [sizeOf_of_some hf, nodesOf_of_some hf, NodeFile.cacheSize, UInt32.toNat_ofNat']
    exact Nat.mod_le ..

/-- The files of a part of the list have no more nodes than all files hold. -/
theorem sizes_le_heldNodes (h : fs.Sublist m.order) : m.sizes fs ≤ m.heldNodes :=
  (sizes_sublist h).trans (List.sum_le_sum fun f _ => sizeOf_le_nodesOf f)

end CacheState

end MegaTree
