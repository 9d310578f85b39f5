import MegaTree.Core.NodeFile
import MegaTree.Effect.Wp

/-!
# Operations on the file cache

The functions of `MegaTree` and `tree_functions.cpp` reach node files and nodes only through a few
atomic steps: a lookup under `file_cache_mutex`, a node read or created inside a file, a field of a
node read or written.  `CacheOp` lists these steps and `TreeM` are the programs built from them.
`MegaTree.Store` gives them the meaning of a store that never evicts, `MegaTree.Cache` that of the
concurrent cache.

A `NodeFile*` is named by the id of its file and a `Node*` by the file and the short id: the cache
holds at most one object per id, and an object keeps its nodes for as long as it lives.
-/

namespace MegaTree

open Effect

/-- The parameters of a tree that the modelled functions read.  Outside the widths 1 to 10 the
shifts of `getParent` and `getBits` are undefined in C++. -/
structure Config where
  /-- `min_cell_size` -/
  minCellSize : ℚ
  /-- `root_geometry` -/
  rootGeometry : NodeGeometry
  /-- `subtree_width` -/
  subtreeWidth : ℕ
  /-- A file has nodes. -/
  width_pos : 1 ≤ subtreeWidth
  /-- The short ids fit in an `int`. -/
  width_le : subtreeWidth ≤ 10
  /-- `max_cache_size` -/
  maxCacheSize : UInt32
  /-- `read_only` -/
  readOnly : Bool

/-- A small tree over a cube of edge 8, for runs on fixed inputs. -/
def Config.sample : Config where
  minCellSize := 1
  rootGeometry := .ofCenter (fun _ => 0) 8
  subtreeWidth := 2
  width_pos := by decide
  width_le := by decide
  maxCacheSize := 100
  readOnly := false

/-- A tree with files of six levels, as the repair of the root file expects them. -/
def Config.sixLevels (cfg : Config) : Config :=
  { cfg with subtreeWidth := 6, width_pos := by decide, width_le := by decide }

/-- How the fields of a node are written. -/
inductive Write
  /-- By a mutator of a `NodeHandle` that was not marked as modified yet. -/
  | first
  /-- By a mutator of a `NodeHandle` that is already marked as modified. -/
  | again
  /-- Through the `Node*`, by `copyToChildNode`. -/
  | copy
  /-- Through the `Node*`, by `NodeCache::mergeChild`. -/
  | merge
  deriving DecidableEq, Repr

/-- The atomic steps of a client of the file cache. -/
inductive CacheOp
  /-- `MegaTree::getNodeFile`: look the file up, or start to read it; add a user. -/
  | getNodeFile (f : LongId)
  /-- The creation of a file and its insertion in `MegaTree::createNodeFile`; add a user. -/
  | createNodeFile (f : LongId)
  /-- `MegaTree::cacheMaintenance` -/
  | cacheMaintenance
  /-- `NodeFile::waitUntilLoaded` -/
  | waitUntilLoaded (f : LongId)
  /-- `getNodeState() == LOADED` -/
  | isLoaded (f : LongId)
  /-- `NodeFile::hasChildFile` -/
  | hasChildFile (f : LongId) (child : ChildNr)
  /-- `NodeFile::setChildFile` -/
  | setChildFile (f : LongId) (child : ChildNr)
  /-- `NodeFile::readNode`; the reply says whether the result is not `NULL`. -/
  | readNode (f : LongId) (s : ShortId)
  /-- `NodeFile::createNode` -/
  | createNode (f : LongId) (s : ShortId)
  /-- `current_cache_size++` -/
  | countNode
  /-- `NodeFile::removeUser` -/
  | removeUser (f : LongId)
  /-- Read the fields of a node. -/
  | getNode (f : LongId) (s : ShortId)
  /-- Write the fields of a node. -/
  | setNode (f : LongId) (s : ShortId) (n : Node) (w : Write)
  /-- `NodeFile::releaseNode` -/
  | releaseNode (f : LongId) (modified : Bool)
  /-- The start of `MegaTree::flushCache`: take `file_cache_mutex` and list the files. -/
  | flushBegin
  /-- One round of the loop of `MegaTree::flushCache`. -/
  | flushFile (f : LongId)
  /-- The end of `MegaTree::flushCache`: wait for the writes and release `file_cache_mutex`. -/
  | flushWait

/-- The reply to each step. -/
def CacheOp.Res : CacheOp → Type
  | .isLoaded _ => Bool
  | .hasChildFile _ _ => Bool
  | .readNode _ _ => Bool
  | .getNode _ _ => Node
  | .flushBegin => List LongId
  | _ => Unit

/-- The operations of the file cache. -/
abbrev cacheSig : Sig := ⟨CacheOp, CacheOp.Res⟩

/-- Client programs of the file cache. -/
abbrev TreeM := Prog cacheSig Err

/-- Perform one step. -/
def perform (o : CacheOp) : TreeM o.Res := Prog.op (G := cacheSig) o

end MegaTree
