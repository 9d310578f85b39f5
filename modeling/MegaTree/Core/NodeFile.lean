import MegaTree.Core.Node
import Std.Data.ExtTreeMap

/-!
# Node files

`FileData` is the persistent part of a `NodeFile`: the byte of existing child files and the ordered
map from short ids to nodes.  `serialize` and `deserialize` are the byte format of `node_file.cpp`
on a little-endian machine: the child byte, then one record of `nodeSize` bytes per node in the
order of the short ids.

* `ofLeBytes_leBytes` : the little-endian encoding of a machine integer can be read back.
* `deserializeNode_serializeNode` : one record, at any offset.
* `deserialize_serialize` : a whole file, merged into the nodes that the file already holds.
-/

namespace MegaTree

open Std

/-- `node_cache`: the nodes of a file, ordered by short id. -/
abbrev NodeMap := ExtTreeMap ShortId Node compare

/-- The contents of a node file. -/
structure FileData where
  /-- `child_files`: which child files exist, one bit per child. -/
  childFiles : UInt8
  /-- `node_cache` -/
  nodeCache : NodeMap

namespace FileData

/-- A file without nodes and without child files. -/
def empty : FileData := ⟨0, ∅⟩

/-- `hasChildFile(child)` -/
def hasChildFile (f : FileData) (child : ChildNr) : Bool :=
  (f.childFiles >>> .ofNat child.val) &&& 1 == 1

/-- `setChildFile(child)` -/
def setChildFile (f : FileData) (child : ChildNr) : FileData :=
  { f with childFiles := f.childFiles ||| Node.childBit child }

/-- Store a node under a short id. -/
def setNode (f : FileData) (shortId : ShortId) (n : Node) : FileData :=
  { f with nodeCache := f.nodeCache.insert shortId n }

theorem hasChildFile_setChildFile (f : FileData) (i j : ChildNr) :
    (f.setChildFile i).hasChildFile j = (decide (j = i) || f.hasChildFile j) :=
  Node.hasChild_setChild (n := ⟨0, fun _ => 0, fun _ => 0, f.childFiles⟩) i j

@[simp] theorem hasChildFile_empty (i : ChildNr) : empty.hasChildFile i = false := by
  revert i; decide

@[simp] theorem hasChildFile_setNode (f : FileData) (s : ShortId) (n : Node) (i : ChildNr) :
    (f.setNode s n).hasChildFile i = f.hasChildFile i := rfl

@[simp] theorem nodeCache_setChildFile (f : FileData) (i : ChildNr) :
    (f.setChildFile i).nodeCache = f.nodeCache := rfl

@[simp] theorem getElem?_setNode (f : FileData) (s s' : ShortId) (n : Node) :
    (f.setNode s n).nodeCache[s']? = if s = s' then some n else f.nodeCache[s']? := by
  simp [setNode, ExtTreeMap.getElem?_insert]

end FileData

/-! ### Little-endian integers -/

/-- The `k` low bytes of a number, the lowest first. -/
def leBytes : ℕ → ℕ → ByteVec
  | 0, _ => []
  | k + 1, x => .ofNat x :: leBytes k (x / 256)

/-- The number with the given bytes, the lowest first. -/
def ofLeBytes : ByteVec → ℕ
  | [] => 0
  | b :: bs => b.toNat + 256 * ofLeBytes bs

@[simp] theorem length_leBytes (k x : ℕ) : (leBytes k x).length = k := by
  induction k generalizing x with
  | zero => rfl
  | succ k ih => simp [leBytes, ih]

theorem ofLeBytes_leBytes (k x : ℕ) : ofLeBytes (leBytes k x) = x % 256 ^ k := by
  induction k generalizing x with
  | zero => simp [leBytes, ofLeBytes, Nat.mod_one]
  | succ k ih =>
    have hb : (UInt8.ofNat x).toNat = x % 256 := UInt8.toNat_ofNat'
    rw [leBytes, ofLeBytes, ih, hb, pow_succ', Nat.mod_mul]

/-! ### Records -/

/-- `NODE_SIZE` -/
def nodeSize : ℕ := 22

/-- `serializeNode(node, short_id, buffer, offset)`: the bytes of one record. -/
def serializeNode (n : Node) (shortId : ShortId) : ByteVec :=
  leBytes 2 (n.point 0).toNat ++ leBytes 2 (n.point 1).toNat ++ leBytes 2 (n.point 2).toNat ++
    [n.color 0, n.color 1, n.color 2] ++ leBytes 8 n.count.toNat ++ [n.children] ++
    leBytes 4 shortId.toNat

/-- The number in `k` bytes at an offset, or `none` where the read leaves the buffer. -/
def readLe (buffer : ByteVec) (offset k : ℕ) : Option ℕ :=
  if offset + k ≤ buffer.length then some (ofLeBytes ((buffer.drop offset).take k)) else none

/-- `deserializeNode(node, short_id, buffer, offset)`: the record at an offset and the offset
behind it, or `none` where a read leaves the buffer. -/
def deserializeNode (buffer : ByteVec) (offset : ℕ) : Option (Node × ShortId × ℕ) := do
  let p₀ ← readLe buffer offset 2
  let p₁ ← readLe buffer (offset + 2) 2
  let p₂ ← readLe buffer (offset + 4) 2
  let c₀ ← readLe buffer (offset + 6) 1
  let c₁ ← readLe buffer (offset + 7) 1
  let c₂ ← readLe buffer (offset + 8) 1
  let count ← readLe buffer (offset + 9) 8
  let children ← readLe buffer (offset + 17) 1
  let shortId ← readLe buffer (offset + 18) 4
  some (⟨.ofNat count, ![.ofNat p₀, .ofNat p₁, .ofNat p₂], ![.ofNat c₀, .ofNat c₁, .ofNat c₂],
    .ofNat children⟩, .ofNat shortId, offset + nodeSize)

/-- The loop of `deserialize(buffer)`: every record is stored under its short id; a node that the
map already holds under that id is overwritten.  Every round moves the offset, so `fuel` rounds
suffice for a buffer of that many bytes. -/
def deserializeNodes (buffer : ByteVec) : ℕ → ℕ → NodeMap → Option NodeMap
  | 0, _, _ => none
  | fuel + 1, offset, cache =>
    if offset < buffer.length then
      match deserializeNode buffer offset with
      | some (n, shortId, offset') => deserializeNodes buffer fuel offset' (cache.insert shortId n)
      | none => none
    else if offset = buffer.length then some cache else none

/-- `deserialize(buffer)` on a file that already holds the nodes `cache`. -/
def deserialize (buffer : ByteVec) (cache : NodeMap) : Option FileData := do
  let childFiles ← readLe buffer 0 1
  let nodes ← deserializeNodes buffer (buffer.length + 1) 1 cache
  some ⟨.ofNat childFiles, nodes⟩

/-- `serialize(buffer)` -/
def serialize (f : FileData) : ByteVec :=
  f.childFiles :: f.nodeCache.toList.flatMap fun x => serializeNode x.2 x.1

/-! ### Reading back -/

@[simp] theorem length_serializeNode (n : Node) (s : ShortId) :
    (serializeNode n s).length = nodeSize := by simp [serializeNode, nodeSize]

theorem length_serialize (f : FileData) :
    (serialize f).length = 1 + f.nodeCache.size * nodeSize := by
  rw [serialize, List.length_cons, List.length_flatMap, Nat.add_comm]
  simp

/-- A read of the bytes `bs` that come next, and what comes after it. -/
theorem readLe_of_drop {buffer bs rest : ByteVec} {offset k : ℕ}
    (h : buffer.drop offset = bs ++ rest) (hk : bs.length = k) (h0 : 0 < k) :
    readLe buffer offset k = some (ofLeBytes bs) ∧ buffer.drop (offset + k) = rest := by
  have hlen := congrArg List.length h
  rw [List.length_drop, List.length_append] at hlen
  constructor
  · rw [readLe, if_pos (by omega), h, ← hk, List.take_left]
  · rw [← List.drop_drop, h, ← hk, List.drop_left]

theorem deserializeNode_of_drop {buffer rest : ByteVec} {offset : ℕ} {n : Node} {s : ShortId}
    (h : buffer.drop offset = serializeNode n s ++ rest) :
    deserializeNode buffer offset = some (n, s, offset + nodeSize) ∧
      buffer.drop (offset + nodeSize) = rest := by
  have single : ∀ b : UInt8, UInt8.ofNat (ofLeBytes [b]) = b := fun b => by simp [ofLeBytes]
  have word : ∀ p : Point, UInt16.ofNat (ofLeBytes (leBytes 2 p.toNat)) = p := fun p => by
    rw [ofLeBytes_leBytes, show 256 ^ 2 = 2 ^ 16 from rfl, Nat.mod_eq_of_lt p.toNat_lt,
      UInt16.ofNat_toNat]
  have hc : UInt64.ofNat (ofLeBytes (leBytes 8 n.count.toNat)) = n.count := by
    rw [ofLeBytes_leBytes, show 256 ^ 8 = 2 ^ 64 from rfl, Nat.mod_eq_of_lt n.count.toNat_lt,
      UInt64.ofNat_toNat]
  have hs : UInt32.ofNat (ofLeBytes (leBytes 4 s.toNat)) = s := by
    rw [ofLeBytes_leBytes, show 256 ^ 4 = 2 ^ 32 from rfl, Nat.mod_eq_of_lt s.toNat_lt,
      UInt32.ofNat_toNat]
  simp only [serializeNode, List.append_assoc] at h
  obtain ⟨r₀, h⟩ := readLe_of_drop h (length_leBytes _ _) (by decide)
  obtain ⟨r₁, h⟩ := readLe_of_drop h (length_leBytes _ _) (by decide)
  obtain ⟨r₂, h⟩ := readLe_of_drop h (length_leBytes _ _) (by decide)
  rw [show ∀ l : ByteVec, [n.color 0, n.color 1, n.color 2] ++ l =
    [n.color 0] ++ ([n.color 1] ++ ([n.color 2] ++ l)) from fun _ => rfl] at h
  obtain ⟨r₃, h⟩ := readLe_of_drop h (k := 1) rfl (by decide)
  obtain ⟨r₄, h⟩ := readLe_of_drop h (k := 1) rfl (by decide)
  obtain ⟨r₅, h⟩ := readLe_of_drop h (k := 1) rfl (by decide)
  obtain ⟨r₆, h⟩ := readLe_of_drop h (length_leBytes _ _) (by decide)
  obtain ⟨r₇, h⟩ := readLe_of_drop h (k := 1) rfl (by decide)
  obtain ⟨r₈, h⟩ := readLe_of_drop h (length_leBytes _ _) (by decide)
  simp only [Nat.add_assoc, Nat.reduceAdd] at r₁ r₂ r₃ r₄ r₅ r₆ r₇ r₈ h
  refine ⟨?_, h⟩
  have hp : ![n.point 0, n.point 1, n.point 2] = n.point := by funext i; fin_cases i <;> rfl
  have hcol : ![n.color 0, n.color 1, n.color 2] = n.color := by funext i; fin_cases i <;> rfl
  simp [deserializeNode, r₀, r₁, r₂, r₃, r₄, r₅, r₆, r₇, r₈, word, single, hc, hs, hp, hcol]

/-- The first of the records that are left, and the place behind it. -/
theorem deserializeNode_of_records {buffer : ByteVec} {offset : ℕ} {x : ShortId × Node}
    {l : List (ShortId × Node)}
    (h : buffer.drop offset = (x :: l).flatMap fun x => serializeNode x.2 x.1) :
    offset < buffer.length ∧ offset + nodeSize ≤ buffer.length ∧
      deserializeNode buffer offset = some (x.2, x.1, offset + nodeSize) ∧
      buffer.drop (offset + nodeSize) = l.flatMap fun x => serializeNode x.2 x.1 := by
  rw [List.flatMap_cons] at h
  have hlen := congrArg List.length h
  simp only [List.length_drop, List.length_append, length_serializeNode, nodeSize] at hlen
  exact ⟨by omega, by simp only [nodeSize]; omega, deserializeNode_of_drop h⟩

theorem deserializeNodes_of_drop {buffer : ByteVec} {fuel offset : ℕ} {cache : NodeMap}
    {l : List (ShortId × Node)} (ho : offset ≤ buffer.length) (hf : l.length < fuel)
    (h : buffer.drop offset = l.flatMap fun x => serializeNode x.2 x.1) :
    deserializeNodes buffer fuel offset cache =
      some (l.foldl (fun m x => m.insert x.1 x.2) cache) := by
  induction l generalizing fuel offset cache with
  | nil =>
    obtain ⟨fuel, rfl⟩ := Nat.exists_eq_succ_of_ne_zero (Nat.ne_of_gt hf)
    have he : offset = buffer.length := by
      have := congrArg List.length h
      simp at this; omega
    simp [deserializeNodes, he]
  | cons x l ih =>
    obtain ⟨fuel, rfl⟩ := Nat.exists_eq_succ_of_ne_zero (Nat.ne_of_gt (Nat.zero_lt_of_lt hf))
    obtain ⟨hlt, hle, hd, h'⟩ := deserializeNode_of_records h
    rw [deserializeNodes, if_pos hlt]
    simp only [hd, List.foldl_cons]
    exact ih hle (by simpa using hf) h'

/-- A short id that no record has. -/
theorem find?_of_ne {l : List (ShortId × Node)} {s : ShortId} (h : ∀ y ∈ l, s ≠ y.1) :
    l.find? (fun y => y.1 = s) = none := by
  simp only [List.find?_eq_none, decide_eq_true_eq]
  intro y hy hys
  exact h y hy hys.symm

theorem getElem?_foldl_insert (l : List (ShortId × Node)) (cache : NodeMap)
    (hl : l.Pairwise fun a b => a.1 ≠ b.1) (s : ShortId) :
    (l.foldl (fun m x => m.insert x.1 x.2) cache)[s]? =
      ((l.find? fun x => x.1 = s).map Prod.snd).or cache[s]? := by
  induction l generalizing cache with
  | nil => rfl
  | cons x l ih =>
    obtain ⟨hx, hl⟩ := List.pairwise_cons.1 hl
    rw [List.foldl_cons, ih _ hl]
    by_cases h : x.1 = s
    · simp [find?_of_ne (h ▸ hx), h]
    · simp [h, ExtTreeMap.getElem?_insert]

theorem pairwise_toList (m : NodeMap) : m.toList.Pairwise fun a b => a.1 ≠ b.1 :=
  ExtTreeMap.distinct_keys_toList.imp fun hab h => hab (by rw [h]; exact ReflCmp.compare_self)

/-- The record of a short id in the list of records. -/
theorem find?_toList (m : NodeMap) (s : ShortId) :
    (m.toList.find? fun x => x.1 = s).map Prod.snd = m[s]? := by
  cases hfind : m.toList.find? fun x => x.1 = s with
  | some x =>
    have hxs : x.1 = s := by simpa using List.find?_some hfind
    have hx : (s, x.2) ∈ m.toList := hxs ▸ List.mem_of_find?_eq_some hfind
    exact (ExtTreeMap.mem_toList_iff_getElem?_eq_some.1 hx).symm
  | none =>
    simp only [List.find?_eq_none, decide_eq_true_eq] at hfind
    cases hs : m[s]? with
    | none => rfl
    | some n => exact absurd rfl (hfind _ (ExtTreeMap.mem_toList_iff_getElem?_eq_some.2 hs))

/-- Reading a serialized file into a file object that already holds some nodes: the stored nodes
overwrite or join those in the object. -/
theorem deserialize_serialize (f : FileData) (cache : NodeMap) :
    ∃ m : NodeMap, deserialize (serialize f) cache = some ⟨f.childFiles, m⟩ ∧
      ∀ s : ShortId, m[s]? = f.nodeCache[s]?.or cache[s]? := by
  set l := f.nodeCache.toList with hl
  have hlen : l.length < (serialize f).length + 1 := by
    have : ∀ l : List (ShortId × Node),
        l.length ≤ (l.flatMap fun x => serializeNode x.2 x.1).length := by
      intro l
      induction l with
      | nil => rfl
      | cons x l ih =>
        simp only [List.flatMap_cons, List.length_append, length_serializeNode, nodeSize,
          List.length_cons]
        omega
    have := this l
    simp only [serialize, List.length_cons, ← hl]
    omega
  have hread : deserializeNodes (serialize f) ((serialize f).length + 1) 1 cache =
      some (l.foldl (fun m x => m.insert x.1 x.2) cache) :=
    deserializeNodes_of_drop (by simp [serialize]) hlen (by simp [serialize, hl])
  have hdrop : (serialize f).drop 0 =
      [f.childFiles] ++ l.flatMap fun x => serializeNode x.2 x.1 := by rw [hl]; rfl
  have hbyte := (readLe_of_drop hdrop (k := 1) rfl (by decide)).1
  refine ⟨l.foldl (fun m x => m.insert x.1 x.2) cache, ?_, fun s => ?_⟩
  · simp [deserialize, hbyte, hread, ofLeBytes]
  · rw [getElem?_foldl_insert l cache (pairwise_toList f.nodeCache), find?_toList]

/-- A file object without nodes of its own ends up with exactly the stored contents. -/
theorem deserialize_serialize_of_covered {f : FileData} {cache : NodeMap}
    (h : ∀ s : ShortId, f.nodeCache[s]? = none → cache[s]? = none) :
    deserialize (serialize f) cache = some f := by
  obtain ⟨m, hm, hnodes⟩ := deserialize_serialize f cache
  have he : m = f.nodeCache := by
    refine ExtTreeMap.ext_getElem? fun s => ?_
    rw [hnodes s]
    cases hs : f.nodeCache[s]? with
    | none => rw [h s hs]; rfl
    | some n => rfl
  rw [hm, he]

theorem deserializeNodes_isSome {buffer : ByteVec} {fuel offset : ℕ} {cache m : NodeMap}
    {s : ShortId} (h : deserializeNodes buffer fuel offset cache = some m)
    (hs : (cache[s]?).isSome) : (m[s]?).isSome := by
  induction fuel generalizing offset cache with
  | zero => cases h
  | succ fuel ih =>
    rw [deserializeNodes] at h
    split at h
    · split at h
      · refine ih h ?_
        rw [ExtTreeMap.getElem?_insert]
        split
        · rfl
        · exact hs
      · cases h
    · split at h
      · rwa [← Option.some.inj h]
      · cases h

/-- No buffer makes a file lose the nodes that it already holds. -/
theorem deserialize_isSome {buffer : ByteVec} {cache : NodeMap} {f : FileData} {s : ShortId}
    (h : deserialize buffer cache = some f) (hs : (cache[s]?).isSome) :
    (f.nodeCache[s]?).isSome := by
  obtain ⟨c, -, h⟩ := Option.bind_eq_some_iff.1 h
  obtain ⟨m, hm, h⟩ := Option.bind_eq_some_iff.1 h
  rw [← Option.some.inj h]
  exact deserializeNodes_isSome hm hs

end MegaTree
