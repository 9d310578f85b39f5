import MegaTree.Core.NodeFile
import Mathlib.Data.List.Sort
import Mathlib.Data.Nat.Digits.Defs

/-!
# Node objects

`node_cache` maps short ids to `Node*`, and a client may hold such a pointer while the file is still
being read: `readNode` hands out a placeholder and `deserialize` fills it in place.  `NodeObjects`
are the objects of a file with their addresses.

* `deserialize_serialize_objects` : after a read every address that was handed out is still the
  address of its node, and the nodes have the stored contents.
* `serialize_deserialize` : a buffer of whole records with increasing short ids is what `serialize`
  makes of its contents.
-/

namespace MegaTree

open Std

/-- The node objects of a file.  The address of an object is its position in the heap. -/
structure NodeObjects where
  /-- `child_files` -/
  childFiles : UInt8
  /-- `node_cache` -/
  nodeCache : ExtTreeMap ShortId ℕ compare
  /-- The objects. -/
  heap : List Node
  /-- Every pointer points to an object. -/
  valid : ∀ {s : ShortId} {a : ℕ}, nodeCache[s]? = some a → a < heap.length
  /-- No object is stored twice. -/
  inj : ∀ {s s' : ShortId} {a : ℕ}, nodeCache[s]? = some a → nodeCache[s']? = some a → s = s'

namespace NodeObjects

/-- The objects of a new file. -/
def new : NodeObjects := ⟨0, ∅, [], by simp, by simp⟩

variable (r : NodeObjects)

/-- The contents of the node under a short id. -/
def lookup (s : ShortId) : Option Node := r.nodeCache[s]?.bind fun a => r.heap[a]?

/-- `node_cache.insert(std::make_pair(short_id, node))` for a new object. -/
def allocate (s : ShortId) (n : Node) : NodeObjects where
  childFiles := r.childFiles
  nodeCache := r.nodeCache.insert s r.heap.length
  heap := r.heap ++ [n]
  valid {s' a} h := by
    rw [ExtTreeMap.getElem?_insert] at h
    rw [List.length_append, List.length_singleton]
    split_ifs at h
    · obtain rfl := Option.some.inj h
      exact Nat.lt_succ_self _
    · exact Nat.lt_succ_of_lt (r.valid h)
  inj {s₁ s₂ a} h₁ h₂ := by
    rw [ExtTreeMap.getElem?_insert] at h₁ h₂
    split_ifs at h₁ h₂ with e₁ e₂ e₂
    · exact (compare_eq_iff_eq.1 e₁).symm.trans (compare_eq_iff_eq.1 e₂)
    · obtain rfl := Option.some.inj h₁
      exact absurd (r.valid h₂) (lt_irrefl _)
    · obtain rfl := Option.some.inj h₂
      exact absurd (r.valid h₁) (lt_irrefl _)
    · exact r.inj h₁ h₂

/-- `*it->second = *node` -/
def write (a : ℕ) (n : Node) : NodeObjects where
  childFiles := r.childFiles
  nodeCache := r.nodeCache
  heap := r.heap.set a n
  valid h := by rw [List.length_set]; exact r.valid h
  inj h₁ h₂ := r.inj h₁ h₂

/-- The body of the loop of `deserialize(buffer)`.  The object that a record is read into is kept
when the short id is new, and given back after its contents were copied otherwise. -/
def store (s : ShortId) (n : Node) : NodeObjects :=
  match r.nodeCache[s]? with
  | none => r.allocate s n
  | some a => r.write a n

/-- `readNode(short_id)` while the file is `LOADING`: the address of the node, which may be a
placeholder.  `stale` is what the placeholder held before it was reset. -/
def readNode (stale : Node) (s : ShortId) : ℕ × NodeObjects :=
  match r.nodeCache[s]? with
  | none => (r.heap.length, r.allocate s stale.reset)
  | some a => (a, r)

/-- The loop of `deserialize(buffer)`. -/
def deserializeNodes (buffer : ByteVec) : ℕ → ℕ → NodeObjects → Option NodeObjects
  | 0, _, _ => none
  | fuel + 1, offset, r =>
    if offset < buffer.length then
      match deserializeNode buffer offset with
      | some (n, shortId, offset') => deserializeNodes buffer fuel offset' (r.store shortId n)
      | none => none
    else if offset = buffer.length then some r else none

/-- `deserialize(buffer)` -/
def deserialize (buffer : ByteVec) : Option NodeObjects := do
  let childFiles ← readLe buffer 0 1
  deserializeNodes buffer (buffer.length + 1) 1 { r with childFiles := .ofNat childFiles }

variable {r} {s s' : ShortId} {n : Node} {a : ℕ}

theorem nodeCache_store (h : r.nodeCache[s']? = some a) :
    (r.store s n).nodeCache[s']? = some a := by
  unfold store
  split
  · rename_i hs
    have hne : s ≠ s' := by
      rintro rfl
      rw [hs] at h; cases h
    simp [allocate, ExtTreeMap.getElem?_insert, hne, h]
  · exact h

theorem lookup_store : (r.store s n).lookup s' = if s = s' then some n else r.lookup s' := by
  unfold store
  split
  · rename_i hs
    by_cases he : s = s'
    · simp [lookup, allocate, he]
    · have hget : (r.nodeCache.insert s r.heap.length)[s']? = r.nodeCache[s']? := by
        simp [ExtTreeMap.getElem?_insert, he]
      simp only [lookup, allocate, hget, he, if_false]
      cases h : r.nodeCache[s']? with
      | none => rfl
      | some b => exact List.getElem?_append_left (r.valid h)
  · rename_i b hs
    by_cases he : s = s'
    · subst he
      simp [lookup, write, hs, r.valid hs]
    · simp only [lookup, write, he, if_false]
      cases h : r.nodeCache[s']? with
      | none => rfl
      | some c =>
        have hne : b ≠ c := fun e => he (r.inj hs (e ▸ h))
        simp [List.getElem?_set_ne hne]

/-- `readNode` hands out the address that `node_cache` holds from then on. -/
theorem nodeCache_readNode {stale : Node} :
    (r.readNode stale s).2.nodeCache[s]? = some (r.readNode stale s).1 ∧
      ∀ s', s' ≠ s → (r.readNode stale s).2.nodeCache[s']? = r.nodeCache[s']? := by
  unfold readNode
  split
  · refine ⟨by simp [allocate], fun s' hs' => ?_⟩
    simp [allocate, ExtTreeMap.getElem?_insert, hs'.symm]
  · rename_i a h
    exact ⟨h, fun _ _ => rfl⟩

@[simp] theorem childFiles_store : (r.store s n).childFiles = r.childFiles := by
  unfold store
  split <;> rfl

/-- Storing records one after the other. -/
def storeAll (l : List (ShortId × Node)) (r : NodeObjects) : NodeObjects :=
  l.foldl (fun r x => r.store x.1 x.2) r

theorem nodeCache_storeAll {l : List (ShortId × Node)} (h : r.nodeCache[s]? = some a) :
    (r.storeAll l).nodeCache[s]? = some a := by
  induction l generalizing r with
  | nil => exact h
  | cons x l ih => exact ih (nodeCache_store h)

theorem childFiles_storeAll {l : List (ShortId × Node)} :
    (r.storeAll l).childFiles = r.childFiles := by
  induction l generalizing r with
  | nil => rfl
  | cons x l ih => exact (ih (r := r.store x.1 x.2)).trans childFiles_store

/-- The objects hold the records, and what they held before under other short ids. -/
theorem lookup_storeAll {l : List (ShortId × Node)} (hl : l.Pairwise fun a b => a.1 ≠ b.1) :
    (r.storeAll l).lookup s = ((l.find? fun x => x.1 = s).map Prod.snd).or (r.lookup s) := by
  induction l generalizing r with
  | nil => rfl
  | cons x l ih =>
    obtain ⟨hx, hl⟩ := List.pairwise_cons.1 hl
    refine (ih (r := r.store x.1 x.2) hl).trans ?_
    rw [lookup_store]
    by_cases h : x.1 = s
    · simp [find?_of_ne (h ▸ hx), h]
    · simp [h]

/-- The loops over objects and over values read the same records. -/
theorem deserializeNodes_of_drop {buffer : ByteVec} {fuel offset : ℕ}
    {l : List (ShortId × Node)} (ho : offset ≤ buffer.length) (hf : l.length < fuel)
    (h : buffer.drop offset = l.flatMap fun x => serializeNode x.2 x.1) :
    deserializeNodes buffer fuel offset r = some (r.storeAll l) := by
  induction l generalizing fuel offset r with
  | nil =>
    obtain ⟨fuel, rfl⟩ := Nat.exists_eq_succ_of_ne_zero (Nat.ne_of_gt hf)
    have he : offset = buffer.length := by
      have := congrArg List.length h
      simp at this; omega
    simp [deserializeNodes, he, storeAll]
  | cons x l ih =>
    obtain ⟨fuel, rfl⟩ := Nat.exists_eq_succ_of_ne_zero (Nat.ne_of_gt (Nat.zero_lt_of_lt hf))
    obtain ⟨hlt, hle, hd, h'⟩ := deserializeNode_of_records h
    rw [deserializeNodes, if_pos hlt]
    simp only [hd]
    exact ih hle (by simpa using hf) h'

end NodeObjects

/-! ### Accepted buffers -/

theorem leBytes_ofLeBytes (bs : ByteVec) : leBytes bs.length (ofLeBytes bs) = bs := by
  induction bs with
  | nil => rfl
  | cons b bs ih =>
    have hb := b.toNat_lt
    have hlow : UInt8.ofNat (b.toNat + 256 * ofLeBytes bs) = b := by
      apply UInt8.toNat_inj.1
      rw [UInt8.toNat_ofNat']
      omega
    have hhigh : (b.toNat + 256 * ofLeBytes bs) / 256 = ofLeBytes bs := by omega
    rw [List.length_cons, leBytes, ofLeBytes, hlow, hhigh, ih]

theorem ofLeBytes_lt (bs : ByteVec) : ofLeBytes bs < 256 ^ bs.length := by
  induction bs with
  | nil => decide
  | cons b bs ih =>
    have hb := b.toNat_lt
    rw [ofLeBytes, List.length_cons, pow_succ]
    omega

/-- The short id of the record with the number `j`. -/
def shortIdAt (buffer : ByteVec) (j : ℕ) : ShortId :=
  .ofNat (ofLeBytes ((buffer.drop (1 + nodeSize * j + 18)).take 4))

/-- The bytes of a machine integer that was read from as many bytes. -/
theorem leBytes_of_length {bs : ByteVec} {k : ℕ} (h : bs.length = k) :
    leBytes k (ofLeBytes bs % 2 ^ (8 * k)) = bs := by
  subst h
  have hlt := ofLeBytes_lt bs
  rw [show 256 = 2 ^ 8 from rfl, ← pow_mul] at hlt
  rw [Nat.mod_eq_of_lt hlt, leBytes_ofLeBytes]

/-- Any 22 bytes are a record. -/
theorem exists_serializeNode {bs : ByteVec} (h : bs.length = nodeSize) :
    ∃ n s, serializeNode n s = bs ∧ s = .ofNat (ofLeBytes (bs.drop 18)) := by
  have part : ∀ i k, i + k ≤ 22 → ((bs.drop i).take k).length = k := fun i k hik => by
    rw [List.length_take, List.length_drop, h, nodeSize]
    omega
  have next : ∀ i k, (bs.drop i).take k ++ bs.drop (i + k) = bs.drop i := fun i k => by
    rw [← List.drop_drop]
    exact List.take_append_drop _ _
  have word : ∀ i, i + 2 ≤ 22 → leBytes 2 (UInt16.ofNat (ofLeBytes ((bs.drop i).take 2))).toNat =
      (bs.drop i).take 2 := fun i hi => by
    rw [UInt16.toNat_ofNat']
    exact leBytes_of_length (part i 2 hi)
  have byte : ∀ i, i + 1 ≤ 22 → [UInt8.ofNat (ofLeBytes ((bs.drop i).take 1))] =
      (bs.drop i).take 1 := fun i hi => by
    obtain ⟨b, hb⟩ := List.length_eq_one_iff.1 (part i 1 hi)
    rw [hb]
    simp [ofLeBytes]
  have hcount : leBytes 8 (UInt64.ofNat (ofLeBytes ((bs.drop 9).take 8))).toNat =
      (bs.drop 9).take 8 := by
    rw [UInt64.toNat_ofNat']
    exact leBytes_of_length (part 9 8 (by decide))
  have hid : leBytes 4 (UInt32.ofNat (ofLeBytes (bs.drop 18))).toNat = bs.drop 18 := by
    rw [UInt32.toNat_ofNat']
    exact leBytes_of_length (by rw [List.length_drop, h, nodeSize])
  let num := fun i k => ofLeBytes ((bs.drop i).take k)
  refine ⟨⟨.ofNat (num 9 8), ![.ofNat (num 0 2), .ofNat (num 2 2), .ofNat (num 4 2)],
    ![.ofNat (num 6 1), .ofNat (num 7 1), .ofNat (num 8 1)], .ofNat (num 17 1)⟩, _, ?_, rfl⟩
  have hcolor : ∀ x y z rest, [x, y, z] ++ rest = [x] ++ ([y] ++ ([z] ++ rest) : ByteVec) :=
    fun _ _ _ _ => rfl
  simp only [serializeNode, Matrix.cons_val_zero, Matrix.cons_val_one, Matrix.cons_val, hcount, hid,
    List.append_assoc, num, word, Nat.reduceAdd, Nat.reduceLeDiff]
  rw [hcolor, byte 6 (by decide), byte 7 (by decide), byte 8 (by decide), byte 17 (by decide),
    next 17 1, next 9 8, next 8 1, next 7 1, next 6 1, next 4 2, next 2 2, next 0 2]
  rfl

/-- The records of a buffer. -/
theorem exists_records {k : ℕ} {bs : ByteVec} (h : bs.length = k * nodeSize) :
    ∃ l : List (ShortId × Node), l.length = k ∧ bs = l.flatMap (fun x => serializeNode x.2 x.1) ∧
      ∀ (j : ℕ) (hj : j < l.length),
        (l[j]).1 = .ofNat (ofLeBytes ((bs.drop (nodeSize * j + 18)).take 4)) := by
  induction k generalizing bs with
  | zero =>
    rw [Nat.zero_mul, List.length_eq_zero_iff] at h
    exact ⟨[], rfl, h, fun j hj => absurd hj (Nat.not_lt_zero j)⟩
  | succ k ih =>
    rw [Nat.succ_mul] at h
    have hhead : (bs.take nodeSize).length = nodeSize := by
      rw [List.length_take]
      omega
    obtain ⟨n, s, hs, hid⟩ := exists_serializeNode hhead
    have htail : (bs.drop nodeSize).length = k * nodeSize := by
      rw [List.length_drop]
      omega
    obtain ⟨l, hl, hbs, hids⟩ := ih htail
    refine ⟨(s, n) :: l, by rw [List.length_cons, hl], ?_, fun j hj => ?_⟩
    · rw [List.flatMap_cons, hs, ← hbs, List.take_append_drop]
    · cases j with
      | zero =>
        rw [List.getElem_cons_zero, hid, Nat.mul_zero, Nat.zero_add, List.drop_take]
        rfl
      | succ j =>
        rw [List.getElem_cons_succ, hids j (by simpa using hj), List.drop_drop]
        congr 4
        rw [Nat.mul_succ]
        omega

theorem find?_of_mem {l : List (ShortId × Node)} {x : ShortId × Node}
    (hl : l.Pairwise fun a b => a.1 ≠ b.1) (h : x ∈ l) :
    l.find? (fun y => y.1 = x.1) = some x := by
  induction l with
  | nil => cases h
  | cons y l ih =>
    obtain ⟨hy, hl⟩ := List.pairwise_cons.1 hl
    rcases List.mem_cons.1 h with rfl | h
    · simp
    · simp [hy x h, ih hl h]

/-- The records of a map with strictly increasing short ids. -/
theorem toList_foldl_insert {l : List (ShortId × Node)}
    (hl : l.Pairwise fun a b => a.1 < b.1) :
    (l.foldl (fun m x => m.insert x.1 x.2) (∅ : NodeMap)).toList = l := by
  have hne : l.Pairwise fun a b => a.1 ≠ b.1 := hl.imp fun h => UInt32.ne_of_lt h
  set m := l.foldl (fun m x => m.insert x.1 x.2) (∅ : NodeMap) with hm
  have hmem : ∀ x : ShortId × Node, x ∈ m.toList ↔ x ∈ l := by
    intro x
    rw [ExtTreeMap.mem_toList_iff_getElem?_eq_some, hm, getElem?_foldl_insert l ∅ hne]
    constructor
    · intro h
      rw [ExtTreeMap.getElem?_empty, Option.or_none, Option.map_eq_some_iff] at h
      obtain ⟨y, hy, hyx⟩ := h
      have hk : y.1 = x.1 := by simpa using List.find?_some hy
      have : y = x := Prod.ext hk hyx
      exact this ▸ List.mem_of_find?_eq_some hy
    · intro h
      rw [find?_of_mem hne h]
      rfl
  have hsorted : m.toList.Pairwise fun a b => a.1 < b.1 :=
    ExtTreeMap.ordered_keys_toList.imp fun h => Std.compare_eq_lt.1 h
  refine List.Perm.eq_of_pairwise ?_ hsorted hl ?_
  · intro a b _ _ hab hba
    exact absurd (UInt32.lt_trans hab hba) (UInt32.lt_irrefl _)
  · refine (List.perm_ext_iff_of_nodup ?_ ?_).2 hmem
    · exact hsorted.imp fun h e => UInt32.ne_of_lt h (congrArg Prod.fst e)
    · exact hl.imp fun h e => UInt32.ne_of_lt h (congrArg Prod.fst e)

/-! ### The round trip -/

/-- A read fills the objects that were handed out, and adds the others. -/
theorem deserialize_serialize_objects {f : FileData} {r : NodeObjects}
    (h : ∀ s : ShortId, f.nodeCache[s]? = none → r.nodeCache[s]? = none) :
    ∃ r', r.deserialize (serialize f) = some r' ∧ r'.childFiles = f.childFiles ∧
      (∀ s, r'.lookup s = f.nodeCache[s]?) ∧
      ∀ (s : ShortId) (a : ℕ), r.nodeCache[s]? = some a → r'.nodeCache[s]? = some a := by
  set l := f.nodeCache.toList with hl
  have hbyte : readLe (serialize f) 0 1 = some f.childFiles.toNat := by
    have hdrop : (serialize f).drop 0 = [f.childFiles] ++ l.flatMap fun x =>
      serializeNode x.2 x.1 := by rw [hl]; rfl
    simpa [ofLeBytes] using (readLe_of_drop hdrop (k := 1) rfl (by decide)).1
  have hlen : l.length < (serialize f).length + 1 := by
    have hrecords : (l.flatMap fun x => serializeNode x.2 x.1).length = l.length * nodeSize := by
      simp [List.length_flatMap]
    simp only [serialize, List.length_cons, ← hl, hrecords, nodeSize]
    omega
  refine ⟨({ r with childFiles := f.childFiles } : NodeObjects).storeAll l, ?_,
    NodeObjects.childFiles_storeAll, fun s => ?_, fun s a ha => NodeObjects.nodeCache_storeAll ha⟩
  · have hread : NodeObjects.deserializeNodes (serialize f) ((serialize f).length + 1) 1
        { r with childFiles := f.childFiles } =
        some (({ r with childFiles := f.childFiles } : NodeObjects).storeAll l) :=
      NodeObjects.deserializeNodes_of_drop (by simp [serialize]) hlen (by simp [serialize, hl])
    simp [NodeObjects.deserialize, hbyte, hread]
  · rw [NodeObjects.lookup_storeAll (pairwise_toList f.nodeCache), find?_toList]
    cases hs : f.nodeCache[s]? with
    | some n => rfl
    | none =>
      change Option.bind r.nodeCache[s]? _ = none
      rw [h s hs]
      rfl

/-- A buffer of whole records with increasing short ids is what `serialize` makes of its contents. -/
theorem serialize_deserialize {buffer : ByteVec} {k : ℕ} (hlen : buffer.length = 1 + k * nodeSize)
    (hids : ∀ i j, i < j → j < k → shortIdAt buffer i < shortIdAt buffer j) :
    ∃ f, deserialize buffer ∅ = some f ∧ serialize f = buffer := by
  obtain ⟨b, rest, rfl⟩ := List.exists_cons_of_length_pos (show 0 < buffer.length by omega)
  rw [List.length_cons] at hlen
  obtain ⟨l, hl, hrest, hl'⟩ := exists_records (show rest.length = k * nodeSize by omega)
  have hsorted : l.Pairwise fun a b => a.1 < b.1 := by
    rw [List.pairwise_iff_getElem]
    intro i j hi hj hij
    have hlt := hids i j hij (by omega)
    have hshift : ∀ j, (b :: rest).drop (1 + nodeSize * j + 18) = rest.drop (nodeSize * j + 18) :=
      fun j => by rw [show 1 + nodeSize * j + 18 = nodeSize * j + 18 + 1 by omega,
        List.drop_succ_cons]
    rw [shortIdAt, shortIdAt, hshift, hshift] at hlt
    rw [hl' i hi, hl' j hj]
    exact hlt
  have hrecords : l.length < (b :: rest).length + 1 := by
    simp only [List.length_cons, hlen, hl, nodeSize]
    omega
  have hdrop : (b :: rest).drop 0 = [b] ++ rest := rfl
  have hbyte : readLe (b :: rest) 0 1 = some (ofLeBytes [b]) :=
    (readLe_of_drop hdrop rfl Nat.zero_lt_one).1
  have hread : deserializeNodes (b :: rest) ((b :: rest).length + 1) 1 ∅ = _ :=
    deserializeNodes_of_drop (by simp) hrecords hrest
  refine ⟨⟨b, l.foldl (fun m x => m.insert x.1 x.2) ∅⟩, ?_, ?_⟩
  · rw [deserialize, hbyte, hread]
    simp [ofLeBytes]
  · rw [serialize, toList_foldl_insert hsorted, hrest]

end MegaTree
