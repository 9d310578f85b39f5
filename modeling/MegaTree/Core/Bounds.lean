import MegaTree.Core.NodeFile
import MegaTree.Memory.Cursor
import Mathlib.Logic.Function.Iterate

/-!
# Node files of any length

`deserialize(buffer)` asks only whether the offset is still inside the buffer before it copies a
whole record, and compares the offset with the length of the buffer after the last one.
`rawDeserialize` is that loop with its 32-bit offset on the bytes as they lie in memory, and it
remembers the ranges that it reads.

* `Loading.inside_round` : a round reads past the end unless a whole record is left.
* `Loading.whole_rounds` : as long as every read stays inside, whole records have been read.
* `Loading.deserializeNodes_rounds` : on whole records the loop computes what `deserialize` does.
* `readsWithinBounds_iff` : the lengths on which no read leaves the buffer.
* `rawSerialize_eq` : the writer, whose offset has 32 bits as well, on files that it can address.
-/

namespace MegaTree

open Memory

/-- `POINT_SIZE` -/
def pointSize : ℕ := 6

/-- `COLOR_SIZE` -/
def colorSize : ℕ := 3

/-- `COUNT_SIZE` -/
def countSize : ℕ := 8

/-- `CHILDREN_SIZE` -/
def childrenSize : ℕ := 1

/-- `SHORT_ID_SIZE` -/
def shortIdSize : ℕ := 4

/-- The number in `k` of the bytes that a field was copied to, from its byte `i` on. -/
def fieldLe (field : ByteVec) (i k : ℕ) : ℕ := ofLeBytes ((field.drop i).take k)

/-- `deserializeNode(node, short_id, buffer, offset)`: five copies, each of which moves the
offset. -/
def rawDeserializeNode (mem : ℕ → UInt8) (c : Cursor) : Node × ShortId × Cursor :=
  let (point, c) := c.read mem pointSize
  let (color, c) := c.read mem colorSize
  let (count, c) := c.read mem countSize
  let (children, c) := c.read mem childrenSize
  let (shortId, c) := c.read mem shortIdSize
  (⟨.ofNat (fieldLe count 0 8),
    ![.ofNat (fieldLe point 0 2), .ofNat (fieldLe point 2 2), .ofNat (fieldLe point 4 2)],
    ![.ofNat (fieldLe color 0 1), .ofNat (fieldLe color 1 1), .ofNat (fieldLe color 2 1)],
    .ofNat (fieldLe children 0 1)⟩, .ofNat (fieldLe shortId 0 4), c)

/-- What the loop of `deserialize(buffer)` works on. -/
structure Loading where
  /-- `offset`, and the ranges that were read. -/
  cursor : Cursor
  /-- `node_cache` -/
  cache : NodeMap

namespace Loading

/-- `offset < buffer.size()` -/
def Running (buffer : ByteVec) (l : Loading) : Prop := l.cursor.offset.toNat < buffer.length

instance (buffer : ByteVec) (l : Loading) : Decidable (l.Running buffer) :=
  inferInstanceAs (Decidable (_ < _))

/-- One round of the loop; nothing happens where the loop has ended. -/
def round (buffer : ByteVec) (beyond : ℕ → UInt8) (l : Loading) : Loading :=
  if l.Running buffer then
    let (n, shortId, c) := rawDeserializeNode (bytesAt buffer beyond) l.cursor
    ⟨c, l.cache.insert shortId n⟩
  else l

/-- Before the loop: the byte of child files has been read. -/
def start (cache : NodeMap) : Loading := ⟨((⟨0, []⟩ : Cursor).touch 0 1).skip 1, cache⟩

end Loading

/-- `deserialize(buffer)` on a file that already holds the nodes `cache`, with the ranges that it
reads: `none` where the loop is still running after that many rounds, no file where the assertion
after the loop fails. -/
def rawDeserialize (buffer : ByteVec) (beyond : ℕ → UInt8) (cache : NodeMap) (rounds : ℕ) :
    Option (Option FileData × List Access) :=
  let childFiles : UInt8 := .ofNat (fieldLe (slice (bytesAt buffer beyond) 0 1) 0 1)
  let l := (Loading.round buffer beyond)^[rounds] (Loading.start cache)
  if l.Running buffer then none
  else some (if buffer.length = l.cursor.offset.toNat then some ⟨childFiles, l.cache⟩ else none,
    l.cursor.trace)

/-- `deserialize(buffer)` comes to an end, reads only bytes of the buffer, and what it decodes are
the records of the buffer. -/
def ReadsWithinBounds (buffer : ByteVec) (beyond : ℕ → UInt8) (cache : NodeMap) : Prop :=
  ∃ rounds result trace, rawDeserialize buffer beyond cache rounds = some (result, trace) ∧
    (∀ a ∈ trace, a.Inside buffer.length) ∧
    ∀ f, result = some f → deserialize buffer cache = some f

/-! ### One record -/

variable {buffer : ByteVec} {beyond : ℕ → UInt8} {cache : NodeMap}

/-- A number in a field that lies inside the buffer is the one that a checked read finds. -/
theorem readLe_eq_fieldLe (beyond : ℕ → UInt8) {c : Cursor} {o n : ℕ} (hc : c.offset.toNat = o)
    (h : o + n ≤ buffer.length) (i k : ℕ) (hk : i + k ≤ n) :
    readLe buffer (o + i) k = some (fieldLe (c.read (bytesAt buffer beyond) n).1 i k) := by
  have hbytes : (c.read (bytesAt buffer beyond) n).1 = (buffer.drop o).take n := by
    rw [← slice_bytesAt beyond h, ← hc]
    exact congrArg (slice _ · n) (congrArg UInt32.toNat (UInt32.add_zero _))
  rw [readLe, if_pos (by omega), fieldLe, hbytes, List.drop_take, List.drop_drop, List.take_take,
    Nat.min_eq_left (by omega)]

@[simp] theorem offset_rawDeserializeNode (mem : ℕ → UInt8) (c : Cursor) :
    (rawDeserializeNode mem c).2.2.offset = c.offset + .ofNat nodeSize := by
  have hsum : (UInt32.ofNat pointSize + (.ofNat colorSize + (.ofNat countSize +
      (.ofNat childrenSize + .ofNat shortIdSize)))) = .ofNat nodeSize := rfl
  rw [← hsum]
  simp only [rawDeserializeNode, Cursor.read, Cursor.offset_skip, Cursor.offset_touch,
    UInt32.add_assoc]

/-- A record that begins inside the buffer is read inside it only where it also ends there. -/
theorem inside_rawDeserializeNode {mem : ℕ → UInt8} {c : Cursor} {size : ℕ} (hs : size < 2 ^ 32)
    (ho : c.offset.toNat < size) :
    (rawDeserializeNode mem c).2.2.Inside size ↔
      c.Inside size ∧ c.offset.toNat + nodeSize ≤ size := by
  simp only [rawDeserializeNode, Cursor.read, Cursor.inside_skip, Cursor.inside_touch, and_assoc,
    Cursor.offset_skip, Cursor.offset_touch, UInt32.toNat_add, UInt32.toNat_ofNat', pointSize,
    colorSize, countSize, childrenSize, shortIdSize, nodeSize]
  refine and_congr_right fun _ => ?_
  omega

/-- On a whole record the copies find what the checked reads find. -/
theorem deserializeNode_eq (beyond : ℕ → UInt8) {c : Cursor} {o : ℕ} (hs : buffer.length < 2 ^ 32)
    (hc : c.offset.toNat = o) (ho : o + nodeSize ≤ buffer.length) :
    deserializeNode buffer o =
      some ((rawDeserializeNode (bytesAt buffer beyond) c).1,
        (rawDeserializeNode (bytesAt buffer beyond) c).2.1, o + nodeSize) := by
  rw [nodeSize] at ho
  let mem := bytesAt buffer beyond
  have hcolor := Cursor.toNat_offset_read mem 6 hc (by omega)
  have hcount := Cursor.toNat_offset_read mem 3 hcolor (by omega)
  have hchildren := Cursor.toNat_offset_read mem 8 hcount (by omega)
  have hshort := Cursor.toNat_offset_read mem 1 hchildren (by omega)
  have point := readLe_eq_fieldLe beyond hc (show o + 6 ≤ buffer.length by omega)
  have color := readLe_eq_fieldLe beyond hcolor (show o + 6 + 3 ≤ buffer.length by omega)
  have count := readLe_eq_fieldLe beyond hcount (show o + 6 + 3 + 8 ≤ buffer.length by omega) 0 8
  have children :=
    readLe_eq_fieldLe beyond hchildren (show o + 6 + 3 + 8 + 1 ≤ buffer.length by omega) 0 1
  have shortId :=
    readLe_eq_fieldLe beyond hshort (show o + 6 + 3 + 8 + 1 + 4 ≤ buffer.length by omega) 0 4
  have p₀ := point 0 2 (by decide)
  have p₁ := point 2 2 (by decide)
  have p₂ := point 4 2 (by decide)
  have c₀ := color 0 1 (by decide)
  have c₁ := color 1 1 (by decide)
  have c₂ := color 2 1 (by decide)
  simp only [Nat.add_assoc, Nat.reduceAdd, Nat.add_zero, Nat.reduceLeDiff, forall_const]
    at p₀ p₁ p₂ c₀ c₁ c₂ count children shortId
  simp only [deserializeNode, p₀, p₁, p₂, c₀, c₁, c₂, count, children, shortId]
  rfl

/-! ### The loop -/

namespace Loading

variable {l : Loading}

theorem round_of_not_running (h : ¬ l.Running buffer) : l.round buffer beyond = l := if_neg h

theorem cursor_round (h : l.Running buffer) :
    (l.round buffer beyond).cursor = (rawDeserializeNode (bytesAt buffer beyond) l.cursor).2.2 := by
  rw [round, if_pos h]

/-- A round reads past the end of the buffer unless a whole record is left. -/
theorem inside_round (hs : buffer.length < 2 ^ 32) (h : l.Running buffer) :
    (l.round buffer beyond).cursor.Inside buffer.length ↔
      l.cursor.Inside buffer.length ∧ l.cursor.offset.toNat + nodeSize ≤ buffer.length := by
  rw [cursor_round h, inside_rawDeserializeNode hs h]

theorem offset_round (hs : buffer.length < 2 ^ 32) (h : l.Running buffer)
    (ho : l.cursor.offset.toNat + nodeSize ≤ buffer.length) :
    (l.round buffer beyond).cursor.offset.toNat = l.cursor.offset.toNat + nodeSize := by
  rw [cursor_round h, offset_rawDeserializeNode, Cursor.toNat_add (by omega)]

/-- The loop has read the first byte and some whole records. -/
def Whole (buffer : ByteVec) (l : Loading) : Prop :=
  l.cursor.offset.toNat % nodeSize = 1 ∧ l.cursor.offset.toNat ≤ buffer.length

theorem inside_of_inside_round (hs : buffer.length < 2 ^ 32)
    (hin : (l.round buffer beyond).cursor.Inside buffer.length) :
    l.cursor.Inside buffer.length := by
  by_cases h : l.Running buffer
  · exact ((inside_round hs h).1 hin).1
  · rwa [round_of_not_running h] at hin

theorem whole_round (hs : buffer.length < 2 ^ 32) (hl : l.Whole buffer)
    (hin : (l.round buffer beyond).cursor.Inside buffer.length) :
    (l.round buffer beyond).Whole buffer := by
  by_cases h : l.Running buffer
  · obtain ⟨-, ho⟩ := (inside_round hs h).1 hin
    rw [Whole, offset_round hs h ho, Nat.add_mod_right]
    exact ⟨hl.1, ho⟩
  · rwa [round_of_not_running h]

theorem inside_of_inside_rounds (hs : buffer.length < 2 ^ 32) {rounds : ℕ}
    (hin : ((round buffer beyond)^[rounds] l).cursor.Inside buffer.length) :
    l.cursor.Inside buffer.length := by
  induction rounds with
  | zero => exact hin
  | succ k ih =>
    rw [Function.iterate_succ_apply'] at hin
    exact ih (inside_of_inside_round hs hin)

/-- As long as every read has stayed inside the buffer, whole records have been read. -/
theorem whole_rounds (hs : buffer.length < 2 ^ 32) (hl : l.Whole buffer) (rounds : ℕ)
    (hin : ((round buffer beyond)^[rounds] l).cursor.Inside buffer.length) :
    ((round buffer beyond)^[rounds] l).Whole buffer := by
  induction rounds with
  | zero => exact hl
  | succ k ih =>
    rw [Function.iterate_succ_apply'] at hin ⊢
    exact whole_round hs (ih (inside_of_inside_round hs hin)) hin

/-- The loop over `m` whole records. -/
theorem deserializeNodes_rounds (beyond : ℕ → UInt8) (hs : buffer.length < 2 ^ 32) {m : ℕ}
    (hin : l.cursor.Inside buffer.length)
    (ho : l.cursor.offset.toNat + m * nodeSize = buffer.length) :
    ((round buffer beyond)^[m] l).cursor.Inside buffer.length ∧
      ((round buffer beyond)^[m] l).cursor.offset.toNat = buffer.length ∧
      ∀ fuel, m < fuel → deserializeNodes buffer fuel l.cursor.offset.toNat l.cache =
        some ((round buffer beyond)^[m] l).cache := by
  induction m generalizing l with
  | zero =>
    rw [Nat.zero_mul, Nat.add_zero] at ho
    refine ⟨hin, ho, fun fuel hf => ?_⟩
    obtain ⟨fuel, rfl⟩ := Nat.exists_eq_succ_of_ne_zero (Nat.ne_of_gt hf)
    rw [deserializeNodes, if_neg (by omega), if_pos ho]
    rfl
  | succ m ih =>
    rw [Nat.succ_mul] at ho
    have hfit : l.cursor.offset.toNat + nodeSize ≤ buffer.length := by omega
    have hlt : l.cursor.offset.toNat < buffer.length :=
      Nat.lt_of_lt_of_le (Nat.lt_add_of_pos_right (by decide)) hfit
    have hrun : l.Running buffer := hlt
    have hnext : (l.round buffer beyond).cursor.offset.toNat = l.cursor.offset.toNat + nodeSize :=
      offset_round hs hrun hfit
    obtain ⟨hin', ho', hread⟩ := ih ((inside_round hs hrun).2 ⟨hin, hfit⟩)
      (by rw [hnext]; omega)
    rw [Function.iterate_succ_apply]
    refine ⟨hin', ho', fun fuel hf => ?_⟩
    obtain ⟨fuel, rfl⟩ := Nat.exists_eq_succ_of_ne_zero (Nat.ne_of_gt (Nat.zero_lt_of_lt hf))
    rw [deserializeNodes, if_pos hlt, deserializeNode_eq beyond hs rfl hfit,
      ← hread fuel (by omega), hnext, round, if_pos hrun]

theorem inside_start {size : ℕ} : (start cache).cursor.Inside size ↔ 0 < size := by
  have hfirst : ((0 : UInt32) + .ofNat 0).toNat = 0 := rfl
  simp only [start, Cursor.inside_skip, Cursor.inside_touch, hfirst]
  simp [Cursor.Inside, Nat.lt_iff_add_one_le]

end Loading

/-! ### The whole buffer -/

/-- The loop ends, and every read up to there has stayed inside. -/
theorem exists_of_readsWithinBounds (h : ReadsWithinBounds buffer beyond cache) :
    ∃ rounds, ¬ ((Loading.round buffer beyond)^[rounds] (Loading.start cache)).Running buffer ∧
      ((Loading.round buffer beyond)^[rounds] (Loading.start cache)).cursor.Inside
        buffer.length := by
  obtain ⟨rounds, result, trace, hend, hin, -⟩ := h
  rw [rawDeserialize] at hend
  by_cases hrun : ((Loading.round buffer beyond)^[rounds] (Loading.start cache)).Running buffer
  · rw [if_pos hrun] at hend
    cases hend
  · rw [if_neg hrun] at hend
    obtain ⟨-, rfl⟩ := Prod.mk.inj (Option.some.inj hend)
    exact ⟨rounds, hrun, hin⟩

/-- The reads of `deserialize(buffer)` stay inside the buffer exactly where it consists of the byte
of child files and whole records, and its length fits the offset. -/
theorem readsWithinBounds_iff (buffer : ByteVec) (beyond : ℕ → UInt8) (cache : NodeMap) :
    ReadsWithinBounds buffer beyond cache ↔
      buffer.length % nodeSize = 1 ∧ buffer.length < 2 ^ 32 := by
  constructor
  · intro h
    obtain ⟨rounds, hrun, hin⟩ := exists_of_readsWithinBounds h
    have hdone := Nat.le_of_not_lt hrun
    -- An offset of 32 bits never reaches the end of a longer buffer.
    have hs : buffer.length < 2 ^ 32 :=
      Nat.lt_of_le_of_lt hdone (UInt32.toNat_lt _)
    have hfirst := Loading.inside_start.1 (Loading.inside_of_inside_rounds hs hin)
    have hwhole : (Loading.start cache).Whole buffer := ⟨rfl, hfirst⟩
    obtain ⟨hmod, hle⟩ := Loading.whole_rounds hs hwhole rounds hin
    exact ⟨Nat.le_antisymm hle hdone ▸ hmod, hs⟩
  · rintro ⟨hmod, hs⟩
    have hlen : 1 + buffer.length / nodeSize * nodeSize = buffer.length := by
      rw [← hmod]
      exact Nat.mod_add_div' _ _
    have hfirst : 0 < buffer.length := by omega
    have hstart : (Loading.start cache).cursor.Inside buffer.length :=
      Loading.inside_start.2 hfirst
    obtain ⟨hin, ho, hread⟩ := Loading.deserializeNodes_rounds beyond hs
      (m := buffer.length / nodeSize) hstart hlen
    refine ⟨buffer.length / nodeSize, _, _, if_neg (Nat.not_lt.2 ho.ge), hin, fun f hf => ?_⟩
    rw [if_pos ho.symm] at hf
    have hbyte : readLe buffer 0 1 = some (fieldLe (slice (bytesAt buffer beyond) 0 1) 0 1) :=
      readLe_eq_fieldLe (c := ⟨0, []⟩) (n := 1) beyond rfl hfirst 0 1 le_rfl
    have hnodes : deserializeNodes buffer (buffer.length + 1) 1 cache = some _ :=
      hread (buffer.length + 1) (Nat.lt_succ_of_le (Nat.div_le_self _ _))
    rw [← Option.some.inj hf, deserialize, hbyte, Option.bind_eq_bind, Option.bind_some, hnodes]
    rfl

/-- An empty reply, and a file that was cut off after the first byte of a record. -/
theorem not_readsWithinBounds :
    ¬ ReadsWithinBounds [] (fun _ => 0) ∅ ∧ ¬ ReadsWithinBounds [0, 0] (fun _ => 0) ∅ := by
  constructor
  · intro h
    obtain ⟨rounds, -, hin⟩ := exists_of_readsWithinBounds h
    have hfirst := Loading.inside_start.1 (Loading.inside_of_inside_rounds (by decide) hin)
    exact absurd hfirst (by decide)
  · intro h
    obtain ⟨rounds, hend, hin⟩ := exists_of_readsWithinBounds h
    have hrun : (Loading.start ∅).Running [0, 0] := Nat.one_lt_two
    cases rounds with
    | zero => exact hend hrun
    | succ rounds =>
      rw [Function.iterate_succ_apply] at hin
      obtain ⟨-, hfit⟩ := (Loading.inside_round (by decide) hrun).1
        (Loading.inside_of_inside_rounds (by decide) hin)
      exact absurd hfit (by decide)

/-! ### Writing -/

/-- `serializeNode(node, short_id, buffer, offset)`: five copies, each of which moves the offset. -/
def rawSerializeNode (o : Output) (n : Node) (shortId : ShortId) : Output :=
  let o := o.copy (leBytes 2 (n.point 0).toNat ++ leBytes 2 (n.point 1).toNat ++
    leBytes 2 (n.point 2).toNat)
  let o := o.copy [n.color 0, n.color 1, n.color 2]
  let o := o.copy (leBytes 8 n.count.toNat)
  let o := o.copy [n.children]
  o.copy (leBytes 4 shortId.toNat)

/-- `serialize(buffer)`, through an offset that wraps around. -/
def rawSerialize (f : FileData) : ByteVec :=
  let start : Output := ⟨.replicate (1 + f.nodeCache.size * nodeSize) 0, ⟨0, []⟩⟩
  (f.nodeCache.toList.foldl (fun o x => rawSerializeNode o x.2 x.1)
    (start.copy [f.childFiles])).buffer

@[simp] theorem length_rawSerializeNode (o : Output) (n : Node) (s : ShortId) :
    (rawSerializeNode o n s).buffer.length = o.buffer.length := by
  simp only [rawSerializeNode, Output.length_copy]

theorem length_foldl_rawSerializeNode (l : List (ShortId × Node)) (o : Output) :
    (l.foldl (fun o x => rawSerializeNode o x.2 x.1) o).buffer.length = o.buffer.length := by
  induction l generalizing o with
  | nil => rfl
  | cons x l ih => rw [List.foldl_cons, ih, length_rawSerializeNode]

theorem length_rawSerialize (f : FileData) :
    (rawSerialize f).length = 1 + f.nodeCache.size * nodeSize := by
  rw [rawSerialize, length_foldl_rawSerializeNode, Output.length_copy, List.length_replicate]

/-- A record is appended, as long as there is room for it. -/
theorem appends_rawSerializeNode {o : Output} (n : Node) (s : ShortId)
    (h : o.cursor.offset.toNat + nodeSize ≤ o.buffer.length) (hs : o.buffer.length < 2 ^ 32) :
    o.Appends (serializeNode n s) (rawSerializeNode o n s) := by
  rw [nodeSize] at h
  have point := (Output.Appends.refl o).copy (leBytes 2 (n.point 0).toNat ++
    leBytes 2 (n.point 1).toNat ++ leBytes 2 (n.point 2).toNat) (by simp; omega) hs
  have color := point.copy [n.color 0, n.color 1, n.color 2] (by simp; omega) hs
  have count := color.copy (leBytes 8 n.count.toNat) (by simp; omega) hs
  have children := count.copy [n.children] (by simp; omega) hs
  exact children.copy (leBytes 4 s.toNat) (by simp; omega) hs

theorem appends_foldl_rawSerializeNode (l : List (ShortId × Node)) {o : Output}
    (h : o.cursor.offset.toNat + l.length * nodeSize ≤ o.buffer.length)
    (hs : o.buffer.length < 2 ^ 32) :
    o.Appends (l.flatMap fun x => serializeNode x.2 x.1)
      (l.foldl (fun o x => rawSerializeNode o x.2 x.1) o) := by
  induction l generalizing o with
  | nil => exact .refl o
  | cons x l ih =>
    rw [List.length_cons, Nat.succ_mul] at h
    have hfirst := appends_rawSerializeNode x.2 x.1 (o := o) (by omega) hs
    have hlen := length_serializeNode x.2 x.1
    have hrest := ih (o := rawSerializeNode o x.2 x.1)
      (by rw [hfirst.offset, hfirst.length, hlen]; omega) (by rwa [hfirst.length])
    rw [List.flatMap_cons, List.foldl_cons]
    exact hfirst.trans hrest

/-- The writer on a file that its offset can address. -/
theorem rawSerialize_eq {f : FileData} (h : 1 + f.nodeCache.size * nodeSize < 2 ^ 32) :
    rawSerialize f = serialize f := by
  rw [rawSerialize]
  set start : Output := ⟨.replicate (1 + f.nodeCache.size * nodeSize) 0, ⟨0, []⟩⟩ with hstart
  have hroom : start.buffer.length = 1 + f.nodeCache.size * nodeSize := List.length_replicate
  have hzero : start.cursor.offset.toNat = 0 := rfl
  have hs : start.buffer.length < 2 ^ 32 := hroom ▸ h
  have hbyte : start.Appends [f.childFiles] (start.copy [f.childFiles]) :=
    (Output.Appends.refl start).copy [f.childFiles]
      (by rw [hroom, hzero]; exact (Nat.zero_add _).trans_le (Nat.le_add_right _ _)) hs
  have hnodes := appends_foldl_rawSerializeNode f.nodeCache.toList
    (o := start.copy [f.childFiles]) (by
      rw [hbyte.offset, hbyte.length, hroom, hzero, Std.ExtTreeMap.length_toList, Nat.zero_add,
        List.length_singleton]) (by rwa [hbyte.length])
  have hall := hbyte.trans hnodes
  -- The last copy ends at the end of the buffer.
  have hlen : ([f.childFiles] ++ f.nodeCache.toList.flatMap fun x =>
      serializeNode x.2 x.1).length = _ := length_serialize f
  have hend := hall.offset
  rw [hzero, Nat.zero_add, hlen, ← hroom, ← hall.length] at hend
  have hwritten := hall.written
  rw [Output.written, hend, List.take_length] at hwritten
  exact hwritten

end MegaTree
