import MegaTree.Core.Bounds
import MegaTree.Viz.VizStorage

/-!
# The viewer format for replies of any length

`rawConvert` is the loop of `VizStorage::convert` with its machine integers: the size of the output
comes from an unsigned subtraction and a division, the loop is driven by the offset into the data,
and the output is written through an offset of its own.

* `Converting.offset_rounds` : both offsets after some rounds of a loop that is still running.
* `Converting.good_rounds` : on whole records the two offsets move together to the two ends.
* `convert_eq` : on whole records the loop computes what the checked `convert` does.
* `convertSafe_iff` : the lengths on which the conversion is safe.
-/

namespace MegaTree

namespace VizStorage

open Memory

/-- `STRIDE` -/
def stride : ℕ := 6

/-- `num_nodes` -/
def numNodes (size : UInt64) : UInt64 := (size - 1) / .ofNat nodeSize

/-- `1 + num_nodes*STRIDE`, the size of the output. -/
def resSize (size : UInt64) : UInt64 := 1 + numNodes size * .ofNat stride

/-- What the loop of `convert` works on. -/
structure Converting where
  /-- `data_offset`, and the ranges that were read. -/
  data : Cursor
  /-- `res` and `res_offset`, and the ranges that were written. -/
  res : Output

namespace Converting

/-- `data_offset < data.size()` -/
def Running (data : ByteVec) (st : Converting) : Prop := st.data.offset.toNat < data.length

instance (data : ByteVec) (st : Converting) : Decidable (st.Running data) :=
  inferInstanceAs (Decidable (_ < _))

/-- The body of the loop. -/
def node (subtreeWidth : ℕ) (mem : ℕ → UInt8) (st : Converting) : Converting :=
  let d := st.data
  -- The short id is read ahead, without moving the offset.
  let ahead := pointSize + colorSize + countSize + childrenSize
  let shortId : ShortId := .ofNat (fieldLe (d.bytes mem ahead shortIdSize) 0 4)
  let d := d.touch ahead shortIdSize
  -- The point of the node is skipped and not read.
  let d := ((d.skip 2).skip 2).skip 2
  let pnt := localPoint subtreeWidth shortId
  let r := ((st.res.put (pnt 0 >>> 8).toUInt8).put (pnt 1 >>> 8).toUInt8).put (pnt 2 >>> 8).toUInt8
  let (c₀, d) := d.read mem 1
  let r := r.put (.ofNat (fieldLe c₀ 0 1))
  let (c₁, d) := d.read mem 1
  let r := r.put (.ofNat (fieldLe c₁ 0 1))
  let (c₂, d) := d.read mem 1
  let r := r.put (.ofNat (fieldLe c₂ 0 1))
  let (_, d) := d.read mem countSize
  let (children, d) := d.read mem childrenSize
  let r := r.amend (stash (.ofNat (fieldLe children 0 1)))
  ⟨d.skip shortIdSize, r⟩

/-- One round of the loop; nothing happens where the loop has ended. -/
def round (subtreeWidth : ℕ) (data : ByteVec) (beyond : ℕ → UInt8) (st : Converting) :
    Converting :=
  if st.Running data then st.node subtreeWidth (bytesAt data beyond) else st

/-- Before the loop: the byte of child files has been copied. -/
def start (data : ByteVec) (beyond : ℕ → UInt8) : Converting :=
  let (childFiles, d) := (⟨0, []⟩ : Cursor).read (bytesAt data beyond) 1
  let res : Output := ⟨.replicate (resSize (.ofNat data.length)).toNat 0, ⟨0, []⟩⟩
  ⟨d, res.put (.ofNat (fieldLe childFiles 0 1))⟩

/-- The state of `convert(data, res)` after that many rounds of its loop. -/
def rounds (subtreeWidth : ℕ) (data : ByteVec) (beyond : ℕ → UInt8) (k : ℕ) : Converting :=
  (round subtreeWidth data beyond)^[k] (start data beyond)

end Converting

/-- `convert(data, res)` is safe: the size of the output is the one without wrap-around, whatever
is read or written lies inside the buffers, and no data gives no output. -/
structure ConvertSafe (subtreeWidth : ℕ) (data : ByteVec) (beyond : ℕ → UInt8) : Prop where
  size : ((resSize (.ofNat data.length)).toNat : ℤ) =
    1 + ((data.length : ℤ) - 1) / nodeSize * stride
  reads : ∀ k, (Converting.rounds subtreeWidth data beyond k).data.Inside data.length
  writes : ∀ k, (Converting.rounds subtreeWidth data beyond k).res.Inside
  empty : data = [] → ∃ k, ¬ (Converting.rounds subtreeWidth data beyond k).Running data ∧
    (Converting.rounds subtreeWidth data beyond k).res.buffer = []

/-! ### The size of the output -/

theorem toNat_resSize {size : ℕ} (h : size < 2 ^ 64) (h₀ : 0 < size) :
    (resSize (.ofNat size)).toNat = 1 + (size - 1) / nodeSize * stride := by
  have hsize : (UInt64.ofNat size).toNat = size := by rw [UInt64.toNat_ofNat', Nat.mod_eq_of_lt h]
  have hsub : (UInt64.ofNat size - 1).toNat = size - 1 := by
    rw [UInt64.toNat_sub_of_le _ _ (UInt64.le_iff_toNat_le.2 (by rw [hsize]; exact h₀)), hsize]
    rfl
  have hnodes : (numNodes (.ofNat size)).toNat = (size - 1) / nodeSize := by
    rw [numNodes, UInt64.toNat_div, hsub]
    rfl
  rw [resSize, UInt64.toNat_add, UInt64.toNat_mul, hnodes]
  simp only [UInt64.toNat_ofNat', UInt64.toNat_one, nodeSize, stride]
  omega

theorem size_iff {size : ℕ} (h : size < 2 ^ 64) :
    ((resSize (.ofNat size)).toNat : ℤ) = 1 + ((size : ℤ) - 1) / nodeSize * stride ↔ 0 < size := by
  constructor
  · intro he
    by_contra h₀
    rw [Nat.eq_zero_of_not_pos h₀] at he
    revert he
    decide
  · intro h₀
    rw [toNat_resSize h h₀]
    push_cast [Nat.cast_sub h₀]
    rfl

/-! ### One record -/

namespace Converting

variable {w : ℕ} {data : ByteVec} {beyond mem : ℕ → UInt8} {st : Converting}

@[simp] theorem offset_data_node :
    (st.node w mem).data.offset = st.data.offset + .ofNat nodeSize := by
  have hsum : UInt32.ofNat 2 + (.ofNat 2 + (.ofNat 2 + (.ofNat 1 + (.ofNat 1 + (.ofNat 1 +
      (.ofNat countSize + (.ofNat childrenSize + .ofNat shortIdSize))))))) = .ofNat nodeSize := rfl
  rw [← hsum]
  simp only [node, Cursor.read, Cursor.offset_skip, Cursor.offset_touch, UInt32.add_assoc]

@[simp] theorem offset_res_node :
    (st.node w mem).res.cursor.offset = st.res.cursor.offset + .ofNat stride := by
  have hsum : (1 + (1 + (1 + (1 + (1 + 1)))) : UInt32) = .ofNat stride := rfl
  rw [← hsum]
  simp only [node, Output.offset_put, Output.offset_amend, UInt32.add_assoc]

@[simp] theorem length_res_node : (st.node w mem).res.buffer.length = st.res.buffer.length := by
  simp only [node, Output.length_put, Output.length_amend]

theorem inside_data_node {size : ℕ} :
    (st.node w mem).data.Inside size ↔ st.data.Inside size ∧
      (st.data.offset.toNat + 18) % 2 ^ 32 + 4 ≤ size ∧
      (st.data.offset.toNat + 6) % 2 ^ 32 + 1 ≤ size ∧
      (st.data.offset.toNat + 7) % 2 ^ 32 + 1 ≤ size ∧
      (st.data.offset.toNat + 8) % 2 ^ 32 + 1 ≤ size ∧
      (st.data.offset.toNat + 9) % 2 ^ 32 + 8 ≤ size ∧
      (st.data.offset.toNat + 17) % 2 ^ 32 + 1 ≤ size := by
  simp only [node, Cursor.read, Cursor.inside_skip, Cursor.inside_touch, and_assoc,
    Cursor.offset_skip, Cursor.offset_touch, UInt32.toNat_add, UInt32.toNat_ofNat', pointSize,
    colorSize, countSize, childrenSize, shortIdSize]
  refine and_congr_right fun _ => ?_
  omega

theorem inside_res_node :
    (st.node w mem).res.Inside ↔ st.res.Inside ∧
      ∀ i < 6, (st.res.cursor.offset.toNat + i) % 2 ^ 32 < st.res.buffer.length := by
  have hlast (o : UInt32) : o + 1 - 1 = o := UInt32.add_sub_cancel ..
  have hlt := st.res.cursor.offset.toNat_lt
  simp only [node, Output.inside_amend, Output.inside_put, Output.length_put, Output.offset_put,
    hlast, and_assoc, UInt32.toNat_add, UInt32.toNat_one]
  refine and_congr_right fun _ => ⟨fun h i hi => ?_, fun h => ?_⟩
  · interval_cases i <;> omega
  · have h₀ := h 0 (by decide)
    have h₁ := h 1 (by decide)
    have h₂ := h 2 (by decide)
    have h₃ := h 3 (by decide)
    have h₄ := h 4 (by decide)
    have h₅ := h 5 (by decide)
    omega

/-- The number in a field depends only on where the field lies. -/
theorem fieldLe_congr (beyond : ℕ → UInt8) {c c' : Cursor} {o o' n n' : ℕ} (i i' k : ℕ)
    (hc : c.offset.toNat = o) (hc' : c'.offset.toNat = o') (h : o + n ≤ data.length)
    (h' : o' + n' ≤ data.length) (hi : i + k ≤ n) (hi' : i' + k ≤ n') (he : o + i = o' + i') :
    fieldLe (c.read (bytesAt data beyond) n).1 i k =
      fieldLe (c'.read (bytesAt data beyond) n').1 i' k := by
  have hread := readLe_eq_fieldLe beyond hc h i k hi
  rw [he, readLe_eq_fieldLe beyond hc' h' i' k hi'] at hread
  exact (Option.some.inj hread).symm

/-- On a whole record the loop writes the entry of the node that is stored there. -/
theorem written_node (w : ℕ) (beyond : ℕ → UInt8) {o : ℕ} (hs : data.length < 2 ^ 32)
    (hc : st.data.offset.toNat = o)
    (ho : o + nodeSize ≤ data.length) (hR : st.res.buffer.length < 2 ^ 32)
    (hr : st.res.cursor.offset.toNat + stride ≤ st.res.buffer.length) :
    ∃ n s, deserializeNode data o = some (n, s, o + nodeSize) ∧
      (st.node w (bytesAt data beyond)).res.written = st.res.written ++ convertNode w s n := by
  refine ⟨_, _, deserializeNode_eq beyond hs hc ho, ?_⟩
  rw [nodeSize] at ho
  -- The cursors of `deserializeNode` at its fields, and those of the loop.
  have color : (st.data.read (bytesAt data beyond) 6).2.offset.toNat = o + 6 :=
    Cursor.toNat_offset_read (bytesAt data beyond) 6 hc (by omega)
  have count := Cursor.toNat_offset_read (bytesAt data beyond) 3 color (by omega)
  have children := Cursor.toNat_offset_read (bytesAt data beyond) 8 count (by omega)
  have shortId := Cursor.toNat_offset_read (bytesAt data beyond) 1 children (by omega)
  have ahead : (st.data.skip 18).offset.toNat = o + 18 := hc ▸ Cursor.toNat_add (by omega)
  have d₀ : ((((st.data.touch 18 4).skip 2).skip 2).skip 2).offset.toNat = o + 6 := by
    simp only [Cursor.offset_skip, Cursor.offset_touch, UInt32.toNat_add, hc,
      UInt32.toNat_ofNat']
    omega
  have d₁ := Cursor.toNat_offset_read (bytesAt data beyond) 1 d₀ (by omega)
  have d₂ := Cursor.toNat_offset_read (bytesAt data beyond) 1 d₁ (by omega)
  have d₃ := Cursor.toNat_offset_read (bytesAt data beyond) 1 d₂ (by omega)
  have d₄ := Cursor.toNat_offset_read (bytesAt data beyond) 8 d₃ (by omega)
  have hcolor : o + 6 + 3 ≤ data.length := by omega
  have s₀ := fieldLe_congr beyond 0 0 4 ahead shortId (show o + 18 + 4 ≤ data.length by omega)
    (show o + 6 + 3 + 8 + 1 + 4 ≤ data.length by omega) le_rfl le_rfl rfl
  have c₀ := fieldLe_congr beyond 0 0 1 d₀ color (show o + 6 + 1 ≤ data.length by omega) hcolor
    le_rfl (by decide) rfl
  have c₁ := fieldLe_congr beyond 0 1 1 d₁ color (show o + 6 + 1 + 1 ≤ data.length by omega) hcolor
    le_rfl (by decide) rfl
  have c₂ := fieldLe_congr beyond 0 2 1 d₂ color (show o + 6 + 1 + 1 + 1 ≤ data.length by omega)
    hcolor le_rfl (by decide) rfl
  have e₀ := fieldLe_congr beyond 0 0 1 d₄ children
    (show o + 6 + 1 + 1 + 1 + 8 + 1 ≤ data.length by omega)
    (show o + 6 + 3 + 8 + 1 ≤ data.length by omega) le_rfl le_rfl rfl
  rw [Cursor.read_skip] at s₀
  simp only [Cursor.read] at s₀ c₀ c₁ c₂ e₀
  refine (Output.written_amend_put).trans ((Output.written_foldl_put (o := st.res)
    [_, _, _, _, _, _] hr hR).trans ?_)
  simp only [convertNode, rawDeserializeNode, pointSize, colorSize, countSize, childrenSize,
    shortIdSize, Nat.reduceAdd, Cursor.read, s₀, c₀, c₁, c₂, e₀, Matrix.cons_val]

/-! ### The loop -/

theorem round_of_running (h : st.Running data) :
    st.round w data beyond = st.node w (bytesAt data beyond) := if_pos h

theorem round_of_not_running (h : ¬ st.Running data) : st.round w data beyond = st := if_neg h

theorem rounds_succ (k : ℕ) : rounds w data beyond (k + 1) =
    (rounds w data beyond k).round w data beyond := Function.iterate_succ_apply' ..

@[simp] theorem length_res_rounds (k : ℕ) : (rounds w data beyond k).res.buffer.length =
    (resSize (.ofNat data.length)).toNat := by
  induction k with
  | zero => simp [rounds, start, Output.length_put]
  | succ k ih =>
    rw [rounds_succ, round]
    split_ifs
    · rw [length_res_node, ih]
    · exact ih

/-- As long as the loop runs, a record is read and an entry is written in every round. -/
theorem offset_rounds {k : ℕ} (h : ∀ j < k, (rounds w data beyond j).Running data) :
    (rounds w data beyond k).data.offset.toNat = (1 + k * nodeSize) % 2 ^ 32 ∧
      (rounds w data beyond k).res.cursor.offset.toNat = (1 + k * stride) % 2 ^ 32 := by
  induction k with
  | zero => exact ⟨rfl, rfl⟩
  | succ k ih =>
    obtain ⟨hd, hr⟩ := ih fun j hj => h j (by omega)
    rw [rounds_succ, round_of_running (h k (Nat.lt_succ_self k)), offset_data_node, offset_res_node,
      UInt32.toNat_add, UInt32.toNat_add, hd, hr]
    simp only [UInt32.toNat_ofNat', nodeSize, stride]
    omega

/-- Writing after the last record leaves the output. -/
theorem exists_not_running {q : ℕ} (hsize : (resSize (.ofNat data.length)).toNat = 1 + q * stride)
    (hlt : 1 + q * stride < 2 ^ 32) (hin : (rounds w data beyond (q + 1)).res.Inside) :
    ∃ k ≤ q, ¬ (rounds w data beyond k).Running data ∧
      ∀ j < k, (rounds w data beyond j).Running data := by
  by_contra hno
  have hrun : ∀ j ≤ q, (rounds w data beyond j).Running data := by
    intro j
    induction j using Nat.strong_induction_on with
    | _ j ih =>
      intro hj
      by_contra hstop
      exact hno ⟨j, hj, hstop, fun i hi => ih i hi (by omega)⟩
  obtain ⟨-, hr⟩ := offset_rounds (k := q) fun j hj => hrun j (by omega)
  rw [rounds_succ, round_of_running (hrun q le_rfl), inside_res_node, length_res_rounds, hr,
    hsize] at hin
  have hfirst := hin.2 0 (by decide)
  rw [Nat.add_zero, Nat.mod_mod, Nat.mod_eq_of_lt hlt] at hfirst
  exact Nat.lt_irrefl _ hfirst

/-- Whole records are left to read, and the output has room for their entries. -/
structure Fits (data : ByteVec) (left : ℕ) (st : Converting) : Prop where
  reads : st.data.Inside data.length
  writes : st.res.Inside
  data : st.data.offset.toNat + left * nodeSize = data.length
  res : st.res.cursor.offset.toNat + left * stride = st.res.buffer.length

theorem Fits.running {left : ℕ} (h : st.Fits data (left + 1)) : st.Running data := by
  have hd := h.data
  simp only [nodeSize] at hd
  rw [Running]
  omega

theorem Fits.node {left : ℕ} (h : st.Fits data (left + 1)) (hs : data.length < 2 ^ 32)
    (hR : st.res.buffer.length < 2 ^ 32) : (st.node w mem).Fits data left := by
  obtain ⟨hin, hout, hd, hr⟩ := h
  simp only [nodeSize, stride] at hd hr
  refine ⟨inside_data_node.2 ⟨hin, ?_⟩, inside_res_node.2 ⟨hout, fun i hi => ?_⟩, ?_, ?_⟩
  · omega
  · omega
  · rw [offset_data_node, nodeSize, Cursor.toNat_add (by omega)]
    omega
  · rw [offset_res_node, length_res_node, stride, Cursor.toNat_add (by omega)]
    omega

theorem Fits.round {left : ℕ} (h : st.Fits data left) (hs : data.length < 2 ^ 32)
    (hR : st.res.buffer.length < 2 ^ 32) : (st.round w data beyond).Fits data (left - 1) := by
  cases left with
  | zero =>
    have hd := h.data
    rw [round_of_not_running (by rw [Running]; omega)]
    exact h
  | succ left =>
    rw [round_of_running h.running]
    exact h.node hs hR

theorem fits_rounds {left : ℕ} (hs : data.length < 2 ^ 32)
    (hR : (resSize (.ofNat data.length)).toNat < 2 ^ 32) (h : (start data beyond).Fits data left)
    (k : ℕ) : (rounds w data beyond k).Fits data (left - k) := by
  induction k with
  | zero => exact h
  | succ k ih =>
    rw [rounds_succ, Nat.sub_add_eq]
    exact ih.round hs (by rwa [length_res_rounds])

/-- The loop over whole records writes the entries that `convert` computes. -/
theorem convertNodes_iterate {left : ℕ} (hs : data.length < 2 ^ 32)
    (hR : st.res.buffer.length < 2 ^ 32) (h : st.Fits data left) :
    ∃ entries, ((round w data beyond)^[left] st).res.written = st.res.written ++ entries ∧
      ∀ fuel, left < fuel → convertNodes w data fuel st.data.offset.toNat = some entries := by
  induction left generalizing st with
  | zero =>
    refine ⟨[], (List.append_nil _).symm, fun fuel hf => ?_⟩
    obtain ⟨fuel, rfl⟩ := Nat.exists_eq_succ_of_ne_zero (Nat.ne_of_gt hf)
    have hd := h.data
    rw [convertNodes, if_neg (by omega)]
  | succ left ih =>
    have hd := h.data
    have hr := h.res
    rw [Nat.succ_mul] at hd hr
    obtain ⟨n, s, hrecord, hentry⟩ := written_node w beyond hs rfl (by omega) hR (by omega)
    have hround : st.round w data beyond = st.node w (bytesAt data beyond) :=
      round_of_running h.running
    have hnext : (st.round w data beyond).data.offset.toNat = st.data.offset.toNat + nodeSize := by
      rw [hround, offset_data_node, Cursor.toNat_add (by omega)]
    obtain ⟨entries, hwritten, hread⟩ := ih (by rwa [hround, length_res_node]) (h.round hs hR)
    refine ⟨convertNode w s n ++ entries, ?_, fun fuel hf => ?_⟩
    · rw [Function.iterate_succ_apply, hwritten, hround, hentry, List.append_assoc]
    · obtain ⟨fuel, rfl⟩ := Nat.exists_eq_succ_of_ne_zero (Nat.ne_of_gt (Nat.zero_lt_of_lt hf))
      have hlt : st.data.offset.toNat < data.length := h.running
      rw [convertNodes, if_pos hlt, hrecord, ← hnext]
      simp only [hread fuel (by omega), Option.map_some]

theorem inside_start {size : ℕ} (h : 0 < size) : (start data beyond).data.Inside size := by
  show (Cursor.read (bytesAt data beyond) ⟨0, []⟩ 1).2.Inside size
  exact Cursor.inside_read.2 ⟨Cursor.inside_nil, h⟩

theorem inside_res_start (h : 0 < (resSize (.ofNat data.length)).toNat) :
    (start data beyond).res.Inside := by
  refine Output.inside_put.2 ⟨Cursor.inside_nil, ?_⟩
  rw [List.length_replicate]
  exact h

theorem written_start (h : 0 < (resSize (.ofNat data.length)).toNat)
    (hR : (resSize (.ofNat data.length)).toNat < 2 ^ 32) :
    (start data beyond).res.written =
      [.ofNat (fieldLe (slice (bytesAt data beyond) 0 1) 0 1)] := by
  refine (Output.written_put ?_ ?_).trans rfl
  · rw [List.length_replicate]
    exact h
  · rwa [List.length_replicate]

theorem fits_start (hs : data.length < 2 ^ 32) {q : ℕ} (hlen : 1 + q * nodeSize = data.length)
    (hsize : (resSize (.ofNat data.length)).toNat = 1 + q * stride) :
    (start data beyond).Fits data q where
  reads := inside_start (by omega)
  writes := inside_res_start (by omega)
  data := hlen
  res := by
    rw [show (start data beyond).res.buffer.length = _ from length_res_rounds (w := 0) 0, hsize]
    rfl

/-- Where the output has 2 ^ 32 bytes or more, the offsets cannot leave the buffers. -/
theorem inside_rounds_of_le (hlen : 2 ^ 32 + 8 ≤ data.length)
    (hsize : 2 ^ 32 ≤ (resSize (.ofNat data.length)).toNat) (k : ℕ) :
    (rounds w data beyond k).data.Inside data.length ∧ (rounds w data beyond k).res.Inside := by
  induction k with
  | zero => exact ⟨inside_start (by omega), inside_res_start (by omega)⟩
  | succ k ih =>
    have hrun : (rounds w data beyond k).Running data :=
      Nat.lt_of_lt_of_le (UInt32.toNat_lt _) (by omega)
    rw [rounds_succ, round_of_running hrun, inside_data_node, inside_res_node, length_res_rounds]
    refine ⟨⟨ih.1, ?_⟩, ih.2, fun i _ => ?_⟩
    · omega
    · exact Nat.lt_of_lt_of_le (Nat.mod_lt _ (by decide)) hsize

end Converting

/-! ### The whole reply -/

/-- The sizes of a reply of whole records and of its output. -/
theorem sizes_of_mod {size : ℕ} (hs : size < 2 ^ 32) (hmod : size % nodeSize = 1) :
    1 + size / nodeSize * nodeSize = size ∧
      (resSize (.ofNat size)).toNat = 1 + size / nodeSize * stride := by
  rw [nodeSize] at hmod
  have hpos : 0 < size := by omega
  have hq : (size - 1) / nodeSize = size / nodeSize := by
    simp only [nodeSize]
    omega
  rw [toNat_resSize (by omega) hpos, hq]
  refine ⟨?_, rfl⟩
  simp only [nodeSize]
  omega

/-- On whole records the loop ends with the output of `convert`. -/
theorem convert_eq (w : ℕ) {data : ByteVec} (beyond : ℕ → UInt8) (hs : data.length < 2 ^ 32)
    (hmod : data.length % nodeSize = 1) :
    ¬ (Converting.rounds w data beyond (data.length / nodeSize)).Running data ∧
      convert w data =
        some (Converting.rounds w data beyond (data.length / nodeSize)).res.buffer := by
  obtain ⟨hlen, hsize⟩ := sizes_of_mod hs hmod
  have hR : (resSize (.ofNat data.length)).toNat < 2 ^ 32 := by
    rw [hsize, stride]
    rw [nodeSize] at hlen
    simp only [nodeSize]
    omega
  have hfits : (Converting.start data beyond).Fits data (data.length / nodeSize) :=
    Converting.fits_start hs hlen hsize
  have hlast := Converting.fits_rounds (w := w) hs hR hfits (data.length / nodeSize)
  rw [Nat.sub_self] at hlast
  have hpos : 0 < data.length := by omega
  have hfirst : readLe data 0 1 = some (fieldLe (slice (bytesAt data beyond) 0 1) 0 1) :=
    readLe_eq_fieldLe (c := ⟨0, []⟩) (n := 1) beyond rfl hpos 0 1 le_rfl
  obtain ⟨entries, hwritten, hread⟩ := Converting.convertNodes_iterate (w := w) hs
    (by rwa [← show (Converting.start data beyond).res.buffer.length = _ from
      Converting.length_res_rounds (w := w) 0] at hR) hfits
  have hnodes : convertNodes w data (data.length + 1) 1 = some entries :=
    hread _ (Nat.lt_succ_of_le (Nat.div_le_self _ _))
  have hdata := hlast.data
  have hres := hlast.res
  rw [Nat.zero_mul, Nat.add_zero] at hdata hres
  refine ⟨Nat.not_lt.2 hdata.ge, ?_⟩
  -- The whole buffer has been written.
  have hfull : (Converting.rounds w data beyond (data.length / nodeSize)).res.written =
      (Converting.rounds w data beyond (data.length / nodeSize)).res.buffer := by
    rw [Output.written, hres, List.take_length]
  rw [← hfull, Converting.rounds, hwritten, Converting.written_start (by omega) hR, convert, hfirst,
    Option.bind_eq_bind, Option.bind_some, hnodes]
  rfl

/-- The conversion is safe exactly where the reply consists of the byte of child files and whole
records and its length fits the offset, or where the output has 2 ^ 32 bytes and more: the loop
then never ends, and no offset of 32 bits leaves the buffers. -/
theorem convertSafe_iff (w : ℕ) (data : ByteVec) (beyond : ℕ → UInt8)
    (hsize : data.length < 2 ^ 64) :
    ConvertSafe w data beyond ↔ (data.length % nodeSize = 1 ∧ data.length < 2 ^ 32) ∨
      2 ^ 32 ≤ 1 + (data.length - 1) / nodeSize * stride := by
  constructor
  · intro h
    have hpos := (size_iff hsize).1 h.size
    by_cases hbig : 2 ^ 32 ≤ 1 + (data.length - 1) / nodeSize * stride
    · exact .inr hbig
    · obtain ⟨k, hk, hstop, hrun⟩ := Converting.exists_not_running (toNat_resSize hsize hpos)
        (Nat.lt_of_not_le hbig) (h.writes _)
      obtain ⟨hoffset, -⟩ := Converting.offset_rounds hrun
      rw [Converting.Running, hoffset] at hstop
      simp only [nodeSize, stride] at hbig hk hstop ⊢
      omega
  · rintro (⟨hmod, hs⟩ | hbig)
    · obtain ⟨hlen, hres⟩ := sizes_of_mod hs hmod
      have hR : (resSize (.ofNat data.length)).toNat < 2 ^ 32 := by
        rw [hres, stride]
        simp only [nodeSize] at hlen ⊢
        omega
      have hstart : (Converting.start data beyond).Fits data (data.length / nodeSize) :=
        Converting.fits_start hs hlen hres
      have hfits := Converting.fits_rounds (w := w) hs hR hstart
      refine ⟨(size_iff hsize).2 (by omega), fun k => (hfits k).reads, fun k =>
        (hfits k).writes, ?_⟩
      rintro rfl
      exact absurd hmod (by decide)
    · have hpos : 0 < data.length := by
        rw [nodeSize, stride] at hbig
        omega
      have hlen : 2 ^ 32 + 8 ≤ data.length := by
        simp only [nodeSize, stride] at hbig
        omega
      have hres : 2 ^ 32 ≤ (resSize (.ofNat data.length)).toNat := by
        rwa [toNat_resSize hsize hpos]
      have hin (k : ℕ) : (Converting.rounds w data beyond k).data.Inside data.length ∧
          (Converting.rounds w data beyond k).res.Inside :=
        Converting.inside_rounds_of_le hlen hres k
      refine ⟨(size_iff hsize).2 hpos, fun k => (hin k).1, fun k => (hin k).2, ?_⟩
      rintro rfl
      exact absurd hpos (Nat.lt_irrefl 0)

/-- A node file without nodes. -/
theorem convertSafe_single : ConvertSafe 6 [0] fun _ => 0 :=
  (convertSafe_iff 6 [0] _ (by decide)).2 (.inl ⟨by decide, by decide⟩)

/-- The reply for a missing file, and a file that was cut off after the first byte of a record. -/
theorem not_convertSafe :
    ¬ ConvertSafe 6 [] (fun _ => 0) ∧ ¬ ConvertSafe 6 [0, 0] (fun _ => 0) := by
  constructor
  · intro h
    exact Nat.lt_irrefl 0 ((size_iff (by decide)).1 h.size)
  · intro h
    have hrun : (Converting.rounds 6 [0, 0] (fun _ => 0) 0).Running [0, 0] := Nat.one_lt_two
    have hreads := h.reads 1
    rw [Converting.rounds_succ, Converting.round_of_running hrun,
      Converting.inside_data_node] at hreads
    exact absurd hreads.2.1 (by decide)

end VizStorage

end MegaTree
