import Mathlib.Algebra.Group.Nat.Defs
import Mathlib.Data.List.Range

/-!
# Reading a buffer without checks

A program that copies bytes from an address finds the bytes of its buffer there and, past the end
of the buffer, whatever lies behind it.  `bytesAt` is that memory.  A `Cursor` is the 32-bit offset
of such a program together with the ranges of bytes that it has touched, and an `Output` a buffer
that it fills from the beginning.

* `slice_bytesAt` : inside the buffer the bytes in memory are those of the buffer.
* `Cursor.inside_touch` : which reads leave the buffer.
* `Cursor.toNat_add` : an offset that does not wrap around.
* `Output.written_put` : what has been written so far.
-/

namespace Memory

/-- The byte at an index of a buffer, which may lie behind its end. -/
def bytesAt (buffer : List UInt8) (beyond : ℕ → UInt8) (i : ℕ) : UInt8 :=
  (buffer[i]?).getD (beyond (i - buffer.length))

/-- `n` bytes from an index on. -/
def slice (mem : ℕ → UInt8) (i n : ℕ) : List UInt8 := (List.range n).map fun k => mem (i + k)

@[simp] theorem length_slice (mem : ℕ → UInt8) (i n : ℕ) : (slice mem i n).length = n := by
  simp [slice]

theorem slice_bytesAt {buffer : List UInt8} {i n : ℕ} (beyond : ℕ → UInt8)
    (h : i + n ≤ buffer.length) :
    slice (bytesAt buffer beyond) i n = (buffer.drop i).take n := by
  refine List.ext_getElem (by simp; omega) fun k hk _ => ?_
  have hi : i + k < buffer.length := by rw [length_slice] at hk; omega
  simp [slice, bytesAt, hi]

/-- The buffer after the bytes `bs` were copied to index `i`, as far as they lie inside it. -/
def overwrite : List UInt8 → ℕ → List UInt8 → List UInt8
  | buffer, _, [] => buffer
  | buffer, i, b :: bs => overwrite (buffer.set i b) (i + 1) bs

@[simp] theorem length_overwrite (buffer : List UInt8) (i : ℕ) (bs : List UInt8) :
    (overwrite buffer i bs).length = buffer.length := by
  induction bs generalizing buffer i with
  | nil => rfl
  | cons b bs ih => rw [overwrite, ih, List.length_set]

theorem take_set_succ {buffer : List UInt8} {i : ℕ} (b : UInt8) (h : i < buffer.length) :
    (buffer.set i b).take (i + 1) = buffer.take i ++ [b] := by
  have hset : (buffer.set i b)[i]? = some b := List.getElem?_set_self h
  rw [List.take_add_one, hset, List.take_set_of_le le_rfl]
  rfl

theorem take_overwrite {buffer : List UInt8} {i : ℕ} (bs : List UInt8)
    (h : i + bs.length ≤ buffer.length) :
    (overwrite buffer i bs).take (i + bs.length) = buffer.take i ++ bs := by
  induction bs generalizing buffer i with
  | nil => rw [overwrite, List.length_nil, Nat.add_zero, List.append_nil]
  | cons b bs ih =>
    rw [List.length_cons] at h ⊢
    rw [overwrite, show i + (bs.length + 1) = i + 1 + bs.length by omega,
      ih (by rw [List.length_set]; omega), take_set_succ b (by omega), List.append_assoc]
    rfl

/-- A range of bytes that a program reads or writes. -/
structure Access where
  /-- The index of the first byte. -/
  index : ℕ
  /-- How many bytes are touched. -/
  count : ℕ
deriving DecidableEq, Repr

/-- The range lies inside a buffer of that size. -/
def Access.Inside (size : ℕ) (a : Access) : Prop := a.index + a.count ≤ size

instance (size : ℕ) (a : Access) : Decidable (a.Inside size) :=
  inferInstanceAs (Decidable (_ ≤ _))

/-- An `unsigned` offset into a buffer, and the ranges that were touched so far. -/
structure Cursor where
  /-- The offset, which wraps around. -/
  offset : UInt32
  /-- The ranges, the first one first. -/
  trace : List Access

namespace Cursor

/-- `offset += n` -/
def skip (c : Cursor) (n : ℕ) : Cursor := { c with offset := c.offset + .ofNat n }

/-- Touch `n` bytes, `k` bytes behind the offset. -/
def touch (c : Cursor) (k n : ℕ) : Cursor :=
  { c with trace := c.trace ++ [⟨(c.offset + .ofNat k).toNat, n⟩] }

/-- The `n` bytes that lie `k` bytes behind the offset. -/
def bytes (mem : ℕ → UInt8) (c : Cursor) (k n : ℕ) : List UInt8 :=
  slice mem (c.offset + .ofNat k).toNat n

/-- Copy the next `n` bytes and move behind them. -/
def read (mem : ℕ → UInt8) (c : Cursor) (n : ℕ) : List UInt8 × Cursor :=
  (c.bytes mem 0 n, (c.touch 0 n).skip n)

/-- Every range touched so far lies inside a buffer of that size. -/
def Inside (size : ℕ) (c : Cursor) : Prop := ∀ a ∈ c.trace, a.Inside size

variable {size : ℕ} {c : Cursor}

@[simp] theorem offset_skip (c : Cursor) (n : ℕ) : (c.skip n).offset = c.offset + .ofNat n := rfl

@[simp] theorem trace_skip (c : Cursor) (n : ℕ) : (c.skip n).trace = c.trace := rfl

@[simp] theorem offset_touch (c : Cursor) (k n : ℕ) : (c.touch k n).offset = c.offset := rfl

theorem inside_nil {o : UInt32} : (⟨o, []⟩ : Cursor).Inside size := by simp [Inside]

@[simp] theorem inside_skip {n : ℕ} : (c.skip n).Inside size ↔ c.Inside size := Iff.rfl

theorem inside_concat {a : Access} :
    Inside size { c with trace := c.trace ++ [a] } ↔ c.Inside size ∧ a.Inside size := by
  simp only [Inside, List.mem_append, List.mem_singleton, or_imp, forall_and, forall_eq]

@[simp] theorem inside_touch {k n : ℕ} :
    (c.touch k n).Inside size ↔ c.Inside size ∧ (c.offset + .ofNat k).toNat + n ≤ size :=
  inside_concat

theorem toNat_add {o : UInt32} {k : ℕ} (h : o.toNat + k < 2 ^ 32) :
    (o + .ofNat k).toNat = o.toNat + k := by
  rw [UInt32.toNat_add, UInt32.toNat_ofNat', Nat.add_mod_mod, Nat.mod_eq_of_lt h]

/-- A copy of the next bytes stays inside where they end inside the buffer. -/
theorem inside_read {mem : ℕ → UInt8} {n : ℕ} :
    (c.read mem n).2.Inside size ↔ c.Inside size ∧ c.offset.toNat + n ≤ size := by
  simp [read]

/-- Reading ahead is the same as reading after a move. -/
theorem read_skip (mem : ℕ → UInt8) (c : Cursor) (k n : ℕ) :
    ((c.skip k).read mem n).1 = c.bytes mem k n :=
  congrArg (fun o : UInt32 => slice mem o.toNat n) (UInt32.add_zero _)

theorem toNat_offset_read (mem : ℕ → UInt8) {o : ℕ} (n : ℕ) (hc : c.offset.toNat = o)
    (h : o + n < 2 ^ 32) : (c.read mem n).2.offset.toNat = o + n := by
  rw [← hc] at h ⊢
  exact toNat_add h

end Cursor

/-- A buffer that is filled from its beginning. -/
structure Output where
  /-- The bytes of the buffer, written or not. -/
  buffer : List UInt8
  /-- The offset of the next byte, and the ranges that were touched. -/
  cursor : Cursor

namespace Output

/-- `buffer[offset] = b`, and move behind it. -/
def put (o : Output) (b : UInt8) : Output :=
  ⟨o.buffer.set o.cursor.offset.toNat b, (o.cursor.touch 0 1).skip 1⟩

/-- `memcpy(&buffer[offset], bs, n); offset += n` -/
def copy (o : Output) (bs : List UInt8) : Output :=
  ⟨overwrite o.buffer o.cursor.offset.toNat bs, (o.cursor.touch 0 bs.length).skip bs.length⟩

/-- Change the last byte: `buffer[offset - 1] = f(buffer[offset - 1])`. -/
def amend (o : Output) (f : UInt8 → UInt8) : Output :=
  let last := (o.cursor.offset - 1).toNat
  ⟨o.buffer.modify last f, { o.cursor with trace := o.cursor.trace ++ [⟨last, 1⟩] }⟩

/-- The bytes in front of the offset. -/
def written (o : Output) : List UInt8 := o.buffer.take o.cursor.offset.toNat

/-- Every range that was touched lies inside the buffer. -/
def Inside (o : Output) : Prop := o.cursor.Inside o.buffer.length

variable {o : Output} {b : UInt8} {f : UInt8 → UInt8}

@[simp] theorem length_put : (o.put b).buffer.length = o.buffer.length := List.length_set

@[simp] theorem length_copy (bs : List UInt8) : (o.copy bs).buffer.length = o.buffer.length :=
  length_overwrite ..

@[simp] theorem length_amend : (o.amend f).buffer.length = o.buffer.length :=
  List.length_modify ..

@[simp] theorem offset_put : (o.put b).cursor.offset = o.cursor.offset + 1 := rfl

@[simp] theorem offset_amend : (o.amend f).cursor.offset = o.cursor.offset := rfl

@[simp] theorem inside_put :
    (o.put b).Inside ↔ o.Inside ∧ o.cursor.offset.toNat < o.buffer.length := by
  have h₀ : o.cursor.offset + .ofNat 0 = o.cursor.offset := UInt32.add_zero _
  rw [Inside, length_put, put, Cursor.inside_skip, Cursor.inside_touch, h₀, Nat.lt_iff_add_one_le]
  rfl

@[simp] theorem inside_amend :
    (o.amend f).Inside ↔ o.Inside ∧ (o.cursor.offset - 1).toNat < o.buffer.length := by
  rw [Inside, length_amend]
  exact Cursor.inside_concat

theorem toNat_offset_put (h : o.cursor.offset.toNat < o.buffer.length)
    (hs : o.buffer.length < 2 ^ 32) :
    (o.put b).cursor.offset.toNat = o.cursor.offset.toNat + 1 := by
  have hlt : o.cursor.offset.toNat + 1 < 2 ^ 32 := by omega
  exact Cursor.toNat_add hlt

theorem written_put (h : o.cursor.offset.toNat < o.buffer.length)
    (hs : o.buffer.length < 2 ^ 32) : (o.put b).written = o.written ++ [b] := by
  rw [written, toNat_offset_put h hs, put, take_set_succ b h]
  rfl

theorem modify_set (l : List UInt8) (i : ℕ) (b : UInt8) (f : UInt8 → UInt8) :
    (l.set i b).modify i f = l.set i (f b) := by
  refine List.ext_getElem (by simp) fun k hk _ => ?_
  rw [List.getElem_modify, List.getElem_set, List.getElem_set]
  split_ifs <;> rfl

/-- From `o` to `o'` the bytes `bs` were appended to what had been written. -/
structure Appends (o : Output) (bs : List UInt8) (o' : Output) : Prop where
  written : o'.written = o.written ++ bs
  offset : o'.cursor.offset.toNat = o.cursor.offset.toNat + bs.length
  length : o'.buffer.length = o.buffer.length

theorem Appends.refl (o : Output) : o.Appends [] o := ⟨(List.append_nil _).symm, rfl, rfl⟩

theorem Appends.trans {o₁ o₂ o₃ : Output} {bs cs : List UInt8} (h : o₁.Appends bs o₂)
    (h' : o₂.Appends cs o₃) : o₁.Appends (bs ++ cs) o₃ where
  written := by rw [h'.written, h.written, List.append_assoc]
  offset := by rw [h'.offset, h.offset, List.length_append, Nat.add_assoc]
  length := h'.length.trans h.length

/-- One more copy, as long as there is room for it. -/
theorem Appends.copy {o' : Output} {bs : List UInt8} (h : o.Appends bs o') (cs : List UInt8)
    (hroom : o.cursor.offset.toNat + (bs ++ cs).length ≤ o.buffer.length)
    (hs : o.buffer.length < 2 ^ 32) : o.Appends (bs ++ cs) (o'.copy cs) := by
  rw [List.length_append, ← Nat.add_assoc, ← h.offset] at hroom
  have hlt : o'.cursor.offset.toNat + cs.length < 2 ^ 32 := Nat.lt_of_le_of_lt hroom hs
  have hnext : (o'.copy cs).cursor.offset.toNat = o'.cursor.offset.toNat + cs.length :=
    Cursor.toNat_add hlt
  refine h.trans ⟨?_, hnext, length_copy cs⟩
  rw [Output.written, hnext]
  exact take_overwrite cs (h.length ▸ hroom)

/-- Changing the last byte is the same as writing the changed byte. -/
theorem buffer_amend_put : ((o.put b).amend f).buffer = (o.put (f b)).buffer := by
  have hlast : ((o.put b).cursor.offset - 1).toNat = o.cursor.offset.toNat := by
    rw [offset_put, UInt32.add_sub_cancel]
  calc ((o.put b).amend f).buffer
      = (o.put b).buffer.modify ((o.put b).cursor.offset - 1).toNat f := rfl
    _ = (o.put b).buffer.modify o.cursor.offset.toNat f := by rw [hlast]
    _ = (o.put (f b)).buffer := modify_set ..

theorem written_amend_put : ((o.put b).amend f).written = (o.put (f b)).written := by
  rw [written, written, buffer_amend_put]
  rfl

/-- Bytes that are written one after the other. -/
theorem written_foldl_put (l : List UInt8)
    (h : o.cursor.offset.toNat + l.length ≤ o.buffer.length) (hs : o.buffer.length < 2 ^ 32) :
    (l.foldl put o).written = o.written ++ l := by
  induction l generalizing o with
  | nil => rw [List.foldl_nil, List.append_nil]
  | cons b l ih =>
    rw [List.length_cons] at h
    have hlt : o.cursor.offset.toNat < o.buffer.length := by omega
    rw [List.foldl_cons, ih (by rw [toNat_offset_put hlt hs, length_put]; omega)
      (by rwa [length_put]), written_put hlt hs, List.append_assoc]
    rfl

end Output

end Memory
