import MegaTree.Core.Basic
import Mathlib.Data.List.Flatten
import Mathlib.Tactic.IntervalCases

/-!
# Framing of the streaming server

`ClientHandler` sends a message as four bytes of header and the body, and reads a stream of such
frames back.  The header is packed and unpacked with shifts by 1, 2 and 3 bits.

* `unpackHeader_packHeader_iff` : which lengths survive that.
* `readerThread_frames` : the frames of a list of messages are read back as that list exactly when
  every message has one of the two sizes with such a length.
-/

namespace MegaTree

/-- `Message` -/
abbrev Message := List UInt8

/-! ### The two threads -/

/-- The header of `writerThread`. -/
def packHeader (len : UInt32) : ByteVec :=
  [(len &&& 0xff).toUInt8, ((len >>> 1) &&& 0xff).toUInt8, ((len >>> 2) &&& 0xff).toUInt8,
    ((len >>> 3) &&& 0xff).toUInt8]

/-- What `writerThread` sends for a message. -/
def writeFrame (message : Message) : ByteVec := packHeader (.ofNat (message.length + 4)) ++ message

/-- `message_len` in `readerThread`. -/
def unpackHeader (header : ByteVec) : UInt32 :=
  (header.getD 0 0).toUInt32 + (header.getD 1 0).toUInt32 <<< 1 +
    (header.getD 2 0).toUInt32 <<< 2 + (header.getD 3 0).toUInt32 <<< 3

/-- `boost::asio::read` of `k` bytes: the bytes and what is left of the stream, or `none` where the
stream ends before. -/
def readExactly (k : ℕ) (stream : ByteVec) : Option (ByteVec × ByteVec) :=
  if k ≤ stream.length then some (stream.take k, stream.drop k) else none

/-- One round of `readerThread`; a read that fails is the end of the thread. -/
def readFrame (stream : ByteVec) : Option (Message × ByteVec) := do
  let (header, stream) ← readExactly 4 stream
  readExactly (unpackHeader header - 4).toNat stream

/-- At most `fuel` rounds of `readerThread`: the messages in `incoming_queue`, and what is left of the
stream. -/
def readFrames : ℕ → ByteVec → List Message × ByteVec
  | 0, stream => ([], stream)
  | fuel + 1, stream =>
    match readFrame stream with
    | some (message, rest) => ((message :: (readFrames fuel rest).1), (readFrames fuel rest).2)
    | none => ([], stream)

/-- `readerThread()`.  Every round takes a header off the stream, so there is no need for more rounds
than the stream has bytes. -/
def readerThread (stream : ByteVec) : List Message × ByteVec := readFrames stream.length stream

/-! ### The header -/

theorem length_packHeader (len : UInt32) : (packHeader len).length = 4 := rfl

/-- The header holds twelve bits of the length at most. -/
theorem unpackHeader_lt (header : ByteVec) : (unpackHeader header).toNat < 4096 := by
  have hb : ∀ b : UInt8, b.toUInt32.toNat = b.toNat ∧ b.toNat < 256 := fun b => ⟨rfl, b.toNat_lt⟩
  have h₀ := hb (header.getD 0 0)
  have h₁ := hb (header.getD 1 0)
  have h₂ := hb (header.getD 2 0)
  have h₃ := hb (header.getD 3 0)
  simp only [unpackHeader, UInt32.toNat_add, UInt32.toNat_shiftLeft, Nat.shiftLeft_eq,
    UInt32.reduceToNat, Nat.reduceMod, Nat.reducePow, h₀, h₁, h₂, h₃]
  omega

theorem toNat_low_byte (n : UInt32) : (n &&& 0xff).toUInt8.toUInt32.toNat = n.toNat % 256 := by
  rw [UInt8.toNat_toUInt32, UInt32.toNat_toUInt8, UInt32.toNat_and]
  exact (congrArg (· % 256) (Nat.and_two_pow_sub_one_eq_mod n.toNat 8)).trans (Nat.mod_mod _ _)

/-- The bytes of the header overlap. -/
theorem toNat_unpackHeader_packHeader (len : UInt32) :
    (unpackHeader (packHeader len)).toNat =
      len.toNat % 256 + len.toNat / 2 % 256 * 2 + len.toNat / 4 % 256 * 4 +
        len.toNat / 8 % 256 * 8 := by
  have hlt (n : ℕ) : n % 256 < 256 := Nat.mod_lt _ (by decide)
  have h₀ := hlt len.toNat
  have h₁ := hlt (len.toNat / 2)
  have h₂ := hlt (len.toNat / 4)
  have h₃ := hlt (len.toNat / 8)
  simp only [unpackHeader, packHeader, List.getD_cons_zero, List.getD_cons_succ, UInt32.toNat_add,
    UInt32.toNat_shiftLeft, toNat_low_byte, UInt32.toNat_shiftRight, UInt32.reduceToNat,
    Nat.reduceMod, Nat.shiftLeft_eq, Nat.shiftRight_eq_div_pow, Nat.reducePow]
  generalize len.toNat % 256 = b₀ at *
  generalize len.toNat / 2 % 256 = b₁ at *
  generalize len.toNat / 4 % 256 = b₂ at *
  generalize len.toNat / 8 % 256 = b₃ at *
  omega

/-- The numbers of twelve bits that are the sum of these bytes. -/
theorem sum_bytes_eq {a b : ℕ} (ha : a < 16) (hb : b < 256)
    (h : (256 * a + b) % 256 + (256 * a + b) / 2 % 256 * 2 + (256 * a + b) / 4 % 256 * 4 +
      (256 * a + b) / 8 % 256 * 8 = 256 * a + b) :
    256 * a + b = 0 ∨ 256 * a + b = 1 ∨ 256 * a + b = 1024 ∨ 256 * a + b = 1025 := by
  have h₀ : (256 * a + b) % 256 = b := by omega
  have h₁ : (256 * a + b) / 2 % 256 = 128 * (a % 2) + b / 2 := by omega
  have h₂ : (256 * a + b) / 4 % 256 = 64 * (a % 4) + b / 4 := by omega
  have h₃ : (256 * a + b) / 8 % 256 = 32 * (a % 8) + b / 8 := by omega
  rw [h₀, h₁, h₂, h₃] at h
  interval_cases a <;> omega

/-- The only lengths that survive the header. -/
theorem unpackHeader_packHeader_iff (len : UInt32) :
    unpackHeader (packHeader len) = len ↔
      len.toNat = 0 ∨ len.toNat = 1 ∨ len.toNat = 1024 ∨ len.toNat = 1025 := by
  constructor
  · intro h
    have hlt := unpackHeader_lt (packHeader len)
    have hsum := toNat_unpackHeader_packHeader len
    rw [h] at hlt hsum
    have hlen : 256 * (len.toNat / 256) + len.toNat % 256 = len.toNat := Nat.div_add_mod _ _
    rw [← hlen]
    refine sum_bytes_eq (by omega) (Nat.mod_lt _ (by decide)) ?_
    rw [hlen]
    exact hsum.symm
  · intro h
    rw [← UInt32.ofNat_toNat (x := len)]
    rcases h with h | h | h | h <;> rw [h] <;> decide

/-- The size of a message whose length survives the header. -/
def FitsHeader (message : Message) : Prop := message.length = 1020 ∨ message.length = 1021

theorem unpackHeader_eq_iff {message : Message} (h : message.length < 2 ^ 32 - 4) :
    (unpackHeader (packHeader (.ofNat (message.length + 4)))).toNat = message.length + 4 ↔
      FitsHeader message := by
  have hlen : (UInt32.ofNat (message.length + 4)).toNat = message.length + 4 := by
    rw [UInt32.toNat_ofNat', Nat.mod_eq_of_lt (by omega)]
  have hiff := unpackHeader_packHeader_iff (.ofNat (message.length + 4))
  rw [← UInt32.toNat_inj, hlen] at hiff
  rw [hiff, FitsHeader]
  omega

/-! ### The stream -/

theorem readExactly_append (bytes rest : ByteVec) :
    readExactly bytes.length (bytes ++ rest) = some (bytes, rest) := by
  rw [readExactly, if_pos (by simp), List.take_left, List.drop_left]

/-- What is read has the length that was asked for. -/
theorem length_of_readExactly {k : ℕ} {stream bytes rest : ByteVec}
    (h : readExactly k stream = some (bytes, rest)) :
    bytes.length = k ∧ stream = bytes ++ rest := by
  unfold readExactly at h
  split_ifs at h with hk
  obtain ⟨rfl, rfl⟩ := Prod.mk.inj (Option.some.inj h)
  exact ⟨List.length_take_of_le hk, (List.take_append_drop k stream).symm⟩

theorem readFrame_writeFrame (message : Message) (rest : ByteVec) :
    readFrame (writeFrame message ++ rest) =
      readExactly (unpackHeader (packHeader (.ofNat (message.length + 4))) - 4).toNat
        (message ++ rest) := by
  have h := readExactly_append (packHeader (.ofNat (message.length + 4))) (message ++ rest)
  rw [length_packHeader] at h
  rw [readFrame, writeFrame, List.append_assoc, h]
  rfl

/-- A frame is read back exactly when its length survives the header. -/
theorem readFrame_eq_iff {message : Message} (h : message.length < 2 ^ 32 - 4) (rest : ByteVec) :
    readFrame (writeFrame message ++ rest) = some (message, rest) ↔ FitsHeader message := by
  rw [readFrame_writeFrame, ← unpackHeader_eq_iff h]
  set len := unpackHeader (packHeader (.ofNat (message.length + 4))) with hlen
  constructor
  · intro hread
    have := (length_of_readExactly hread).1
    rw [UInt32.toNat_sub] at this
    have := unpackHeader_lt (packHeader (.ofNat (message.length + 4)))
    rw [← hlen] at this
    simp only [UInt32.reduceToNat] at *
    omega
  · intro he
    have hsub : (len - 4).toNat = message.length := by
      rw [UInt32.toNat_sub, he]
      simp only [UInt32.reduceToNat]
      omega
    rw [hsub, readExactly_append]

/-- When the right message is read, the stream behind it is the right one too. -/
theorem rest_of_readFrame {message : Message} {rest rest' : ByteVec}
    (h : readFrame (writeFrame message ++ rest) = some (message, rest')) : rest' = rest := by
  rw [readFrame_writeFrame] at h
  exact (List.append_cancel_left (length_of_readExactly h).2).symm

/-- A frame that is read back leaves the stream at the next frame, so the list is read back message
by message. -/
theorem readFrames_frames {messages : List Message} (h : ∀ m ∈ messages, m.length < 2 ^ 32 - 4)
    {fuel : ℕ} (hf : messages.length ≤ fuel) :
    readFrames fuel (messages.flatMap writeFrame) = (messages, []) ↔
      ∀ m ∈ messages, FitsHeader m := by
  induction messages generalizing fuel with
  | nil => cases fuel <;> simp [readFrames, readFrame, readExactly]
  | cons message messages ih =>
    obtain ⟨fuel, rfl⟩ := Nat.exists_eq_succ_of_ne_zero (Nat.ne_zero_of_lt hf)
    have hframe := readFrame_eq_iff (h message List.mem_cons_self) (messages.flatMap writeFrame)
    have hrest := ih (fun m hm => h m (List.mem_cons_of_mem _ hm)) (Nat.le_of_succ_le_succ hf)
    rw [List.flatMap_cons, List.forall_mem_cons, ← hrest, ← hframe]
    constructor
    · intro hread
      rw [readFrames] at hread
      cases hfirst : readFrame (writeFrame message ++ messages.flatMap writeFrame) with
      | none => simp [hfirst] at hread
      | some first =>
        obtain ⟨message', rest'⟩ := first
        simp only [hfirst, Prod.mk.injEq, List.cons.injEq] at hread
        obtain ⟨⟨rfl, hfst⟩, hsnd⟩ := hread
        obtain rfl := rest_of_readFrame hfirst
        exact ⟨rfl, Prod.ext hfst hsnd⟩
    · rintro ⟨hfirst, hread⟩
      rw [readFrames, hfirst]
      simp only [hread]

theorem length_le_frames (messages : List Message) :
    messages.length ≤ (messages.flatMap writeFrame).length := by
  induction messages with
  | nil => exact Nat.le_refl 0
  | cons message messages ih =>
    simp only [List.flatMap_cons, List.length_append, List.length_cons, writeFrame,
      length_packHeader]
    omega

/-- The frames of a list of messages are read back as that list, with every length in a header the
size of its message and the header, exactly when each message has a size that survives the header. -/
theorem readerThread_frames (messages : List Message)
    (h : ∀ m ∈ messages, m.length < 2 ^ 32 - 4) :
    (readerThread (messages.flatMap writeFrame) = (messages, []) ∧
      ∀ m ∈ messages,
        (unpackHeader (packHeader (.ofNat (m.length + 4)))).toNat = m.length + 4) ↔
      ∀ m ∈ messages, m.length = 1020 ∨ m.length = 1021 := by
  rw [readerThread, readFrames_frames h (length_le_frames messages)]
  constructor
  · rintro ⟨hfits, -⟩
    exact hfits
  · intro hfits
    exact ⟨hfits, fun m hm => (unpackHeader_eq_iff (h m hm)).mpr (hfits m hm)⟩

theorem readerThread_frames_two :
    readerThread ([List.replicate 1020 7, List.replicate 1021 9].flatMap writeFrame) =
        ([List.replicate 1020 7, List.replicate 1021 9], []) ∧
      ∀ m ∈ [List.replicate 1020 (7 : UInt8), List.replicate 1021 9],
        (unpackHeader (packHeader (.ofNat (m.length + 4)))).toNat = m.length + 4 := by
  have hlen : ∀ m ∈ [List.replicate 1020 (7 : UInt8), List.replicate 1021 9],
      m.length = 1020 ∨ m.length = 1021 := by
    simp only [List.mem_cons, List.not_mem_nil, or_false, forall_eq_or_imp, forall_eq,
      List.length_replicate, true_or, or_true, and_self]
  exact (readerThread_frames _ fun m hm => by have := hlen m hm; omega).mpr hlen

theorem not_readerThread_frames :
    ¬ ∀ messages : List Message, (∀ m ∈ messages, m.length < 2 ^ 32 - 4) →
      readerThread (messages.flatMap writeFrame) = (messages, []) := by
  intro h
  exact absurd (h [[], [1, 2, 3, 4]] (by decide)) (by decide +kernel)

end MegaTree
