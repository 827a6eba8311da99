import Mathlib.Algebra.Ring.Nat
import Mathlib.Data.List.GetD
import MbmsTx.Lib.Memory

/-!
# Byte buffers

The buffer that carries a packet through the layers: a fixed array, a pointer to the start of the
message, and the length of the message. Layers remove a header by advancing the pointer and
subtracting from the unsigned length, so the bytes around the message are part of the model.
-/

namespace MbmsTx

/-- `SRSRAN_BUFFER_HEADER_OFFSET`. -/
def bufferHeaderOffset : ℕ := 1020

/-- `SRSRAN_MAX_BUFFER_SIZE_BYTES`. -/
def maxBufferSizeBytes : ℕ := 97896 / 8 + bufferHeaderOffset

/-- `byte_buffer_t`. The pointer `msg` is an index of the array. -/
structure ByteBuffer where
  buffer : ℕ → UInt8
  msg : ℕ
  nBytes : ℕ

namespace ByteBuffer

/-- The byte at offset `i` of the message pointer. -/
def byte (pdu : ByteBuffer) (i : ℕ) : UInt8 := pdu.buffer (pdu.msg + i)

/-- The message: `nBytes` bytes from the message pointer on. -/
def contents (pdu : ByteBuffer) : List UInt8 :=
  (List.range pdu.nBytes).map pdu.byte

/-- Advance the message pointer by `n` bytes; the length wraps at 32 bits. -/
def skip (pdu : ByteBuffer) (n : ℕ) : ByteBuffer :=
  { pdu with
      msg := pdu.msg + n
      nBytes := (pdu.nBytes + 2 ^ 32 - n) % 2 ^ 32 }

/-- `get_headroom`. -/
def headroom (pdu : ByteBuffer) : ℕ := pdu.msg

/-- `get_tailroom`: the bytes of the array behind the message. -/
def tailroom (pdu : ByteBuffer) : ℕ :=
  (maxBufferSizeBytes + 2 ^ 32 - pdu.msg - pdu.nBytes) % 2 ^ 32

/-- Write bytes to the array, from index `start` on. -/
def write (pdu : ByteBuffer) (start : ℕ) (bytes : List UInt8) : ByteBuffer :=
  { pdu with
      buffer := fun i =>
        if start ≤ i ∧ i < start + bytes.length then bytes.getD (i - start) 0 else pdu.buffer i }

/-- Move the message pointer back, for `n` bytes of header. -/
def rewind (pdu : ByteBuffer) (n : ℕ) : ByteBuffer :=
  { pdu with
      msg := pdu.msg - n
      nBytes := pdu.nBytes + n }

/-- Extend the message by bytes written behind it. -/
def append (pdu : ByteBuffer) (bytes : List UInt8) : ByteBuffer :=
  { pdu.write (pdu.msg + pdu.nBytes) bytes with nBytes := pdu.nBytes + bytes.length }

/-- `clear`: an empty message, over whatever the array holds. -/
def clear (pdu : ByteBuffer) : ByteBuffer :=
  { pdu with
      msg := bufferHeaderOffset
      nBytes := 0 }

/-- `get_tailroom` of an empty buffer: what a socket read may fill. -/
def emptyTailroom : ℕ := maxBufferSizeBytes - bufferHeaderOffset

/-- A buffer into which a socket has put `received`; `stale` is what the array held before. -/
def ofReceived (stale : ℕ → UInt8) (received : List UInt8) : ByteBuffer :=
  { buffer := fun i =>
      if i < bufferHeaderOffset then stale i
      else received.getD (i - bufferHeaderOffset) (stale i)
    msg := bufferHeaderOffset
    nBytes := received.length }

variable (pdu : ByteBuffer) (start : ℕ) (bytes : List UInt8)

@[simp] theorem write_msg : (pdu.write start bytes).msg = pdu.msg := rfl

@[simp] theorem write_nBytes : (pdu.write start bytes).nBytes = pdu.nBytes := rfl

@[simp] theorem write_tailroom : (pdu.write start bytes).tailroom = pdu.tailroom := rfl

@[simp] theorem rewind_nBytes (n : ℕ) : (pdu.rewind n).nBytes = pdu.nBytes + n := rfl

@[simp] theorem append_msg : (pdu.append bytes).msg = pdu.msg := rfl

@[simp] theorem append_nBytes : (pdu.append bytes).nBytes = pdu.nBytes + bytes.length := rfl

variable {n : ℕ}

theorem rewind_tailroom (hn : n ≤ pdu.msg) : (pdu.rewind n).tailroom = pdu.tailroom := by
  have hsum : pdu.msg - n + (pdu.nBytes + n) = pdu.msg + pdu.nBytes := by omega
  simp only [tailroom, rewind, Nat.sub_sub, hsum]

theorem tailroom_eq {pdu : ByteBuffer} (hmsg : pdu.msg = bufferHeaderOffset)
    (hbytes : pdu.nBytes ≤ emptyTailroom) : pdu.tailroom = emptyTailroom - pdu.nBytes := by
  have hempty : emptyTailroom = 12237 := rfl
  have hoff : bufferHeaderOffset = 1020 := rfl
  have hmax : maxBufferSizeBytes = 13257 := rfl
  rw [tailroom, hmsg, hempty, hoff, hmax]
  omega

@[simp] theorem length_contents : pdu.contents.length = pdu.nBytes := by
  simp [contents]

@[simp] theorem byte_skip (n i : ℕ) : (pdu.skip n).byte i = pdu.byte (n + i) := by
  simp [byte, skip, add_assoc]

variable (stale : ℕ → UInt8)

@[simp] theorem ofReceived_nBytes (received : List UInt8) :
    (ofReceived stale received).nBytes = received.length := rfl

theorem byte_ofReceived {received : List UInt8} {i : ℕ}
    (hi : i < received.length) : (ofReceived stale received).byte i = received.getD i 0 := by
  have hge : ¬ bufferHeaderOffset + i < bufferHeaderOffset := by omega
  simp [byte, ofReceived, hge, hi]

theorem skip_skip {m : ℕ} (hm : m ≤ 2 ^ 31) (hn : n ≤ 2 ^ 31) :
    (pdu.skip m).skip n = pdu.skip (m + n) := by
  simp [skip, add_assoc]
  omega

/-- Skipping more than the message has leaves a length just below `2 ^ 32`. -/
theorem skip_nBytes (hn : n ≤ 2 ^ 32) (hlen : pdu.nBytes < 2 ^ 32) :
    (pdu.skip n).nBytes = if n ≤ pdu.nBytes then pdu.nBytes - n else pdu.nBytes + 2 ^ 32 - n := by
  simp only [skip]
  split <;> omega

theorem contents_skip (hlen : pdu.nBytes < 2 ^ 32) (hn : n ≤ pdu.nBytes) :
    (pdu.skip n).contents = pdu.contents.drop n := by
  have hskip : (pdu.skip n).nBytes = pdu.nBytes - n := by
    rw [skip_nBytes _ (by omega) hlen, if_pos hn]
  refine List.ext_getElem (by simp [hskip]) fun i hi hi' => ?_
  simp [contents]

theorem contents_skip_ofReceived {received : List UInt8}
    (hlen : received.length < 2 ^ 32) (hn : n ≤ received.length) :
    ((ofReceived stale received).skip n).contents = received.drop n := by
  have hcontents : (ofReceived stale received).contents = received := by
    refine List.ext_getElem (by simp) fun i hi hi' => ?_
    simp [contents, byte_ofReceived stale hi', hi']
  rw [contents_skip _ hlen hn, hcontents]

/-! ## What is in a buffer -/

open MbmsTx.Memory

theorem contents_eq_slice : pdu.contents = slice pdu.buffer pdu.msg pdu.nBytes :=
  rfl

theorem holds_write : Holds (pdu.write start bytes).buffer start bytes := by
  refine List.ext_getElem (by simp) ?_
  intro i hi hi'
  simp [slice, write, hi']

theorem slice_write_of_le {start : ℕ} {bytes : List UInt8} {first len : ℕ}
    (h : first + len ≤ start ∨ start + bytes.length ≤ first) :
    slice (pdu.write start bytes).buffer first len = slice pdu.buffer first len := by
  refine slice_congr ?_
  intro i hi
  simp only [write]
  rw [if_neg (by omega)]

theorem contents_append : (pdu.append bytes).contents = pdu.contents ++ bytes := by
  have hbytes : slice (pdu.append bytes).buffer (pdu.msg + pdu.nBytes) bytes.length = bytes :=
    pdu.holds_write (pdu.msg + pdu.nBytes) bytes
  have hold : slice (pdu.append bytes).buffer pdu.msg pdu.nBytes = pdu.contents :=
    pdu.slice_write_of_le (.inl le_rfl)
  rw [contents_eq_slice, append_nBytes, append_msg, slice_add, hbytes, hold]

/-- Bytes written in front of the message, where there is room for `n`. -/
theorem contents_rewind_write {n : ℕ} {bytes : List UInt8} (hn : n ≤ pdu.msg)
    (hbytes : bytes.length ≤ n) :
    ((pdu.rewind n).write (pdu.rewind n).msg bytes).contents =
      bytes ++ slice pdu.buffer (pdu.msg - n + bytes.length) (n - bytes.length) ++
        pdu.contents := by
  have hmsg : (pdu.rewind n).msg = pdu.msg - n := rfl
  have hsplit : pdu.nBytes + n = bytes.length + (n - bytes.length) + pdu.nBytes := by omega
  have hnew := (pdu.rewind n).holds_write (pdu.msg - n) bytes
  have hgap : slice ((pdu.rewind n).write (pdu.msg - n) bytes).buffer
      (pdu.msg - n + bytes.length) (n - bytes.length) =
      slice pdu.buffer (pdu.msg - n + bytes.length) (n - bytes.length) :=
    (pdu.rewind n).slice_write_of_le (.inr le_rfl)
  have hold : slice ((pdu.rewind n).write (pdu.msg - n) bytes).buffer
      (pdu.msg - n + (bytes.length + (n - bytes.length))) pdu.nBytes = pdu.contents := by
    have hback : pdu.msg - n + (bytes.length + (n - bytes.length)) = pdu.msg := by omega
    rw [hback]
    exact (pdu.rewind n).slice_write_of_le (.inr (by omega))
  rw [contents_eq_slice, write_nBytes, rewind_nBytes, write_msg, hmsg, hsplit, slice_add, slice_add,
    hnew, hgap, hold]

end ByteBuffer

end MbmsTx
