import Mathlib.Algebra.Ring.Nat
import Mathlib.Tactic.Common
import MbmsTx.Common.ByteBuffer

/-!
# AMD PDU headers

The header of an acknowledged-mode data PDU: framing info, sequence number, the fields of a PDU
segment (`rf`, `lsf`, `so`) and the length indicators, one for each of the SDU parts in the data
field but the last.
-/

namespace MbmsTx.Rlc.Am

/-- `RLC_AM_WINDOW_SIZE`. -/
def windowSize : ℕ := 512

instance : NeZero windowSize := ⟨by decide⟩

/-- `MOD`: sequence numbers count modulo 1024. -/
def snMod : ℕ := 1024

/-- Subtraction of two `uint32_t` values. -/
def sub32 (a b : ℕ) : ℕ := (2 ^ 32 + a - b) % 2 ^ 32

theorem sub32_of_le {a b : ℕ} (hba : b ≤ a) (ha : a < 2 ^ 32) : sub32 a b = a - b := by
  unfold sub32
  omega

/-- `get_tailroom` of a buffer with `nBytes` bytes. -/
def tailroom (nBytes : ℕ) : ℕ := maxBufferSizeBytes - bufferHeaderOffset - nBytes

/-- `rlc_fi_field_t`: a flag for each end of the data field. -/
structure Fi where
  notStart : Bool
  notEnd : Bool
deriving DecidableEq

namespace Fi

/-- `RLC_FI_FIELD_START_AND_END_ALIGNED`, the value 0. -/
def startAndEndAligned : Fi := ⟨false, false⟩

/-- `RLC_FI_FIELD_NOT_END_ALIGNED`, the value 1. -/
def notEndAligned : Fi := ⟨false, true⟩

/-- `RLC_FI_FIELD_NOT_START_ALIGNED`, the value 2. -/
def notStartAligned : Fi := ⟨true, false⟩

/-- `RLC_FI_FIELD_NOT_START_OR_END_ALIGNED`, the value 3. -/
def notStartOrEndAligned : Fi := ⟨true, true⟩

instance : AndOp Fi := ⟨fun a b => ⟨a.notStart && b.notStart, a.notEnd && b.notEnd⟩⟩

instance : OrOp Fi := ⟨fun a b => ⟨a.notStart || b.notStart, a.notEnd || b.notEnd⟩⟩

/-- `rlc_am_start_aligned`. -/
def startAligned (fi : Fi) : Bool := fi == startAndEndAligned || fi == notEndAligned

/-- `rlc_am_end_aligned`. -/
def endAligned (fi : Fi) : Bool := fi == startAndEndAligned || fi == notStartAligned

theorem startAligned_eq (fi : Fi) : fi.startAligned = !fi.notStart := by
  rcases fi with ⟨_ | _, _ | _⟩ <;> rfl

theorem endAligned_eq (fi : Fi) : fi.endAligned = !fi.notEnd := by
  rcases fi with ⟨_ | _, _ | _⟩ <;> rfl

@[simp] theorem and_notEndAligned (fi : Fi) : fi &&& notEndAligned = ⟨false, fi.notEnd⟩ := by
  rcases fi with ⟨_ | _, _ | _⟩ <;> rfl

@[simp] theorem and_notStartAligned (fi : Fi) : fi &&& notStartAligned = ⟨fi.notStart, false⟩ := by
  rcases fi with ⟨_ | _, _ | _⟩ <;> rfl

end Fi

/-- `rlc_amd_pdu_header_t` of a data PDU. The array `li` is cut to `N_li` entries. -/
structure AmdHeader where
  rf : Bool := false
  p : Bool := false
  fi : Fi := Fi.startAndEndAligned
  sn : ℕ := 0
  lsf : Bool := false
  so : ℕ := 0
  li : List ℕ := []
deriving DecidableEq

/-- A data PDU or a segment: its header and its data field. -/
abbrev AmdPdu := AmdHeader × List UInt8

/-- The packed length of a header with `nLi` length indicators of twelve bits each, rounded up to
bytes. -/
def packedLengthOf (rf : Bool) (nLi : ℕ) : ℕ :=
  2 + (if rf then 2 else 0) + (3 * nLi + 1) / 2

/-- `rlc_am_packed_length`. -/
def AmdHeader.packedLength (header : AmdHeader) : ℕ :=
  packedLengthOf header.rf header.li.length

end MbmsTx.Rlc.Am
