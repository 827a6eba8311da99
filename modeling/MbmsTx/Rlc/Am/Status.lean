import MbmsTx.Lib.Bits
import MbmsTx.Rlc.Am.Header

/-!
# Status PDUs

A status PDU acknowledges the data PDUs before `ack_sn`, apart from those in its list of NACKs. It
is written bit by bit: fifteen bits always, and twelve for a NACK, or forty-two for one with a
segment offset. The number of bits is odd, so the padding of one to eight bits never adds a byte
(`length_writeStatusPdu`).
-/

namespace MbmsTx.Rlc.Am

open List Bits

/-- `rlc_status_nack_t`. -/
structure Nack where
  nackSn : ℕ
  hasSo : Bool := false
  soStart : ℕ := 0
  soEnd : ℕ := 0
deriving DecidableEq

/-- `rlc_status_pdu_t`. The array `nacks` is cut to `N_nack` entries. -/
structure StatusPdu where
  ackSn : ℕ
  nacks : List Nack
deriving DecidableEq

/-- The bits of a NACK. -/
def Nack.lenBits (nack : Nack) : ℕ := if nack.hasSo then 42 else 12

namespace StatusPdu

/-- `rlc_am_packed_length` of a status PDU. -/
def packedLength (status : StatusPdu) : ℕ := (15 + (status.nacks.map Nack.lenBits).sum + 7) / 8

/-- `rlc_am_is_valid_status_pdu`. -/
def isValid (status : StatusPdu) (rxWinMin : ℕ) : Bool :=
  !decide (windowSize < (snMod + status.ackSn - rxWinMin) % snMod) &&
    status.nacks.all fun nack =>
      !decide (windowSize < (snMod + status.ackSn - nack.nackSn) % snMod) &&
        decide (nack.nackSn ≠ status.ackSn)

/-! ## Writing -/

/-- The bits of the list of NACKs. -/
def nackBits : List Nack → List ℕ
  | [] => []
  | nack :: nacks =>
    unpack nack.nackSn 10 ++ unpack (if nacks.isEmpty then 0 else 1) 1 ++
      (if nack.hasSo then
        unpack 1 1 ++ unpack nack.soStart 15 ++ unpack nack.soEnd 15
      else unpack 0 1) ++ nackBits nacks

/-- The bits of a status PDU before the padding. -/
def bits (status : StatusPdu) : List ℕ :=
  unpack 0 1 ++ unpack 0 3 ++ unpack status.ackSn 10 ++
    unpack (if status.nacks.isEmpty then 0 else 1) 1 ++ nackBits status.nacks

end StatusPdu

/-- `srsran_bit_pack_vector`. -/
def bitPackVector (bits : List ℕ) : List UInt8 :=
  (List.range (bits.length / 8)).map fun i => UInt8.ofNat (pack ((bits.drop (8 * i)).take 8))

/-- `rlc_am_write_status_pdu`. -/
def writeStatusPdu (status : StatusPdu) : List UInt8 :=
  bitPackVector (status.bits ++ unpack 0 (8 - status.bits.length % 8))

namespace StatusPdu

theorem length_nackBits (nacks : List Nack) :
    (nackBits nacks).length = (nacks.map Nack.lenBits).sum := by
  induction nacks with
  | nil => rfl
  | cons nack nacks ih =>
    simp only [nackBits, length_append, length_unpack, ih, map_cons, sum_cons, Nack.lenBits]
    split <;> simp [length_unpack]

variable (status : StatusPdu)

theorem length_bits : status.bits.length = 15 + (status.nacks.map Nack.lenBits).sum := by
  simp only [bits, length_append, length_unpack, length_nackBits]

theorem sum_lenBits_even (nacks : List Nack) : (nacks.map Nack.lenBits).sum % 2 = 0 := by
  induction nacks with
  | nil => rfl
  | cons nack nacks ih =>
    have heven : nack.lenBits % 2 = 0 := by
      unfold Nack.lenBits
      split <;> rfl
    rw [map_cons, sum_cons]
    omega

/-- As many bytes are written as `rlc_am_packed_length` says. -/
theorem length_writeStatusPdu : (writeStatusPdu status).length = status.packedLength := by
  have heven := sum_lenBits_even status.nacks
  have hlen := length_bits status
  simp [writeStatusPdu, bitPackVector, length_unpack, packedLength]
  omega

theorem two_le_packedLength : 2 ≤ status.packedLength := by
  unfold packedLength
  omega

theorem packedLength_of_whole {status : StatusPdu} (h : ∀ nack ∈ status.nacks, nack.hasSo = false) :
    status.packedLength = (22 + 12 * status.nacks.length) / 8 := by
  have hsum : (status.nacks.map Nack.lenBits).sum = 12 * status.nacks.length := by
    have hconst : status.nacks.map Nack.lenBits = status.nacks.map fun _ => 12 :=
      map_congr_left fun nack hnack => by simp [Nack.lenBits, h nack hnack]
    rw [hconst, map_const', sum_replicate_nat, mul_comm]
  rw [packedLength, hsum]
  omega

end StatusPdu

end MbmsTx.Rlc.Am
