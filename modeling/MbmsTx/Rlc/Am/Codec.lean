import Mathlib.Data.Nat.Bitwise
import MbmsTx.Rlc.Am.Header

/-!
# Reading AMD PDU headers

The header of a data PDU as bytes: two with the flags and the sequence number, two more with the
offset of a segment, and the length indicators, two of which take three bytes. A byte string that
ends before its header, or has more length indicators than the array for them, is not a PDU.
-/

namespace MbmsTx.Rlc.Am

/-- Length indicators of eleven bits, each behind a bit that says whether another one follows. The
first of a pair starts at a byte, the second in its middle, and half a byte of padding follows an
odd one. -/
def readLis : Bool → List UInt8 → Option (List ℕ × List UInt8)
  | false, bytes => some ([], bytes)
  | true, b₀ :: b₁ :: bytes =>
    let li := (b₀.toNat &&& 0x7F) <<< 4 ||| (b₁.toNat &&& 0xF0) >>> 4
    if b₀.toNat.testBit 7 then
      match bytes with
      | [] => none
      | b₂ :: bytes =>
        let next := (b₁.toNat &&& 0x07) <<< 8 ||| b₂.toNat
        (readLis (b₁.toNat.testBit 3) bytes).map fun rest => (li :: next :: rest.1, rest.2)
    else some ([li], bytes)
  | true, _ => none

/-- The size of the array `header.li`: `RLC_AM_WINDOW_SIZE`. -/
def maxLis : ℕ := 512

/-- The extension part of a header, if its length indicators fit their array. -/
def readExtension (ext : Bool) (bytes : List UInt8) : Option (List ℕ × List UInt8) :=
  (readLis ext bytes).filter fun rest => rest.1.length ≤ maxLis

/-- `rlc_am_read_data_pdu_header` for a data PDU: the header and the payload. -/
def readDataPduHeader : List UInt8 → Option AmdPdu
  | b₀ :: b₁ :: bytes =>
    let header : AmdHeader :=
      { rf := b₀.toNat.testBit 6
        p := b₀.toNat.testBit 5
        fi := ⟨b₀.toNat.testBit 4, b₀.toNat.testBit 3⟩
        sn := (b₀.toNat &&& 0x03) <<< 8 ||| b₁.toNat }
    if !b₀.toNat.testBit 7 then none
    else if header.rf then
      match bytes with
      | b₂ :: b₃ :: bytes =>
        (readExtension (b₀.toNat.testBit 2) bytes).map fun rest =>
          ({ header with
              lsf := b₂.toNat.testBit 7
              so := (b₂.toNat &&& 0x7F) <<< 8 ||| b₃.toNat
              li := rest.1 }, rest.2)
      | _ => none
    else
      (readExtension (b₀.toNat.testBit 2) bytes).map fun rest =>
        ({ header with li := rest.1 }, rest.2)
  | _ => none

theorem readDataPduHeader_sn {bytes : List UInt8} {pdu : AmdPdu}
    (h : readDataPduHeader bytes = some pdu) : pdu.1.sn < snMod := by
  have hsn : ∀ b₀ b₁ : UInt8, (b₀.toNat &&& 0x03) <<< 8 ||| b₁.toNat < snMod := by
    intro b₀ b₁
    have hlow : (b₀.toNat &&& 0x03) < 2 ^ 2 := Nat.and_lt_two_pow _ (by decide)
    have hshift : (b₀.toNat &&& 0x03) <<< 8 < 2 ^ 10 := by
      omega
    have hbyte : b₁.toNat < 2 ^ 10 := lt_trans b₁.toNat_lt (by decide)
    exact Nat.or_lt_two_pow hshift hbyte
  unfold readDataPduHeader at h
  split at h
  · next b₀ b₁ rest =>
    dsimp only at h
    split at h
    · cases h
    split at h
    · split at h
      · obtain ⟨r, -, rfl⟩ := Option.map_eq_some_iff.mp h
        exact hsn b₀ b₁
      · cases h
    · obtain ⟨r, -, rfl⟩ := Option.map_eq_some_iff.mp h
      exact hsn b₀ b₁
  · cases h

end MbmsTx.Rlc.Am
