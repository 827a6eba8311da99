import MbmsTx.Rlc.Am.Status

/-!
# Status PDUs of the NR entity

With 12 bit sequence numbers `rlc_am_nr_write_status_pdu` writes the acknowledged SN and the first
NACK, but its last byte takes the bits 4 to 7 of the SN for the lowest four. With 18 bits it writes
the acknowledged SN alone, and `rlc_am_nr_read_status_pdu` reads nothing.
-/

namespace MbmsTx.Rlc.AmNr

open List UInt8 Nat

open MbmsTx.Rlc.Am (Nack)

inductive SnSize
  | size12bits
  | size18bits

def SnSize.bits : SnSize → ℕ
  | .size12bits => 12
  | .size18bits => 18

/-- `rlc_am_nr_status_pdu_t`. The array `nacks` is cut to `N_nack` entries. -/
structure StatusPdu where
  cpt : ℕ := 0
  ackSn : ℕ := 0
  nacks : List Nack := []

/-- The sequence numbers of the status PDU are inside the SN space. -/
def StatusPdu.InSnSpace (status : StatusPdu) (snSize : SnSize) : Prop :=
  status.ackSn < 2 ^ snSize.bits ∧ ∀ nack ∈ status.nacks, nack.nackSn < 2 ^ snSize.bits

/-- `rlc_am_nr_write_status_pdu`: the bytes of the PDU. -/
def writeStatusPdu (status : StatusPdu) : SnSize → List UInt8
  | .size12bits =>
    [.ofNat (status.ackSn >>> 8 &&& 0x0f), .ofNat (status.ackSn &&& 0xff)] ++
      match status.nacks with
      | [] => [0x00]
      | nack :: _ => [0x80, .ofNat (nack.nackSn >>> 4 &&& 0xff), .ofNat (nack.nackSn &&& 0xf0)]
  | .size18bits =>
    [.ofNat (status.ackSn >>> 14 &&& 0x0f), .ofNat (status.ackSn >>> 8),
      .ofNat (status.ackSn &&& 0xff)]

/-- `rlc_am_nr_read_status_pdu` into `status`. Bytes behind the end are read as zero. -/
def readStatusPdu (payload : List UInt8) (snSize : SnSize) (status : StatusPdu) : StatusPdu :=
  let byte (i : ℕ) : ℕ := (payload.getD i 0).toNat
  let status := { status with cpt := byte 0 >>> 4 &&& 0x07 }
  if status.cpt ≠ 0 then status
  else
    match snSize with
    | .size12bits =>
      let status := { status with ackSn := (byte 0 &&& 0x0f) <<< 8 ||| (byte 1 &&& 0xff) }
      if byte 2 &&& 0x7f ≠ 0 then status
      else if byte 2 &&& 0x80 ≠ 0 then
        { status with nacks := [{ nackSn := (byte 3 &&& 0xff) <<< 4 ||| (byte 4 &&& 0xf0) >>> 4 }] }
      else { status with nacks := [] }
    | .size18bits => status

/-- The acknowledged SN and the NACKs come back when the status PDU is written and read into `old`.
-/
def Restores (snSize : SnSize) (status old : StatusPdu) : Prop :=
  (readStatusPdu (writeStatusPdu status snSize) snSize old).ackSn = status.ackSn ∧
    (readStatusPdu (writeStatusPdu status snSize) snSize old).nacks = status.nacks

variable {n : ℕ}

theorem and_0f (n : ℕ) : n &&& 0x0f = n % 16 := and_two_pow_sub_one_eq_mod n 4

theorem and_ff (n : ℕ) : n &&& 0xff = n % 256 := and_two_pow_sub_one_eq_mod n 8

theorem ackSn_of_bytes (hn : n < 4096) : ((ofNat (n >>> 8 &&& 0x0f)).toNat &&& 0x0f) <<< 8 |||
      ((ofNat (n &&& 0xff)).toNat &&& 0xff) = n := by
  simp only [toNat_ofNat', and_0f, and_ff, shiftRight_eq_div_pow]
  rw [← shiftLeft_add_eq_or_of_lt (by omega), shiftLeft_eq]
  omega

/-- The SN read from a NACK: its lowest four bits are those above them. -/
theorem nackSn_of_bytes (hn : n < 4096) :
    ((ofNat (n >>> 4 &&& 0xff)).toNat &&& 0xff) <<< 4 |||
      ((ofNat (n &&& 0xf0)).toNat &&& 0xf0) >>> 4 = n / 16 * 16 + n / 16 % 16 := by
  have hlow : ((n &&& 0xf0) % 256 &&& 0xf0) >>> 4 = n / 16 % 16 := by
    have hle : n &&& 0xf0 ≤ 0xf0 := and_le_right
    rw [Nat.mod_eq_of_lt (by omega), Nat.and_assoc, Nat.and_self, Nat.shiftRight_and_distrib,
      shiftRight_eq_div_pow]
    exact and_0f _
  simp only [toNat_ofNat', hlow, and_ff, shiftRight_eq_div_pow]
  rw [← shiftLeft_add_eq_or_of_lt (by omega), shiftLeft_eq]
  omega

theorem cpt_of_byte (n : ℕ) : (ofNat (n &&& 0x0f)).toNat >>> 4 &&& 0x07 = 0 := by
  have hzero : (n % 16) % 256 / 2 ^ 4 = 0 := by omega
  rw [and_0f, toNat_ofNat', shiftRight_eq_div_pow, hzero]
  rfl

/-- A PDU with 12 bit SNs has the first NACK at most. -/
theorem read_write_size12bits {status : StatusPdu} (h : status.InSnSpace .size12bits)
    (old : StatusPdu) :
    readStatusPdu (writeStatusPdu status .size12bits) .size12bits old =
      { ackSn := status.ackSn
        nacks := (status.nacks.take 1).map fun nack =>
          { nackSn := nack.nackSn / 16 * 16 + nack.nackSn / 16 % 16 } } := by
  obtain ⟨cpt, ackSn, nacks⟩ := status
  have hack : ackSn < 4096 := h.1
  cases nacks with
  | nil =>
    simp only [readStatusPdu, writeStatusPdu, cons_append, nil_append,
      getD_cons_zero, getD_cons_succ, cpt_of_byte, ackSn_of_bytes hack]
    rfl
  | cons nack nacks =>
    have hsn : nack.nackSn < 4096 := h.2 nack mem_cons_self
    simp only [readStatusPdu, writeStatusPdu, cons_append, nil_append,
      getD_cons_zero, getD_cons_succ, cpt_of_byte, ackSn_of_bytes hack,
      nackSn_of_bytes hsn]
    rfl

/-- With 12 bits, a status PDU survives with no NACK, or with one without segment offset whose SN
has the same lowest two nibbles; with 18 bits, if it is what it is read into. -/
theorem restores_iff (snSize : SnSize) (status old : StatusPdu) (h : status.InSnSpace snSize) :
    Restores snSize status old ↔
      match snSize with
      | .size12bits => status.nacks = [] ∨
          ∃ sn, status.nacks = [{ nackSn := sn }] ∧ sn % 16 = sn / 16 % 16
      | .size18bits => old.ackSn = status.ackSn ∧ old.nacks = status.nacks := by
  cases snSize with
  | size18bits => simp [Restores, readStatusPdu, writeStatusPdu]
  | size12bits =>
    rw [Restores, read_write_size12bits h]
    cases hnacks : status.nacks with
    | nil => simp
    | cons nack nacks =>
      obtain ⟨sn, hasSo, soStart, soEnd⟩ := nack
      have hsame : sn / 16 * 16 + sn / 16 % 16 = sn ↔ sn % 16 = sn / 16 % 16 := by omega
      simp only [take_succ_cons, take_zero, map_cons, map_nil,
        cons.injEq, Nack.mk.injEq, hsame, reduceCtorEq, true_and, false_or]
      constructor
      · rintro ⟨⟨hnibbles, rfl, rfl, rfl⟩, rfl⟩
        exact ⟨sn, ⟨⟨rfl, rfl, rfl, rfl⟩, rfl⟩, hnibbles⟩
      · rintro ⟨_, ⟨⟨rfl, rfl, rfl, rfl⟩, rfl⟩, hnibbles⟩
        exact ⟨⟨hnibbles, rfl, rfl, rfl⟩, rfl⟩

/-- The status PDU of the test, whose NACK is 0x111. -/
theorem restores_test_vector :
    Restores .size12bits { ackSn := 2065, nacks := [{ nackSn := 273 }] } {} :=
  (restores_iff .size12bits _ _ ⟨by decide, by decide⟩).mpr (.inr ⟨273, rfl, rfl⟩)

/-- The NACK 0x110 is read as 0x111. -/
theorem not_restores_nack_272 :
    ¬ Restores .size12bits { ackSn := 2065, nacks := [{ nackSn := 272 }] } {} := by
  unfold Restores
  decide

end MbmsTx.Rlc.AmNr
