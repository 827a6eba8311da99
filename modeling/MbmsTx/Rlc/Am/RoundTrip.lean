import MbmsTx.Rlc.Am.Status
import MbmsTx.Rlc.Um.Header

/-!
# Round trips of the headers and the status PDUs

What `rlc_am_write_data_pdu_header` and `rlc_am_write_status_pdu` write is read back, and takes as
many bytes as `rlc_am_packed_length` says (`read_write`). A NACK without segment offsets is read
with offsets of zero.
-/

namespace MbmsTx.Rlc.Am

open List UInt8 Nat Bits

/-! ## Data headers -/

/-- `rlc_am_write_data_pdu_header`: the bytes of the header. -/
def writeDataPduHeader (header : AmdHeader) : List UInt8 :=
  [ofNat (1 <<< 7 ||| header.rf.toNat <<< 6 ||| header.p.toNat <<< 5 |||
      (Um.fiValue header.fi &&& 0x03) <<< 3 ||| (!header.li.isEmpty).toNat <<< 2 |||
      (header.sn &&& 0x300) >>> 8),
    ofNat (header.sn &&& 0xFF)] ++
  (if header.rf then
    [ofNat (header.lsf.toNat <<< 7 ||| (header.so &&& 0x7F00) >>> 8),
      ofNat (header.so &&& 0x00FF)]
  else []) ++ Um.writeLis header.li

/-- The fields of a header have the widths of the format, and the length indicators fit their array.
-/
structure AmdHeader.Encodable (header : AmdHeader) : Prop where
  sn_lt : header.sn < 1024
  so_lt : header.so < 32768
  whole : header.rf = false → header.lsf = false ∧ header.so = 0
  li_length : header.li.length ≤ maxLis
  li_lt : ∀ li ∈ header.li, li < 2048

theorem fixedByte_fields : ∀ rf p : Bool, ∀ fi < 4, ∀ ext : Bool, ∀ high < 4,
    let b := (ofNat (1 <<< 7 ||| rf.toNat <<< 6 ||| p.toNat <<< 5 ||| (fi &&& 0x03) <<< 3 |||
      ext.toNat <<< 2 ||| high)).toNat
    b.testBit 7 = true ∧ b.testBit 6 = rf ∧ b.testBit 5 = p ∧ b.testBit 4 = fi.testBit 1 ∧
      b.testBit 3 = fi.testBit 0 ∧ b.testBit 2 = ext ∧ b &&& 0x03 = high := by
  decide +kernel

theorem so_of_parts {so : ℕ} (h : so < 32768) :
    ((so &&& 0x7F00) >>> 8) <<< 8 ||| (so &&& 0xFF) = so ∧ (so &&& 0x7F00) >>> 8 < 128 := by
  have hhigh : (so &&& 0x7F00) >>> 8 = so / 256 := by
    rw [shiftRight_and_distrib, shiftRight_eq_div_pow]
    exact (and_two_pow_sub_one_eq_mod _ 7).trans (mod_eq_of_lt (by omega))
  rw [hhigh, and_two_pow_sub_one_eq_mod so 8,
    ← shiftLeft_add_eq_or_of_lt (mod_lt so (by decide)), shiftLeft_eq]
  omega

theorem length_writeDataPduHeader (header : AmdHeader) :
    (writeDataPduHeader header).length = header.packedLength := by
  simp only [writeDataPduHeader, length_append, Um.length_writeLis, AmdHeader.packedLength,
    packedLengthOf]
  cases header.rf <;> rfl

theorem readDataPduHeader_writeDataPduHeader {header : AmdHeader} (h : header.Encodable)
    (payload : List UInt8) :
    readDataPduHeader (writeDataPduHeader header ++ payload) = some (header, payload) := by
  obtain ⟨rf, p, fi, sn, lsf, so, lis⟩ := header
  obtain ⟨hsn, hso, hwhole, hlen, hlis⟩ := h
  obtain ⟨hsnParts, hhigh⟩ := Um.sn_of_parts sn hsn
  obtain ⟨h7, h6, h5, h4, h3, h2, hlow⟩ :=
    fixedByte_fields rf p _ (Um.fiValue_lt fi) (!lis.isEmpty) _ hhigh
  obtain ⟨hnotStart, hnotEnd⟩ := Um.testBit_fiValue fi
  have hread := Um.readExtension_writeLis hlen hlis payload
  simp only [writeDataPduHeader, cons_append, nil_append, append_assoc, readDataPduHeader, h7, h6,
    h5, h4, h3, h2, hlow, hnotStart, hnotEnd, Um.toNat_ofNat_and_255, hsnParts]
  cases rf with
  | false =>
    obtain ⟨rfl, rfl⟩ := hwhole rfl
    simp [hread]
  | true =>
    obtain ⟨hsoParts, hsoHigh⟩ := so_of_parts hso
    obtain ⟨hfirst, hlsf⟩ := Um.firstByte_fields lsf.toNat (Bool.toNat_lt _) _ hsoHigh
    have hbool : decide (lsf.toNat = 1) = lsf := by simp
    simp only [Bool.not_true, Bool.false_eq_true, if_true, if_false, cons_append, nil_append,
      hread, hfirst, hlsf, hbool, hsoParts, Um.toNat_ofNat_and_255, Option.map_some]

/-! ## Status PDUs -/

/-- `srsran_bit_unpack_vector`. -/
def bitUnpackVector (bytes : List UInt8) : List ℕ := bytes.flatMap fun b => unpack b.toNat 8

/-- `srsran_bit_pack`, while there are so many bits. -/
def readBits (n : ℕ) (bits : List ℕ) : Option (ℕ × List ℕ) :=
  if bits.length < n then none else some (read n bits)

/-- The loop over the NACKs. Every round reads bits, so it ends at the end of the string at the
latest. -/
def readNacks : ℕ → Bool → List ℕ → Option (List Nack)
  | _, false, _ => some []
  | 0, true, _ => none
  | fuel + 1, true, bits => do
    let (nackSn, bits) ← readBits 10 bits
    let (ext1, bits) ← readBits 1 bits
    let (ext2, bits) ← readBits 1 bits
    if ext2 = 1 then
      let (soStart, bits) ← readBits 15 bits
      let (soEnd, bits) ← readBits 15 bits
      let nacks ← readNacks fuel (decide (ext1 = 1)) bits
      return { nackSn, hasSo := true, soStart, soEnd } :: nacks
    else
      let nacks ← readNacks fuel (decide (ext1 = 1)) bits
      return { nackSn } :: nacks

/-- `rlc_am_read_status_pdu` into a fresh status, for a whole status PDU with NACKs that fit their
array. -/
def readStatusPdu (payload : List UInt8) : Option StatusPdu := do
  let (dc, bits) ← readBits 1 (bitUnpackVector payload)
  if dc ≠ 0 then return { ackSn := 0, nacks := [] }
  let (cpt, bits) ← readBits 3 bits
  if cpt ≠ 0 then return { ackSn := 0, nacks := [] }
  let (ackSn, bits) ← readBits 10 bits
  let (ext1, bits) ← readBits 1 bits
  let nacks ← (readNacks bits.length (decide (ext1 = 1)) bits).filter (·.length ≤ windowSize)
  return { ackSn, nacks }

/-- The fields of a NACK have their widths, and offsets that it does not have are zero. -/
structure Nack.Encodable (nack : Nack) : Prop where
  nackSn_lt : nack.nackSn < 1024
  soStart_lt : nack.soStart < 32768
  soEnd_lt : nack.soEnd < 32768
  whole : nack.hasSo = false → nack.soStart = 0 ∧ nack.soEnd = 0

@[simp] theorem readBits_unpack (value n : ℕ) (rest : List ℕ) :
    readBits n (unpack value n ++ rest) = some (value % 2 ^ n, rest) := by
  rw [readBits, if_neg (by simp), read_unpack_append]

theorem bitUnpackVector_map_range {bits : List ℕ} {n : ℕ} (hbits : Bits.IsBits bits)
    (hlen : bits.length = 8 * n) :
    bitUnpackVector ((List.range n).map fun i =>
      ofNat (pack ((bits.drop (8 * i)).take 8))) = bits := by
  induction n generalizing bits with
  | zero => exact (length_eq_zero_iff.mp hlen).symm
  | succ n ih =>
    have hfirst : unpack (ofNat (pack (bits.take 8))).toNat 8 = bits.take 8 := by
      have hmem : Bits.IsBits (bits.take 8) := fun b hb => hbits b (mem_of_mem_take hb)
      have htake : (bits.take 8).length = 8 := by
        rw [length_take]
        omega
      have hlt := pack_lt hmem
      have hunpack := unpack_pack_of_isBits hmem
      rw [htake] at hlt hunpack
      rw [toNat_ofNat', mod_eq_of_lt hlt, hunpack]
    have hrest := @ih (bits.drop 8) (fun b hb => hbits b (mem_of_mem_drop hb))
      (by rw [length_drop]; omega)
    simp only [drop_drop] at hrest
    rw [range_succ_eq_map, map_cons, map_map]
    change unpack (ofNat (pack (bits.take 8))).toNat 8 ++ bitUnpackVector
      ((List.range n).map fun i => ofNat (pack ((bits.drop (8 * (i + 1))).take 8))) = _
    simp only [mul_add, add_comm _ 8, hfirst, hrest, take_append_drop]

theorem isBits_nackBits (nacks : List Nack) : Bits.IsBits (StatusPdu.nackBits nacks) := by
  induction nacks with
  | nil => simp [StatusPdu.nackBits, Bits.IsBits]
  | cons nack nacks ih =>
    rw [StatusPdu.nackBits]
    cases nack.hasSo <;> simp [isBits_append, isBits_unpack, ih]

theorem readNacks_nackBits {nacks : List Nack} {fuel : ℕ}
    (hfuel : (StatusPdu.nackBits nacks).length ≤ fuel) (h : ∀ nack ∈ nacks, nack.Encodable)
    (rest : List ℕ) :
    readNacks fuel (!nacks.isEmpty) (StatusPdu.nackBits nacks ++ rest) = some nacks := by
  induction nacks generalizing fuel with
  | nil => cases fuel <;> rfl
  | cons nack nacks ih =>
    have hlen : (StatusPdu.nackBits nacks).length + 1 ≤ fuel := by
      simp [StatusPdu.nackBits, length_unpack] at hfuel
      omega
    obtain ⟨fuel, rfl⟩ := Nat.exists_eq_add_of_le' (Nat.le_of_add_left_le hlen)
    have hrest := @ih fuel (le_of_succ_le_succ hlen) fun n hn => h n (mem_cons_of_mem _ hn)
    have hmore : decide ((if nacks = [] then 0 else 1) % 2 = 1) = !nacks.isEmpty := by
      cases nacks <;> rfl
    obtain ⟨hsn, hstart, hend, hwhole⟩ := h nack mem_cons_self
    obtain ⟨nackSn, hasSo, soStart, soEnd⟩ := nack
    rw [isEmpty_cons, Bool.not_false, readNacks, StatusPdu.nackBits]
    cases hasSo with
    | false =>
      obtain ⟨rfl, rfl⟩ := hwhole rfl
      simp [mod_eq_of_lt hsn, hmore, hrest]
    | true =>
      simp [mod_eq_of_lt hsn, mod_eq_of_lt hstart, mod_eq_of_lt hend, hmore, hrest]

theorem readStatusPdu_writeStatusPdu {status : StatusPdu} (hack : status.ackSn < 1024)
    (hlen : status.nacks.length ≤ windowSize) (h : ∀ nack ∈ status.nacks, nack.Encodable) :
    readStatusPdu (writeStatusPdu status) = some status := by
  have hbits : bitUnpackVector (writeStatusPdu status) =
      status.bits ++ unpack 0 (8 - status.bits.length % 8) := by
    refine bitUnpackVector_map_range ?_ ?_
    · simp [StatusPdu.bits, isBits_append, isBits_unpack, isBits_nackBits]
    · rw [length_append, length_unpack]
      omega
  have hnacks := fun pad =>
    @readNacks_nackBits status.nacks (StatusPdu.nackBits status.nacks ++ pad).length (by simp) h pad
  have hmore : decide ((if status.nacks.isEmpty then 0 else 1) % 2 ^ 1 = 1) =
      !status.nacks.isEmpty := by
    cases status.nacks <;> rfl
  unfold readStatusPdu
  rw [hbits, StatusPdu.bits]
  simp only [append_assoc, readBits_unpack, Option.bind_eq_bind, Option.bind_some, hmore, hnacks]
  simp [mod_eq_of_lt hack, Option.filter, hlen]

/-- The writers and the readers of data headers and of status PDUs are inverse, and the packed
lengths are right. -/
theorem read_write : (∀ header : AmdHeader, header.Encodable → ∀ payload,
      readDataPduHeader (writeDataPduHeader header ++ payload) = some (header, payload) ∧
        (writeDataPduHeader header).length = header.packedLength) ∧
    ∀ status : StatusPdu, status.ackSn < 1024 → status.nacks.length ≤ windowSize →
      (∀ nack ∈ status.nacks, nack.Encodable) →
      readStatusPdu (writeStatusPdu status) = some status ∧
        (writeStatusPdu status).length = status.packedLength := by
  constructor
  · intro header h payload
    exact ⟨readDataPduHeader_writeDataPduHeader h payload, length_writeDataPduHeader header⟩
  · intro status hack hlen h
    exact ⟨readStatusPdu_writeStatusPdu hack hlen h, StatusPdu.length_writeStatusPdu status⟩

/-- A segment with three length indicators, and NACKs of both kinds. -/
theorem read_write_segment_and_nacks : let header : AmdHeader :=
      { rf := true, fi := .notEndAligned, sn := 1023, lsf := true, so := 300, li := [2047, 1, 256] }
    let status : StatusPdu :=
      { ackSn := 1000
        nacks := [{ nackSn := 998 }, { nackSn := 999, hasSo := true, soStart := 7, soEnd := 9 }] }
    readDataPduHeader (writeDataPduHeader header ++ [1]) = some (header, [1]) ∧
      readStatusPdu (writeStatusPdu status) = some status := by
  refine ⟨(read_write.1 _ ⟨?_, ?_, ?_, ?_, ?_⟩ _).1, (read_write.2 _ ?_ ?_ ?_).1⟩
  any_goals decide
  refine forall_mem_cons.mpr ⟨⟨?_, ?_, ?_, ?_⟩, forall_mem_singleton.mpr ⟨?_, ?_, ?_, ?_⟩⟩
  all_goals decide

/-- The offsets of a NACK that has none are lost. -/
theorem readStatusPdu_drops_unused_so :
    let status : StatusPdu := { ackSn := 1, nacks := [{ nackSn := 0, soStart := 5 }] }
    readStatusPdu (writeStatusPdu status) = some { ackSn := 1, nacks := [{ nackSn := 0 }] } ∧
      readStatusPdu (writeStatusPdu status) ≠ some status := by
  decide +kernel

end MbmsTx.Rlc.Am
