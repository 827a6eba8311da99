import MbmsTx.Rlc.Am.Codec

/-!
# UMD PDU headers

The header of an unacknowledged-mode data PDU has one byte for a sequence number of 5 bits and two
for one of 10 bits, then the length indicators as in acknowledged mode. What
`rlc_um_write_data_pdu_header` writes is read back by `rlc_um_read_data_pdu_header`.
-/

namespace MbmsTx.Rlc.Um

open List UInt8

open MbmsTx.Rlc.Am (Fi readLis readExtension maxLis)

/-- `rlc_umd_sn_size_t`. -/
inductive SnSize
  | size5bits
  | size10bits
deriving DecidableEq

/-- The number of bits of a sequence number. -/
def SnSize.bits : SnSize → ℕ
  | .size5bits => 5
  | .size10bits => 10

/-- `rlc_um_config_t`, without the duration of the timer. The counters wrap where the sequence
number does, and the reordering window is half of that. -/
structure UmConfig where
  rxSnFieldLength : SnSize
  rxWindowSize : ℕ
  rxMod : ℕ
  txSnFieldLength : SnSize
  txMod : ℕ
  isMrb : Bool := false
  rxMod_eq : rxMod = 2 ^ rxSnFieldLength.bits
  rxMod_eq_window : rxMod = 2 * rxWindowSize
  txMod_eq : txMod = 2 ^ txSnFieldLength.bits

/-- `default_rlc_um_config(5)`. -/
def defaultRlcUmConfig5 : UmConfig where
  rxSnFieldLength := .size5bits
  rxWindowSize := 16
  rxMod := 32
  txSnFieldLength := .size5bits
  txMod := 32
  rxMod_eq := rfl
  rxMod_eq_window := rfl
  txMod_eq := rfl

/-- `mch_config`: the bearers of MCCH and MTCH. -/
def mchConfig : UmConfig := { defaultRlcUmConfig5 with isMrb := true }

theorem UmConfig.sixteen_le_window (cfg : UmConfig) : 16 ≤ cfg.rxWindowSize := by
  have hmod := cfg.rxMod_eq.symm.trans cfg.rxMod_eq_window
  cases hbits : cfg.rxSnFieldLength with
  | size5bits | size10bits =>
    rw [hbits, SnSize.bits] at hmod
    omega

/-- `rlc_umd_pdu_header_t`. The array `li` is cut to `N_li` entries. -/
structure UmdHeader where
  fi : Fi := Fi.startAndEndAligned
  snSize : SnSize
  sn : ℕ := 0
  li : List ℕ := []
deriving DecidableEq

/-- The packed length of a header with `nLi` length indicators. -/
def packedLengthOf (snSize : SnSize) (nLi : ℕ) : ℕ :=
  (match snSize with
    | .size5bits => 1
    | .size10bits => 2) + (3 * nLi + 1) / 2

/-- `rlc_um_packed_length`. -/
def UmdHeader.packedLength (header : UmdHeader) : ℕ := packedLengthOf header.snSize header.li.length

theorem packedLengthOf_mono (snSize : SnSize) {nLi nLi' : ℕ} (h : nLi ≤ nLi') :
    packedLengthOf snSize nLi ≤ packedLengthOf snSize nLi' := by
  unfold packedLengthOf
  omega

/-! ## Writing and reading -/

/-- The numeric value of a framing info. -/
def fiValue (fi : Fi) : ℕ := 2 * fi.notStart.toNat + fi.notEnd.toNat

/-- The extension part of `rlc_um_write_data_pdu_header`. -/
def writeLis : List ℕ → List UInt8
  | [] => []
  | [li] => [ofNat (0 <<< 7 ||| (li &&& 0x7F0) >>> 4), ofNat ((li &&& 0x00F) <<< 4)]
  | li :: next :: lis =>
    ofNat (1 <<< 7 ||| (li &&& 0x7F0) >>> 4) ::
      ofNat ((li &&& 0x00F) <<< 4 ||| (!lis.isEmpty).toNat <<< 3 |||
        (next &&& 0x700) >>> 8) ::
      ofNat (next &&& 0x0FF) :: writeLis lis

/-- `rlc_um_write_data_pdu_header`: the bytes of the header. -/
def writeDataPduHeader (header : UmdHeader) : List UInt8 :=
  let ext := (!header.li.isEmpty).toNat
  (match header.snSize with
    | .size5bits =>
      [ofNat ((fiValue header.fi &&& 0x03) <<< 6 ||| ext <<< 5 ||| (header.sn &&& 0x1F))]
    | .size10bits =>
      [ofNat ((fiValue header.fi &&& 0x03) <<< 3 ||| ext <<< 2 |||
          (header.sn &&& 0x300) >>> 8),
        ofNat (header.sn &&& 0xFF)]) ++
  writeLis header.li

/-- `rlc_um_read_data_pdu_header`, for bytes that hold a whole header. -/
def readDataPduHeader : SnSize → List UInt8 → Option UmdHeader
  | .size5bits, b₀ :: bytes =>
    (readExtension (b₀.toNat.testBit 5) bytes).map fun rest =>
      { fi := ⟨b₀.toNat.testBit 7, b₀.toNat.testBit 6⟩
        snSize := .size5bits
        sn := b₀.toNat &&& 0x1F
        li := rest.1 }
  | .size10bits, b₀ :: b₁ :: bytes =>
    (readExtension (b₀.toNat.testBit 2) bytes).map fun rest =>
      { fi := ⟨b₀.toNat.testBit 4, b₀.toNat.testBit 3⟩
        snSize := .size10bits
        sn := (b₀.toNat &&& 0x03) <<< 8 ||| (b₁.toNat &&& 0xFF)
        li := rest.1 }
  | _, _ => none

theorem length_writeLis (lis : List ℕ) : (writeLis lis).length = (3 * lis.length + 1) / 2 := by
  induction lis using writeLis.induct with
  | case1 => rfl
  | case2 li => simp [writeLis]
  | case3 li next lis ih =>
    simp [writeLis, ih]
    omega

theorem length_writeDataPduHeader (header : UmdHeader) :
    (writeDataPduHeader header).length = header.packedLength := by
  unfold writeDataPduHeader UmdHeader.packedLength packedLengthOf
  cases header.snSize with
  | size5bits => simp [length_writeLis, add_comm]
  | size10bits =>
    simp only [length_append, length_cons, length_nil, length_writeLis]

/-! ## The fields of the bytes -/

theorem firstByte_fields : ∀ ext < 2, ∀ high < 128,
    (ofNat (ext <<< 7 ||| high)).toNat &&& 0x7F = high ∧
      (ofNat (ext <<< 7 ||| high)).toNat.testBit 7 = decide (ext = 1) := by
  decide +kernel

theorem middleByte_fields : ∀ low < 16, ∀ ext < 2, ∀ high < 8,
    ((ofNat (low <<< 4 ||| ext <<< 3 ||| high)).toNat &&& 0xF0) >>> 4 = low ∧
      (ofNat (low <<< 4 ||| ext <<< 3 ||| high)).toNat.testBit 3 = decide (ext = 1) ∧
      (ofNat (low <<< 4 ||| ext <<< 3 ||| high)).toNat &&& 0x07 = high := by
  decide +kernel

theorem fixedByte5_fields : ∀ fi < 4, ∀ ext < 2, ∀ sn < 32,
    (ofNat (fi <<< 6 ||| ext <<< 5 ||| sn)).toNat.testBit 7 = fi.testBit 1 ∧
      (ofNat (fi <<< 6 ||| ext <<< 5 ||| sn)).toNat.testBit 6 = fi.testBit 0 ∧
      (ofNat (fi <<< 6 ||| ext <<< 5 ||| sn)).toNat.testBit 5 = decide (ext = 1) ∧
      (ofNat (fi <<< 6 ||| ext <<< 5 ||| sn)).toNat &&& 0x1F = sn := by
  decide +kernel

theorem fixedByte10_fields : ∀ fi < 4, ∀ ext < 2, ∀ high < 4,
    (ofNat (fi <<< 3 ||| ext <<< 2 ||| high)).toNat.testBit 4 = fi.testBit 1 ∧
      (ofNat (fi <<< 3 ||| ext <<< 2 ||| high)).toNat.testBit 3 = fi.testBit 0 ∧
      (ofNat (fi <<< 3 ||| ext <<< 2 ||| high)).toNat.testBit 2 = decide (ext = 1) ∧
      (ofNat (fi <<< 3 ||| ext <<< 2 ||| high)).toNat &&& 0x03 = high := by
  decide +kernel

theorem li_of_first_parts : ∀ li < 2048,
    ((li &&& 0x7F0) >>> 4) <<< 4 ||| (li &&& 0x00F) = li ∧ (li &&& 0x7F0) >>> 4 < 128 := by
  decide +kernel

theorem li_of_second_parts : ∀ li < 2048,
    ((li &&& 0x700) >>> 8) <<< 8 ||| (li &&& 0x0FF) = li ∧ (li &&& 0x700) >>> 8 < 8 := by
  decide +kernel

theorem sn_of_parts : ∀ sn < 1024,
    ((sn &&& 0x300) >>> 8) <<< 8 ||| (sn &&& 0xFF) = sn ∧ (sn &&& 0x300) >>> 8 < 4 := by
  decide +kernel

theorem toNat_ofNat_and_255 (n : ℕ) : (ofNat (n &&& 0xFF)).toNat = n &&& 0xFF := by
  rw [toNat_ofNat', Nat.mod_eq_of_lt (Nat.and_lt_two_pow n (by decide))]

theorem and_15_lt (n : ℕ) : n &&& 0x00F < 16 := by
  have hlt : n &&& 0x00F < 2 ^ 4 := Nat.and_lt_two_pow n (by decide)
  exact hlt

/-! ## Round trip -/

theorem readLis_writeLis {lis : List ℕ} (hlis : ∀ li ∈ lis, li < 2048) (rest : List UInt8) :
    readLis (!lis.isEmpty) (writeLis lis ++ rest) = some (lis, rest) := by
  induction lis using writeLis.induct with
  | case1 => simp [writeLis, readLis]
  | case2 li =>
    obtain ⟨hparts, hhigh⟩ := li_of_first_parts li (hlis li (by simp))
    obtain ⟨hfirst, hext⟩ := firstByte_fields 0 (by decide) _ hhigh
    have hlow := and_15_lt li
    have hsecond := (middleByte_fields _ hlow 0 (by decide) 0 (by decide)).1
    simp only [Nat.zero_shiftLeft, Nat.or_zero] at hsecond
    rw [writeLis, cons_append, cons_append, nil_append, readLis.eq_def]
    simp only [isEmpty_cons, Bool.not_false, hext, hfirst, hsecond, hparts]
    simp
  | case3 li next lis ih =>
    obtain ⟨hparts, hhigh⟩ := li_of_first_parts li (hlis li (by simp))
    obtain ⟨hparts', hhigh'⟩ := li_of_second_parts next (hlis next (by simp))
    obtain ⟨hfirst, hext⟩ := firstByte_fields 1 (by decide) _ hhigh
    have hlow := and_15_lt li
    have hmore : (!lis.isEmpty).toNat < 2 := Bool.toNat_lt _
    obtain ⟨hsecond, hext', hthird⟩ := middleByte_fields _ hlow _ hmore _ hhigh'
    have hbool : decide ((!lis.isEmpty).toNat = 1) = !lis.isEmpty := by
      cases lis.isEmpty <;> rfl
    have hrest := ih fun li' hli' => hlis li' (by simp [hli'])
    simp only [writeLis, isEmpty_cons, Bool.not_false, cons_append, readLis, hext,
      hfirst, hsecond, hparts, hext', hthird, toNat_ofNat_and_255, hparts', hbool, hrest]
    simp

theorem readExtension_writeLis {lis : List ℕ} (hlen : lis.length ≤ maxLis)
    (hlis : ∀ li ∈ lis, li < 2048) (rest : List UInt8) :
    readExtension (!lis.isEmpty) (writeLis lis ++ rest) = some (lis, rest) := by
  rw [readExtension, readLis_writeLis hlis, Option.filter_some, if_pos (by simpa using hlen)]

theorem fiValue_lt (fi : Fi) : fiValue fi < 4 := by
  rcases fi with ⟨_ | _, _ | _⟩ <;> decide

theorem testBit_fiValue (fi : Fi) :
    (fiValue fi).testBit 1 = fi.notStart ∧ (fiValue fi).testBit 0 = fi.notEnd := by
  rcases fi with ⟨_ | _, _ | _⟩ <;> decide

theorem readDataPduHeader_writeDataPduHeader {header : UmdHeader}
    (hsn : header.sn < 2 ^ header.snSize.bits) (hlen : header.li.length ≤ maxLis)
    (hlis : ∀ li ∈ header.li, li < 2048) (rest : List UInt8) :
    readDataPduHeader header.snSize (writeDataPduHeader header ++ rest) = some header := by
  obtain ⟨fi, snSize, sn, lis⟩ := header
  have hfi : fiValue fi &&& 0x03 = fiValue fi := by
    rw [Nat.and_two_pow_sub_one_eq_mod (fiValue fi) 2]
    exact Nat.mod_eq_of_lt (fiValue_lt fi)
  obtain ⟨hnotStart, hnotEnd⟩ := testBit_fiValue fi
  have hmore : (!lis.isEmpty).toNat < 2 := Bool.toNat_lt _
  have hbool : decide ((!lis.isEmpty).toNat = 1) = !lis.isEmpty := by
    cases lis.isEmpty <;> rfl
  have hread := readExtension_writeLis hlen hlis rest
  cases snSize with
  | size5bits =>
    have hsn5 : sn &&& 0x1F = sn := by
      rw [Nat.and_two_pow_sub_one_eq_mod sn 5]
      exact Nat.mod_eq_of_lt hsn
    obtain ⟨hbit7, hbit6, hbit5, hlow⟩ :=
      fixedByte5_fields _ (fiValue_lt fi) _ hmore sn hsn
    simp only [writeDataPduHeader, hfi, hsn5, cons_append, nil_append,
      readDataPduHeader, hbit7, hbit6, hbit5, hlow, hbool, hread, hnotStart, hnotEnd]
    rfl
  | size10bits =>
    obtain ⟨hparts, hhigh⟩ := sn_of_parts sn hsn
    obtain ⟨hbit4, hbit3, hbit2, hlow⟩ :=
      fixedByte10_fields _ (fiValue_lt fi) _ hmore _ hhigh
    have hand : sn &&& 0xFF &&& 0xFF = sn &&& 0xFF := by simp
    simp only [writeDataPduHeader, hfi, cons_append, nil_append, readDataPduHeader,
      hbit4, hbit3, hbit2, hlow, hbool, hread, hnotStart, hnotEnd, toNat_ofNat_and_255, hand,
      hparts]
    rfl

end MbmsTx.Rlc.Um
