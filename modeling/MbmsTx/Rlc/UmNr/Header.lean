import MbmsTx.Rlc.Um.Header

/-!
# UMD PDU headers in NR

A PDU holds a whole SDU, with one byte of header, or a segment of one SDU. The header of a segment
has a sequence number of 6 or 12 bits and, unless it is the first segment, its offset. The writer
leaves the offset out when it is zero, the reader expects it from the segmentation info; they agree
as long as only first segments have the offset zero.
-/

namespace MbmsTx.Rlc.UmNr

open Nat UInt8

open MbmsTx.Rlc.Um (toNat_ofNat_and_255)

/-- `rlc_um_nr_sn_size_t`; the first value is that of a header not initialised. -/
inductive SnSize
  | size6bits
  | size12bits
deriving DecidableEq, Inhabited

/-- The number of sequence numbers. -/
def SnSize.mod : SnSize → ℕ
  | .size6bits => 64
  | .size12bits => 4096

/-- `UM_Window_Size`. -/
def SnSize.window : SnSize → ℕ
  | .size6bits => 32
  | .size12bits => 2048

theorem SnSize.cases (size : SnSize) :
    size.mod = 64 ∧ size.window = 32 ∨ size.mod = 4096 ∧ size.window = 2048 := by
  cases size with
  | size6bits => exact .inl ⟨rfl, rfl⟩
  | size12bits => exact .inr ⟨rfl, rfl⟩

/-- `rlc_nr_si_field_t`. -/
inductive Si
  | fullSdu
  | firstSegment
  | lastSegment
  | neitherFirstNorLastSegment
deriving DecidableEq

/-- The numeric value of a segmentation info. -/
def Si.value : Si → ℕ
  | .fullSdu => 0
  | .firstSegment => 1
  | .lastSegment => 2
  | .neitherFirstNorLastSegment => 3

/-- The segmentation info with a numeric value below 4. -/
def Si.ofValue : ℕ → Si
  | 0 => .fullSdu
  | 1 => .firstSegment
  | 2 => .lastSegment
  | _ => .neitherFirstNorLastSegment

/-- Whether the reader expects an offset. -/
def Si.hasSo : Si → Bool
  | .lastSegment => true
  | .neitherFirstNorLastSegment => true
  | _ => false

/-- `rlc_um_nr_pdu_header_t`. -/
structure Header where
  si : Si := .fullSdu
  snSize : SnSize := .size6bits
  sn : ℕ := 0
  so : ℕ := 0
deriving DecidableEq

namespace Header

/-- The bytes of the sequence number of a segment. -/
def snBytes : SnSize → ℕ
  | .size6bits => 1
  | .size12bits => 2

theorem snBytes_pos (size : SnSize) : 0 < snBytes size := by
  cases size with
  | size6bits => decide
  | size12bits => decide

/-- `rlc_um_nr_packed_length`. -/
def packedLength (header : Header) : ℕ :=
  if header.si = .fullSdu then 1
  else snBytes header.snSize + if header.so = 0 then 0 else 2

/-- `rlc_um_nr_write_data_pdu_header`: the bytes of the header. -/
def write (header : Header) : List UInt8 :=
  let si := (header.si.value &&& 0x03) <<< 6
  if header.si = .fullSdu then [UInt8.ofNat si]
  else
    (match header.snSize with
      | .size6bits => [UInt8.ofNat (si ||| (header.sn &&& 0x3F))]
      | .size12bits =>
        [UInt8.ofNat (si ||| ((header.sn >>> 8) &&& 0xF)), UInt8.ofNat (header.sn &&& 0xFF)]) ++
    if header.so = 0 then []
    else [UInt8.ofNat (header.so >>> 8), UInt8.ofNat (header.so &&& 0xFF)]

/-- The optional part of the header: the offset. -/
def readSo (header : Header) (bytes : List UInt8) : Option Header :=
  if header.si.hasSo then
    match bytes with
    | b₀ :: b₁ :: _ => some { header with so := (b₀.toNat &&& 0xFF) <<< 8 ||| (b₁.toNat &&& 0xFF) }
    | _ => none
  else some header

/-- `rlc_um_nr_read_data_pdu_header`, for bytes with a whole header. One with reserved bits is left
without its other fields; the caller goes on with it. -/
def read : SnSize → List UInt8 → Option Header
  | .size6bits, b₀ :: bytes =>
    let header : Header :=
      { si := Si.ofValue ((b₀.toNat >>> 6) &&& 0x03)
        snSize := .size6bits
        sn := b₀.toNat &&& 0x3F }
    if header.si = .fullSdu ∧ header.sn ≠ 0 then some header else readSo header bytes
  | .size12bits, b₀ :: bytes =>
    let header : Header :=
      { si := Si.ofValue ((b₀.toNat >>> 6) &&& 0x03)
        snSize := .size12bits
        sn := (b₀.toNat &&& 0x0F) <<< 8 }
    if header.si = .fullSdu ∧ header.sn ≠ 0 then some header
    else if header.si = .firstSegment ∧ (b₀.toNat >>> 4) &&& 0x03 ≠ 0 then some header
    else if header.si = .fullSdu then some header
    else
      match bytes with
      | b₁ :: bytes => readSo { header with sn := header.sn ||| (b₁.toNat &&& 0xFF) } bytes
      | [] => none
  | _, [] => none

theorem length_write (header : Header) : header.write.length = header.packedLength := by
  unfold write packedLength
  by_cases hfull : header.si = .fullSdu
  · simp [hfull]
  · cases hsize : header.snSize with
    | size6bits | size12bits => by_cases hso : header.so = 0 <;> simp [hfull, hso, snBytes]

/-! ## Round trip -/

theorem byte6_fields : ∀ si < 4, ∀ sn < 64,
    ((ofNat ((si &&& 0x03) <<< 6 ||| sn)).toNat >>> 6) &&& 0x03 = si ∧
      (ofNat ((si &&& 0x03) <<< 6 ||| sn)).toNat &&& 0x3F = sn := by
  decide +kernel

theorem byte12_fields : ∀ si < 4, ∀ high < 16,
    ((ofNat ((si &&& 0x03) <<< 6 ||| high)).toNat >>> 6) &&& 0x03 = si ∧
      (ofNat ((si &&& 0x03) <<< 6 ||| high)).toNat &&& 0x0F = high ∧
      ((ofNat ((si &&& 0x03) <<< 6 ||| high)).toNat >>> 4) &&& 0x03 = 0 := by
  decide +kernel

theorem value_lt (si : Si) : si.value < 4 := by
  cases si <;> decide

@[simp] theorem ofValue_value (si : Si) : Si.ofValue si.value = si := by
  cases si <;> rfl

theorem toNat_bytes {n : ℕ} (h : n < 2 ^ 16) : ((ofNat (n >>> 8)).toNat &&& 0xFF) <<< 8 |||
      ((ofNat (n &&& 0xFF)).toNat &&& 0xFF) = n := by
  have hhigh : (ofNat (n >>> 8)).toNat = n >>> 8 := by
    rw [toNat_ofNat', mod_eq_of_lt]
    omega
  have hmask : n >>> 8 &&& 0xFF = n >>> 8 := by
    rw [and_two_pow_sub_one_eq_mod (n >>> 8) 8, mod_eq_of_lt]
    omega
  rw [hhigh, hmask, toNat_ofNat_and_255, Nat.and_assoc, Nat.and_self]
  rw [and_two_pow_sub_one_eq_mod n 8, shiftRight_eq_div_pow,
    ← shiftLeft_add_eq_or_of_lt (Nat.mod_lt n (by decide)), shiftLeft_eq]
  omega

/-- The writer and the reader see the header alike: the offset is left out exactly where it is not
expected. -/
structure Valid (header : Header) : Prop where
  sn_lt : header.sn < header.snSize.mod
  so_lt : header.so < 2 ^ 16
  so_iff : header.so ≠ 0 ↔ header.si.hasSo = true
  sn_full : header.si = .fullSdu → header.sn = 0

theorem readSo_write {header : Header} (h : header.Valid) (rest : List UInt8) :
    readSo { header with so := 0 }
      ((if header.so = 0 then []
        else [ofNat (header.so >>> 8), ofNat (header.so &&& 0xFF)]) ++ rest) =
      some header := by
  obtain ⟨si, snSize, sn, so⟩ := header
  by_cases hso : so = 0
  · have hnone : si.hasSo = false := by
      rw [← Bool.not_eq_true, ← h.so_iff]
      exact not_not.mpr hso
    simp [readSo, hnone, hso]
  · have hsome : si.hasSo := h.so_iff.mp hso
    simp only [readSo, hsome, if_true, if_neg hso, List.cons_append, List.nil_append]
    rw [toNat_bytes h.so_lt]

theorem read_write_append {header : Header} (h : header.Valid) (rest : List UInt8) :
    read header.snSize (header.write ++ rest) = some header := by
  have hread := readSo_write h rest
  obtain ⟨si, snSize, sn, so⟩ := header
  by_cases hfull : si = .fullSdu
  · have hsn : sn = 0 := h.sn_full hfull
    have hso : so = 0 := by
      by_contra hne
      have := h.so_iff.mp hne
      simp [hfull, Si.hasSo] at this
    subst hfull hsn hso
    cases snSize with
    | size6bits => rfl
    | size12bits => rfl
  · cases snSize with
    | size6bits =>
      have hmask : sn &&& 0x3F = sn := by
        rw [and_two_pow_sub_one_eq_mod sn 6]
        exact mod_eq_of_lt h.sn_lt
      obtain ⟨hsi, hsn⟩ := byte6_fields si.value (value_lt si) sn h.sn_lt
      simp only [write, hmask, List.cons_append, List.nil_append, read, hsi, hsn,
        ofValue_value, hfull, false_and, if_false]
      exact hread
    | size12bits =>
      have hsnlt : sn < 4096 := h.sn_lt
      have hhigh : (sn >>> 8) &&& 0xF = sn >>> 8 := by
        rw [and_two_pow_sub_one_eq_mod (sn >>> 8) 4, mod_eq_of_lt]
        omega
      have hlt : sn >>> 8 < 16 := by
        omega
      obtain ⟨hsi, hsn, hreserved⟩ := byte12_fields si.value (value_lt si) _ hlt
      have hparts : (sn >>> 8) <<< 8 ||| ((ofNat (sn &&& 0xFF)).toNat &&& 0xFF) = sn := by
        have hbytes := @toNat_bytes sn (by omega)
        have hnat : (ofNat (sn >>> 8)).toNat &&& 0xFF = sn >>> 8 := by
          rw [toNat_ofNat', mod_eq_of_lt (by omega),
            and_two_pow_sub_one_eq_mod (sn >>> 8) 8, mod_eq_of_lt (by omega)]
        rw [hnat] at hbytes
        exact hbytes
      simp only [write, hhigh, List.cons_append, List.nil_append, read, hsi, hsn,
        ofValue_value, hfull, false_and, if_false, hreserved, ne_eq, not_true_eq_false, and_false,
        hparts]
      exact hread

end Header

end MbmsTx.Rlc.UmNr
