import MbmsTx.Phy.Fec.Bit
import MbmsTx.Phy.Fec.Crc

/-!
# The checksum of any bit string

`crc.c` computes a checksum a byte at a time. For a message that is not a whole number of bytes it
appends zero bits and then takes them back, one division by `X` for each; this needs a generator
whose constant term is 1. So the checksum is the remainder of the message for every length
(`crcChecksum_eq`), and a message with its checksum attached leaves nothing.
-/

namespace MbmsTx.Phy.Fec

open ByteBits Memory MbmsTx.Crc Polynomial List
open BitVec (slt getMsbD getLsbD_setWidth eq_of_getLsbD_eq getLsbD_of_ge)

namespace Crc

/-! ## The functions of the source -/

/-- One round of `reversecrcbit`. -/
def reverseRound (polynom crc : BitVec 32) : BitVec 32 :=
  if crc &&& 1 = 1 then (crc ^^^ polynom) >>> 1 else crc >>> 1

def reversecrcbit (h : Crc) (crc : BitVec 32) (nbits : ℕ) : BitVec 64 :=
  ((reverseRound h.polynom)^[nbits] crc).setWidth 64 &&& h.crcmask

/-- Eight unpacked bits as a byte: the comparison of all lanes with 0, in reverse order, or
`srsran_bit_pack`. -/
def packByte (sse : Bool) (pter : ℕ → BitVec 8) : BitVec 8 :=
  if sse then
    (range 8).foldl (fun byte l =>
      if slt 0#8 (pter (7 - l)) then byte ||| (1#8 <<< l) else byte) 0#8
  else (bitPack pter 8 &&& 0xff#32).setWidth 8

/-- The bits of the last byte. -/
def packRest (pter : ℕ → BitVec 8) (res8 : ℕ) : BitVec 8 :=
  (range res8).foldl (fun byte k => byte ||| (pter k <<< (7 - k))) 0#8

/-- `srsran_crc_checksum`; `sse` is whether vector instructions are compiled. -/
def crcChecksum (sse : Bool) (h : Crc) (data : ℕ → BitVec 8) (len : ℕ) : Crc × BitVec 32 :=
  let h := (h.setInit 0).1
  let len8 := len / 8
  let res8 := len - len8 * 8
  let a := if 0 < res8 then 1 else 0
  let h := (range (len8 + a)).foldl (fun h i =>
    let pter := fun k => data (8 * i + k)
    h.putByte (if i = len8 then packRest pter res8 else packByte sse pter)) h
  let crc := h.checksumGet.setWidth 32
  (h, if a = 1 then (h.reversecrcbit crc (8 - res8)).setWidth 32 else crc)

/-- `srsran_crc_checksum_byte`. -/
def crcChecksumByte (h : Crc) (data : ℕ → BitVec 8) (len : ℕ) : Crc × BitVec 32 :=
  let h := (h.setInit 0).1
  let h := (range (len / 8)).foldl (fun h i => h.putByte (data i)) h
  (h, h.checksumGet.setWidth 32)

/-- `srsran_crc_attach_byte`, and the data that it leaves. -/
def crcAttachByte (h : Crc) (data : ℕ → BitVec 8) (len : ℕ) : Crc × (ℕ → BitVec 8) :=
  let (h, checksum) := h.crcChecksumByte data len
  (h, (range (h.order / 8)).foldl (fun data i =>
    Function.update data (len / 8 + (h.order / 8 - i - 1))
      (((checksum &&& (0xff#32 <<< (8 * i))) >>> (8 * i)).setWidth 8)) data)

/-- `srsran_crc_attach`, and the data that it leaves. -/
def crcAttach (sse : Bool) (h : Crc) (data : ℕ → BitVec 8) (len : ℕ) : Crc × (ℕ → BitVec 8) :=
  let (h, checksum) := h.crcChecksum sse data len
  (h, bitUnpack checksum data len h.order)

/-- `srsran_crc_match`. -/
def crcMatch (sse : Bool) (h : Crc) (data : ℕ → BitVec 8) (len : ℕ) : Bool :=
  (h.crcChecksum sse data (len + h.order)).2 = 0

/-- `srsran_crc_match_byte`. -/
def crcMatchByte (h : Crc) (data : ℕ → BitVec 8) (len : ℕ) : Bool :=
  (h.crcChecksumByte data (len + h.order)).2 = 0

/-! ## Packing -/

theorem getMsbD_packByte (sse : Bool) (b : ℕ → Bool) {j : ℕ} (hj : j < 8) :
    (packByte sse fun k => toBit (b k)).getMsbD j = b j := by
  have hslt : ∀ b : Bool, slt 0#8 (toBit b) = b := by decide
  cases sse
  · have hone : (0xff#32).getLsbD (8 - 1 - j) := by
      revert j
      decide
    have hplace : 8 - 1 - (8 - 1 - j) = j := by omega
    have hlt : 8 - 1 - j < 8 := by omega
    rw [packByte, if_neg (by decide), getMsbD, getLsbD_setWidth, BitVec.getLsbD_and,
      getLsbD_bitPack b (by decide), hone, hplace, decide_eq_true hj, decide_eq_true hlt,
      Bool.true_and, Bool.true_and, Bool.true_and, Bool.and_true]
  · have hplace : 7 - (8 - 1 - j) = j := by omega
    simp only [packByte, or_ite_zero, hslt, if_true]
    rw [getMsbD, bit_foldl_or (·.getLsbD (8 - 1 - j))
      (b := fun l => b (7 - l)) (by simp) (by simp), hplace, decide_eq_true hj,
      decide_eq_true (by omega), Bool.true_and, Bool.true_and]
    intro l hl
    cases b (7 - l) <;> simp [← BitVec.twoPow_eq, BitVec.getLsbD_twoPow, hl]

theorem getMsbD_packRest (b : ℕ → Bool) {n j : ℕ} (hn : n ≤ 8) (hj : j < 8) :
    (packRest (fun k => toBit (b k)) n).getMsbD j = (decide (j < n) && b j) :=
  bit_foldl_or (·.getMsbD j) (by simp) (by simp) fun _ hk =>
    getMsbD_toBit_shiftLeft _ (by omega) hj

theorem packByte_congr (sse : Bool) {pter pter' : ℕ → BitVec 8} (h : ∀ k < 8, pter k = pter' k) :
    packByte sse pter = packByte sse pter' := by
  have hsse : (range 8).foldl (fun byte l =>
      if slt 0#8 (pter (7 - l)) then byte ||| (1#8 <<< l) else byte) 0#8 =
      (range 8).foldl (fun byte l =>
        if slt 0#8 (pter' (7 - l)) then byte ||| (1#8 <<< l) else byte) 0#8 := by
    refine foldl_ext _ _ _ ?_
    intro byte l _
    rw [h (7 - l) (by omega)]
  have hpack : bitPack pter 8 = bitPack pter' 8 := by
    refine foldl_ext _ _ _ ?_
    intro value i hi
    rw [h i (mem_range.mp hi)]
  rw [packByte, packByte, hsse, hpack]

theorem packRest_congr {pter pter' : ℕ → BitVec 8} {n : ℕ} (h : ∀ k < n, pter k = pter' k) :
    packRest pter n = packRest pter' n := by
  refine foldl_ext _ _ _ ?_
  intro byte k hk
  rw [h k (mem_range.mp hk)]

/-- The byte that is put in as number `i`. -/
def packed (sse : Bool) (data : ℕ → BitVec 8) (len i : ℕ) : BitVec 8 :=
  if i = len / 8 then packRest (fun k => data (8 * i + k)) (len - len / 8 * 8)
  else packByte sse fun k => data (8 * i + k)

variable {data : ℕ → BitVec 8}

theorem crcChecksum_congr (sse : Bool) (h : Crc) {data' : ℕ → BitVec 8} {len : ℕ}
    (hdata : ∀ k < len, data k = data' k) :
    h.crcChecksum sse data len = h.crcChecksum sse data' len := by
  have hloop : (range (len / 8 + (if 0 < len - len / 8 * 8 then 1 else 0))).foldl
      (fun h i => h.putByte (packed sse data len i)) (h.setInit 0).1 =
      (range (len / 8 + (if 0 < len - len / 8 * 8 then 1 else 0))).foldl
        (fun h i => h.putByte (packed sse data' len i)) (h.setInit 0).1 := by
    refine foldl_ext _ _ _ ?_
    intro h i hi
    rw [mem_range] at hi
    congr 1
    refine ite_congr rfl (fun _ => packRest_congr ?_) fun _ => packByte_congr sse ?_
    · exact fun k hk => hdata _ (by omega)
    · refine fun k hk => hdata _ ?_
      split at hi <;> omega
  simp only [packed] at hloop
  rw [crcChecksum, crcChecksum]
  rw [hloop]

/-! ## Taking back zero bits -/

/-- A polynomial of degree `n` with the constant term 1. -/
structure IsGenerator (polynom : BitVec 32) (n : ℕ) : Prop where
  pos : 1 ≤ n
  le : n ≤ 24
  leading : polynom.getLsbD n = true
  above : ∀ i, n < i → polynom.getLsbD i = false
  constant : polynom.getLsbD 0 = true

section Generator

variable {n : ℕ} {polynom : BitVec 32}

theorem IsGenerator.poly_eq (hg : IsGenerator polynom n) :
    poly polynom = generator (polynom.setWidth n) := by
  have hle := hg.le
  obtain ⟨k, hk⟩ : ∃ k, 32 = n + 1 + k := ⟨31 - n, by omega⟩
  have hlow : ∀ i ∈ Finset.range n,
      C (MbmsTx.Crc.coeff (polynom.getLsbD i)) * (X : (ZMod 2)[X]) ^ i =
      C (MbmsTx.Crc.coeff ((polynom.setWidth n).getLsbD i)) * X ^ i := by
    intro i hi
    simp [Finset.mem_range.mp hi]
  have hhigh : ∀ i ∈ Finset.range k, C (MbmsTx.Crc.coeff (polynom.getLsbD (n + 1 + i))) *
      (X : (ZMod 2)[X]) ^ (n + 1 + i) = 0 := by
    intro i _
    rw [hg.above (n + 1 + i) (by omega)]
    simp [MbmsTx.Crc.coeff]
  have hsum : poly polynom =
      ∑ i ∈ Finset.range (n + 1 + k), C (MbmsTx.Crc.coeff (polynom.getLsbD i)) * X ^ i := by
    rw [← hk, poly]
  rw [hsum, Finset.sum_range_add, Finset.sum_eq_zero hhigh, Finset.sum_range_succ, hg.leading,
    Finset.sum_congr rfl hlow, generator, poly]
  simp [MbmsTx.Crc.coeff, add_comm]

theorem getLsbD_push (v : BitVec n) (k : ℕ) : (push (polynom.setWidth n) v false).getLsbD k =
    (decide (k < n) && ((decide (1 ≤ k) && v.getLsbD (k - 1)) ^^
      (v.msb && polynom.getLsbD k))) := by
  rw [push, BitVec.getLsbD_xor, BitVec.getLsbD_shiftLeft, Bool.xor_false]
  by_cases hk : k < n
  · cases v.msb <;> cases k <;> simp [hk]
  · cases v.msb <;> simp [hk]

theorem getLsbD_reverseRound (crc : BitVec 32) (k : ℕ) : (reverseRound polynom crc).getLsbD k =
      (crc.getLsbD (k + 1) ^^ (crc.getLsbD 0 && polynom.getLsbD (k + 1))) := by
  have hlowest : crc &&& 1 = 1 ↔ crc.getLsbD 0 := by
    rw [show (1 : BitVec 32) = 1#32 from rfl, BitVec.and_one_eq_setWidth_ofBool_getLsbD]
    cases crc.getLsbD 0 <;> decide
  rw [reverseRound, add_comm k 1]
  cases hbit : crc.getLsbD 0
  · rw [if_neg (by rw [hlowest, hbit]; decide), BitVec.getLsbD_ushiftRight, Bool.false_and,
      Bool.xor_false]
  · rw [if_pos (hlowest.mpr hbit), BitVec.getLsbD_ushiftRight, BitVec.getLsbD_xor, Bool.true_and]

/-- A round takes back a zero bit: as the constant term is 1, the lowest bit tells whether the
generator was subtracted. -/
theorem reverseRound_push (hg : IsGenerator polynom n) (v : BitVec n) :
    reverseRound polynom ((push (polynom.setWidth n) v false).setWidth 32) = v.setWidth 32 := by
  have hpos := hg.pos
  have hle := hg.le
  have hlast : v.getLsbD (n - 1) = v.msb := (BitVec.msb_eq_getLsbD_last v).symm
  refine eq_of_getLsbD_eq ?_
  intro k hk
  rw [getLsbD_reverseRound, getLsbD_setWidth, getLsbD_setWidth, getLsbD_setWidth,
    getLsbD_push, getLsbD_push, hg.constant, Nat.add_sub_cancel]
  rcases lt_trichotomy (k + 1) n with hlt | heq | hgt
  · cases v.msb <;> cases polynom.getLsbD (k + 1) <;>
      simp [hlt, hk, show 0 < n by omega, show k + 1 < 32 by omega]
  · have hk' : k = n - 1 := by omega
    rw [heq, hg.leading, hk', hlast]
    simp [show 0 < n by omega, show n - 1 < 32 by omega]
  · rw [hg.above (k + 1) (by omega), getLsbD_of_ge v k (by omega)]
    simp

theorem iterate_reverseRound (hg : IsGenerator polynom n) (v : BitVec n) (k : ℕ) :
    (reverseRound polynom)^[k] (((push (polynom.setWidth n) · false)^[k] v).setWidth 32) =
      v.setWidth 32 := by
  induction k with
  | zero => rfl
  | succ k ih =>
    rw [Function.iterate_succ_apply, Function.iterate_succ_apply', reverseRound_push hg, ih]

theorem and_mask_setWidth (v : BitVec n) :
    ((v.setWidth 32).setWidth 64 &&& (BitVec.allOnes n).setWidth 64).setWidth 32 =
      v.setWidth 32 := by
  refine eq_of_getLsbD_eq ?_
  intro k hk
  by_cases hkn : k < n
  · simp [hk, hkn]
  · simp [hkn, getLsbD_of_ge v k (by omega)]

variable {h : Crc} {msg : List Bool} {bytes : List (BitVec 8)}

theorem Divides.foldl_putByte {g : BitVec n} (hlt : n < 32) (hdiv : Divides g h []) (b : ℕ → Bool)
    (byte : ℕ → BitVec 8) {m : ℕ}
    (hbyte : ∀ i < m, bitsOf (byte i) = (range 8).map fun j => b (8 * i + j)) :
    Divides g ((range m).foldl (fun h i => h.putByte (byte i)) h) ((range (8 * m)).map b) := by
  refine Blocks.foldl_range (P := fun i h => Divides g h ((range (8 * i)).map b)) ?_ hdiv
  intro h i hi hdiv
  have hrange : (range (8 * (i + 1))).map b =
      (range (8 * i)).map b ++ bitsOf (byte i) := by
    rw [hbyte i hi, Nat.mul_succ, range_add, map_append, map_map]
    rfl
  rw [hrange]
  exact hdiv.putByte hlt (byte i)

/-- A byte of the message, with zero bits after its end. -/
theorem bitsOf_packed (sse : Bool) (b : ℕ → Bool) {len i : ℕ} (hi : 8 * i < len) :
    bitsOf (packed sse (fun k => toBit (b k)) len i) =
      (range 8).map fun j => decide (8 * i + j < len) && b (8 * i + j) := by
  refine map_congr_left ?_
  intro j hj
  rw [mem_range] at hj
  rw [packed]
  split
  · have hiff : j < len - len / 8 * 8 ↔ 8 * i + j < len := by omega
    rw [getMsbD_packRest (fun k => b (8 * i + k)) (by omega) hj, decide_eq_decide.mpr hiff]
  · rw [getMsbD_packByte sse (fun k => b (8 * i + k)) hj, decide_eq_true (by omega), Bool.true_and]

theorem map_range_padded (b : ℕ → Bool) (len k : ℕ) :
    ((range (len + k)).map fun i => decide (i < len) && b i) =
      (range len).map b ++ replicate k false := by
  rw [range_add, map_append, map_map]
  congr 1
  · refine map_congr_left ?_
    intro i hi
    rw [decide_eq_true (mem_range.mp hi), Bool.true_and]
  · refine eq_replicate_iff.mpr ⟨by simp, ?_⟩
    simp

theorem masked_byte (checksum : BitVec 32) {i : ℕ} (hi : i < 4) :
    ((checksum &&& (0xff#32 <<< (8 * i))) >>> (8 * i)).setWidth 8 =
      ((checksum >>> (8 * i)) &&& 0xff).setWidth 8 := by
  refine eq_of_getLsbD_eq ?_
  intro j hj
  have hmask : (0xff#32).getLsbD j := by
    revert j
    decide
  simp only [getLsbD_setWidth, BitVec.getLsbD_ushiftRight, BitVec.getLsbD_and,
    BitVec.getLsbD_shiftLeft]
  simp [hmask, show 8 * i + j < 32 by omega]

/-! ## The checksum -/

/-- An engine that has been set up, and perhaps used. -/
def Ready (polynom : BitVec 32) (n : ℕ) (h : Crc) : Prop := (h.setInit 0).1 = init polynom n

section

variable (hready : Ready polynom n h)
include hready

theorem Ready.setInit (value : BitVec 64) : Ready polynom n (h.setInit value).1 := hready

theorem Ready.foldl_putByte (byte : ℕ → BitVec 8) (m : ℕ) :
    Ready polynom n ((range m).foldl (fun h i => h.putByte (byte i)) h) := by
  induction m with
  | zero => exact hready
  | succ m ih =>
    rw [range_succ, foldl_append]
    assumption

theorem Ready.order_eq : h.order = n :=
  congrArg Crc.order hready

theorem Ready.polynom_eq : h.polynom = polynom :=
  congrArg Crc.polynom hready

theorem Ready.crcChecksum (sse : Bool) (data : ℕ → BitVec 8)
    (len : ℕ) : Ready polynom n (h.crcChecksum sse data len).1 :=
  (hready.setInit 0).foldl_putByte (packed sse data len) _

theorem Ready.crcChecksumByte (data : ℕ → BitVec 8) (len : ℕ) :
    Ready polynom n (h.crcChecksumByte data len).1 :=
  (hready.setInit 0).foldl_putByte data _

variable (hg : IsGenerator polynom n)
include hg

theorem Ready.divides : Divides (polynom.setWidth n) (h.setInit 0).1 [] := by
  have hle := hg.le
  rw [hready]
  exact divides_init hg.pos (by omega)

theorem crcChecksum_eq (sse : Bool) (b : ℕ → Bool) (len : ℕ) :
    (h.crcChecksum sse (fun k => toBit (b k)) len).2 =
      (remainder (polynom.setWidth n) ((range len).map b)).setWidth 32 := by
  have hle := hg.le
  obtain ⟨a, ha⟩ : ∃ a, (if 0 < len - len / 8 * 8 then 1 else 0) = a := ⟨_, rfl⟩
  -- the message is completed to whole bytes
  have hdiv := (hready.divides hg).foldl_putByte (by omega) (fun i => decide (i < len) && b i)
    (packed sse (fun k => toBit (b k)) len) (m := len / 8 + a) (by
      intro i hi
      refine bitsOf_packed sse b ?_
      split at ha <;> omega)
  have hkeep := (hready.setInit 0).foldl_putByte (packed sse (fun k => toBit (b k)) len)
    (len / 8 + a)
  simp only [packed] at hdiv hkeep
  rw [crcChecksum]
  rw [ha]
  split at ha
  · subst ha
    have hpad : 8 * (len / 8 + 1) = len + (8 - (len - len / 8 * 8)) := by omega
    rw [hpad, map_range_padded] at hdiv
    rw [if_pos rfl, hdiv.checksumGet_eq, reversecrcbit, hkeep.polynom_eq, hdiv.crcmask_eq,
        remainder_append, foldl_push_replicate_false, iterate_reverseRound hg, and_mask_setWidth]
  · subst ha
    have hpad : 8 * (len / 8 + 0) = len + 0 := by omega
    rw [hpad, map_range_padded, replicate_zero, append_nil] at hdiv
    rw [if_neg (by decide), hdiv.checksumGet_eq]

theorem crcChecksumByte_eq (data : ℕ → BitVec 8) (m : ℕ) : (h.crcChecksumByte data (8 * m)).2 =
      (remainder (polynom.setWidth n) ((range (8 * m)).map (bitAt data))).setWidth 32 := by
  have hle := hg.le
  have hbits : ∀ i < m, bitsOf (data i) = (range 8).map fun j => bitAt data (8 * i + j) := by
    intro i _
    refine map_congr_left ?_
    intro j hj
    rw [bitAt_mul_add data i (mem_range.mp hj)]
  have hdiv := (hready.divides hg).foldl_putByte (by omega) (bitAt data) data hbits
  rw [crcChecksumByte]
  rw [Nat.mul_div_cancel_left m (by decide), hdiv.checksumGet_eq]

/-! ## Messages in memory -/

theorem crcChecksum_holds (sse : Bool) (hdata : Holds data 0 (msg.map toBit)) :
    (h.crcChecksum sse data msg.length).2 = (remainder (polynom.setWidth n) msg).setWidth 32 := by
  have hread : ∀ k < msg.length, data k = toBit (msg.getD k false) := by
    intro k hk
    have hget := congrArg (fun xs => xs[k]?) hdata
    simpa [slice, hk] using hget
  have hmsg : (range msg.length).map (fun k => msg.getD k false) = msg := by
    refine ext_getElem (by simp) ?_
    intro k hk hk'
    simp [hk']
  rw [crcChecksum_congr sse h hread, crcChecksum_eq hready hg, hmsg]

theorem crcChecksumByte_holds (hdata : Holds data 0 bytes) :
    (h.crcChecksumByte data (8 * bytes.length)).2 =
      (remainder (polynom.setWidth n) (bytes.flatMap bitsOf)).setWidth 32 := by
  have hbits : (range (8 * bytes.length)).map (bitAt data) = bytes.flatMap bitsOf := by
    have hslice := flatMap_bitsOf_slice data 0 bytes.length
    rw [hdata] at hslice
    simpa [slice] using hslice.symm
  rw [crcChecksumByte_eq hready hg, hbits]

theorem crcMatch_of_holds (sse : Bool)
    (hdata : Holds data 0 ((msg ++ bitsOf (remainder (polynom.setWidth n) msg)).map toBit)) :
    h.crcMatch sse data msg.length := by
  have hlen : msg.length + h.order =
      (msg ++ bitsOf (remainder (polynom.setWidth n) msg)).length := by
    rw [length_append, length_bitsOf, hready.order_eq]
  rw [crcMatch, hlen, crcChecksum_holds hready hg sse hdata, remainder_append_bitsOf]
  simp

theorem holds_crcAttach (sse : Bool) (hdata : Holds data 0 (msg.map toBit)) :
    Holds (h.crcAttach sse data msg.length).2 0
      ((msg ++ bitsOf (remainder (polynom.setWidth n) msg)).map toBit) := by
  have hle := hg.le
  have hattach : (h.crcAttach sse data msg.length).2 =
      bitUnpack ((remainder (polynom.setWidth n) msg).setWidth 32) data msg.length n := by
    rw [crcAttach]
    dsimp only
    rw [crcChecksum_holds hready hg sse hdata, (hready.crcChecksum sse data msg.length).order_eq]
  have hbefore := slice_bitUnpack_before ((remainder (polynom.setWidth n) msg).setWidth 32) data
    msg.length n
  have hafter := slice_bitUnpack (by omega) (remainder (polynom.setWidth n) msg) data msg.length
  rw [hattach, map_append, holds_append, Holds, Holds, length_map, length_map,
    length_bitsOf, hbefore, zero_add]
  refine ⟨?_, hafter⟩
  rwa [Holds, length_map] at hdata

theorem holds_crcAttachByte (hdata : Holds data 0 bytes) :
    Holds (h.crcAttachByte data (8 * bytes.length)).2 0 (bytes ++
      (range (n / 8)).map (checksumByte
        ((remainder (polynom.setWidth n) (bytes.flatMap bitsOf)).setWidth 32) n)) := by
  have hle := hg.le
  obtain ⟨checksum, hchecksum⟩ : ∃ checksum,
    (remainder (polynom.setWidth n) (bytes.flatMap bitsOf)).setWidth 32 = checksum := ⟨_, rfl⟩
  have hattach : (h.crcAttachByte data (8 * bytes.length)).2 =
      (range (n / 8)).foldl (fun data i =>
        Function.update data (bytes.length + (n / 8 - i - 1))
          (((checksum &&& (0xff#32 <<< (8 * i))) >>> (8 * i)).setWidth 8)) data := by
    rw [crcAttachByte]
    dsimp only
    rw [crcChecksumByte_holds hready hg hdata, hchecksum,
      (hready.crcChecksumByte data (8 * bytes.length)).order_eq,
      Nat.mul_div_cancel_left bytes.length (by decide)]
  rw [hchecksum, hattach, holds_append]
  constructor
  · refine (slice_congr ?_).trans hdata
    intro k hk
    rw [foldl_update_sub, if_neg (by omega)]
  · rw [Holds, length_map, length_range, slice]
    refine map_congr_left ?_
    intro k hk
    rw [mem_range] at hk
    have hplace : n / 8 - 1 - (0 + bytes.length + k - bytes.length) = n / 8 - k - 1 := by omega
    rw [foldl_update_sub, if_pos (by omega), hplace, masked_byte checksum (by omega), checksumByte]

theorem slice_bitAt_crcAttachByte (hn : n % 8 = 0) (hdata : Holds data 0 bytes) :
    slice (bitAt (h.crcAttachByte data (8 * bytes.length)).2) 0 (8 * bytes.length + n) =
      bytes.flatMap bitsOf ++ bitsOf (remainder (polynom.setWidth n) (bytes.flatMap bitsOf)) := by
  have hle := hg.le
  have hholds := holds_crcAttachByte hready hg hdata
  have hlen : 8 * bytes.length + n = 8 * (bytes.length + n / 8) := by omega
  rw [Holds, length_append, length_map, length_range] at hholds
  rw [hlen, ← mul_zero 8, ← flatMap_bitsOf_slice, hholds, flatMap_append,
    flatMap_checksumByte (by omega) hn]

end

/-! ## The engine -/

/-- For a generator, the checksum of a bit string is its remainder, the checksum of bytes is the one
of their bits, and what was attached is accepted. -/
structure EngineCorrect (polynom : BitVec 32) (n : ℕ) : Prop where
  checksum : ∀ (sse : Bool) (h : Crc) (data : ℕ → BitVec 8) (msg : List Bool),
    Ready polynom n h → Holds data 0 (msg.map toBit) →
      poly (h.crcChecksum sse data msg.length).2 = (messagePoly msg * X ^ n) %ₘ poly polynom
  checksumByte : ∀ (sse : Bool) (h h' : Crc) (data data' : ℕ → BitVec 8) (bytes : List (BitVec 8)),
    Ready polynom n h → Ready polynom n h' → Holds data 0 bytes →
      Holds data' 0 ((bytes.flatMap bitsOf).map toBit) →
      (h.crcChecksumByte data (8 * bytes.length)).2 =
        (h'.crcChecksum sse data' (8 * bytes.length)).2
  attach : ∀ (sse sse' : Bool) (h h' : Crc) (data : ℕ → BitVec 8) (msg : List Bool),
    Ready polynom n h → Ready polynom n h' → Holds data 0 (msg.map toBit) →
      h'.crcMatch sse' (h.crcAttach sse data msg.length).2 msg.length = true
  attachByte : n % 8 = 0 → ∀ (sse : Bool) (h h' : Crc) (data data' : ℕ → BitVec 8)
    (bytes : List (BitVec 8)), Ready polynom n h → Ready polynom n h' → Holds data 0 bytes →
      h'.crcMatchByte (h.crcAttachByte data (8 * bytes.length)).2 (8 * bytes.length) = true ∧
      (Holds data' 0 ((slice (bitAt (h.crcAttachByte data (8 * bytes.length)).2) 0
          (8 * bytes.length + n)).map toBit) →
        h'.crcMatch sse data' (8 * bytes.length) = true)
  ready : ∀ (sse : Bool) (h : Crc) (data : ℕ → BitVec 8) (len : ℕ), Ready polynom n h →
    Ready polynom n (h.crcChecksum sse data len).1 ∧
      Ready polynom n (h.crcChecksumByte data len).1 ∧
      Ready polynom n (h.crcAttach sse data len).1 ∧ Ready polynom n (h.crcAttachByte data len).1

theorem engineCorrect_of_isGenerator (hg : IsGenerator polynom n) : EngineCorrect polynom n where
  checksum sse h data msg hready hdata := by
    have hle := hg.le
    rw [crcChecksum_holds hready hg sse hdata, poly_setWidth (by omega), poly_remainder, hg.poly_eq]
  checksumByte sse h h' data data' bytes hready hready' hdata hdata' := by
    have hlen : 8 * bytes.length = (bytes.flatMap bitsOf).length := by
      simp [mul_comm]
    rw [crcChecksumByte_holds hready hg hdata, hlen, crcChecksum_holds hready' hg sse hdata']
  attach sse sse' h h' data msg hready hready' hdata :=
    crcMatch_of_holds hready' hg sse' (holds_crcAttach hready hg sse hdata)
  attachByte hn sse h h' data data' bytes hready hready' hdata := by
    have hattached := slice_bitAt_crcAttachByte hready hg hn hdata
    constructor
    · have hlen : 8 * bytes.length + n = 8 * (bytes.length + n / 8) := by omega
      have hbits : (range (8 * (bytes.length + n / 8))).map
          (bitAt (h.crcAttachByte data (8 * bytes.length)).2) =
          bytes.flatMap bitsOf ++
            bitsOf (remainder (polynom.setWidth n) (bytes.flatMap bitsOf)) := by
        rw [← hattached, slice, hlen]
        simp
      rw [crcMatchByte, hready'.order_eq, hlen, crcChecksumByte_eq hready' hg, hbits,
        remainder_append_bitsOf]
      simp
    · intro hdata'
      have hlen : 8 * bytes.length = (bytes.flatMap bitsOf).length := by
        simp [mul_comm]
      rw [hattached] at hdata'
      rw [hlen]
      exact crcMatch_of_holds hready' hg sse hdata'
  ready sse h data len hready :=
    ⟨hready.crcChecksum sse data len, hready.crcChecksumByte data len,
      hready.crcChecksum sse data len, hready.crcChecksumByte data len⟩

end Generator

theorem isGenerator_lteCrc24a : IsGenerator lteCrc24a 24 where
  pos := by decide
  le := by decide
  leading := by decide
  above i hi := by
    have hsmall : ∀ i < 32, 24 < i → lteCrc24a.getLsbD i = false := by decide
    rcases lt_or_ge i 32 with hlt | hge
    · exact hsmall i hlt hi
    · exact getLsbD_of_ge _ _ hge
  constant := by decide

theorem engineCorrect_lteCrc24a : IsGenerator lteCrc24a 24 ∧
    Ready lteCrc24a 24 (init lteCrc24a 24) ∧ EngineCorrect lteCrc24a 24 :=
  ⟨isGenerator_lteCrc24a, rfl, engineCorrect_of_isGenerator isGenerator_lteCrc24a⟩

end Crc

end MbmsTx.Phy.Fec
