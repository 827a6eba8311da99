import Mathlib.Tactic.IntervalCases
import MbmsTx.Lib.Crc

/-!
# The checksums of transport and code blocks

`crc.c` keeps the register of a checksum in the low bits of a 64-bit word that is never masked, and
feeds it a byte at a time from a table. It returns the bits of the register, the check bits of what
was fed since the register was cleared (`Crc.Divides`).
-/

namespace MbmsTx.Phy.Fec

open ByteBits MbmsTx.Crc List BitVec

/-! ## The functions of the source -/

/-- `srsran_crc_t`, of which the result field is never used. -/
structure Crc where
  table : BitVec 8 → BitVec 64
  polynom : BitVec 32
  order : ℕ
  crcinit : BitVec 64
  crcmask : BitVec 64
  crchighbit : BitVec 64

namespace Crc

/-- One round of `gen_crc_table`. -/
def tableRound (polynom crchighbit : BitVec 32) (crc : BitVec 64) : BitVec 64 :=
  if crc &&& crchighbit.setWidth 64 ≠ 0 then (crc <<< 1) ^^^ polynom.setWidth 64 else crc <<< 1

def genCrcTable (h : Crc) : Crc :=
  let pad := if h.order < 8 then 8 - h.order else 0
  let ord := h.order + pad - 8
  let polynom := h.polynom <<< pad
  let crchighbit := (h.crchighbit <<< pad).setWidth 32
  { h with
    table := fun i =>
      let crc := (tableRound polynom crchighbit)^[8] (i.setWidth 64 <<< ord)
      (crc >>> pad) &&& h.crcmask }

/-- `srsran_crc_set_init`, and whether it accepts the value. -/
def setInit (h : Crc) (value : BitVec 64) : Crc × Bool :=
  ({ h with crcinit := value }, value = value &&& h.crcmask)

/-- `srsran_crc_init`; it fails only if 0 is no valid register. -/
def init (polynom : BitVec 32) (order : ℕ) : Crc :=
  genCrcTable
    { table := fun _ => 0
      polynom := polynom
      order := order
      crcinit := 0
      crcmask := (((1#64 <<< (order - 1)) - 1) <<< 1) ||| 1
      crchighbit := 1#64 <<< (order - 1) }

/-- `srsran_crc_checksum_put_byte`. -/
def putByte (h : Crc) (byte : BitVec 8) : Crc :=
  let crc := h.crcinit
  let idx :=
    if 8 < h.order then (crc >>> (h.order - 8)).setWidth 8 ^^^ byte
    else (crc <<< (8 - h.order)).setWidth 8 ^^^ byte
  { h with crcinit := (crc <<< 8) ^^^ h.table idx }

/-- `srsran_crc_checksum_get`. -/
def checksumGet (h : Crc) : BitVec 64 := h.crcinit &&& h.crcmask

/-- The `i`-th byte that is sent for a checksum. -/
def checksumByte (checksum : BitVec 32) (order i : ℕ) : BitVec 8 :=
  ((checksum >>> (8 * (order / 8 - i - 1))) &&& 0xff).setWidth 8

end Crc

/-- `SRSRAN_LTE_CRC24A`, the polynomial of transport blocks. -/
def lteCrc24a : BitVec 32 := 0x1864CFB

/-- `SRSRAN_LTE_CRC24B`, the polynomial of code blocks. -/
def lteCrc24b : BitVec 32 := 0x1800063

/-! ## The register follows the division -/

theorem setWidth_shiftLeft {m n : ℕ} (hn : n ≤ m) (x : BitVec m) (k : ℕ) :
    (x <<< k).setWidth n = x.setWidth n <<< k := by
  refine eq_of_getLsbD_eq ?_
  intro i hi
  have hm : i < m := by omega
  have hk : i - k < n := by omega
  simp only [getLsbD_setWidth, getLsbD_shiftLeft, hi, hm, hk, decide_true,
    Bool.true_and]

namespace Crc

variable {n : ℕ} {polynom : BitVec 32}

theorem and_highbit_ne_zero (hn : 8 ≤ n) (hlt : n < 32) (crc : BitVec 64) :
    crc &&& ((1#64 <<< (n - 1)).setWidth 32).setWidth 64 ≠ 0 ↔ (crc.setWidth n).msb := by
  have hpow : ((1#64 <<< (n - 1)).setWidth 32).setWidth 64 = twoPow 64 (n - 1) := by
    refine eq_of_getLsbD_eq ?_
    intro i hi
    simp only [← twoPow_eq, getLsbD_setWidth, getLsbD_twoPow]
    by_cases hplace : n - 1 = i
    · simp [hplace, hi, show i < 32 by omega]
    · simp [hplace]
  have hne : twoPow 64 (n - 1) ≠ 0#64 := by
    intro hzero
    have hbit := congrArg (fun v => v.getLsbD (n - 1)) hzero
    simp [show n - 1 < 64 by omega] at hbit
  have hmsb : (crc.setWidth n).msb = crc.getLsbD (n - 1) := by
    simp [msb_eq_getLsbD_last, show n - 1 < n by omega]
  rw [hpow, and_twoPow, hmsb]
  cases crc.getLsbD (n - 1) <;> simp [hne]

theorem setWidth_tableRound (hn : 8 ≤ n) (hlt : n < 32) (crc : BitVec 64) :
    (tableRound polynom ((1#64 <<< (n - 1)).setWidth 32) crc).setWidth n =
      push (polynom.setWidth n) (crc.setWidth n) false := by
  rw [tableRound, push, Bool.xor_false]
  by_cases hbit : (crc.setWidth n).msb
  · rw [if_pos ((and_highbit_ne_zero hn hlt crc).mpr hbit), if_pos hbit, setWidth_xor,
      setWidth_shiftLeft (by omega), setWidth_setWidth_of_le _ (by omega)]
  · rw [if_neg (mt (and_highbit_ne_zero hn hlt crc).mp hbit), if_neg hbit,
      setWidth_shiftLeft (by omega), xor_zero]

/-- The register holds what is left of a message, a table entry what is left of its index. -/
structure Divides (g : BitVec n) (h : Crc) (msg : List Bool) : Prop where
  order_eq : h.order = n
  crcmask_eq : h.crcmask = (allOnes n).setWidth 64
  table_eq : ∀ i, (h.table i).setWidth n = remainder g (bitsOf i)
  register_eq : h.crcinit.setWidth n = remainder g msg

variable {msg : List Bool} {g : BitVec n} {h : Crc}

theorem setWidth_and_mask (hlt : n < 32) (x : BitVec 64) :
    (x &&& (allOnes n).setWidth 64).setWidth n = x.setWidth n := by
  rw [setWidth_and, setWidth_setWidth_of_le _ (by omega), setWidth_eq,
    and_allOnes]

theorem setWidth_iterate_tableRound (hn : 8 ≤ n) (hlt : n < 32) (polynom : BitVec 32)
    (i : BitVec 8) :
    ((tableRound polynom ((1#64 <<< (n - 1)).setWidth 32))^[8]
      (i.setWidth 64 <<< (n - 8))).setWidth n = remainder (polynom.setWidth n) (bitsOf i) := by
  have hround : Function.Semiconj (setWidth n)
      (tableRound polynom ((1#64 <<< (n - 1)).setWidth 32)) (push (polynom.setWidth n) · false) :=
    setWidth_tableRound hn hlt
  rw [(hround.iterate_right 8).eq, setWidth_shiftLeft (by omega),
    setWidth_setWidth_of_le _ (by omega), remainder_bitsOf hn, tableEntry]

theorem setWidth_shiftRight_aligned (hn : n ≤ 8) {crc : BitVec 64} {r : BitVec n}
    (h : crc.setWidth 8 = aligned 8 r) : (crc >>> (8 - n)).setWidth n = r := by
  refine eq_of_getLsbD_eq ?_
  intro i hi
  have hbit : (crc.setWidth 8).getMsbD (n - 1 - i) = r.getMsbD (n - 1 - i) := by
    rw [h, getMsbD_aligned hn]
  have hplace : 8 - 1 - (n - 1 - i) = 8 - n + i := by omega
  have hback : n - 1 - (n - 1 - i) = i := by omega
  simp only [getMsbD, hplace, hback, getLsbD_setWidth] at hbit
  simpa [hi, show n - 1 - i < 8 by omega, show n - 1 - i < n by omega,
    show 8 - n + i < 8 by omega] using hbit

theorem aligned_setWidth {w : ℕ} (hw : 8 ≤ w) (hn : n ≤ 8) (x : BitVec w) :
    (x <<< (8 - n)).setWidth 8 = aligned 8 (x.setWidth n) := by
  refine eq_of_getLsbD_eq ?_
  intro i hi
  simp only [aligned, getLsbD_setWidth, getLsbD_shiftLeft]
  by_cases hlow : i < 8 - n
  · simp [hlow]
  · simp [hlow, hi, show i < w by omega, show i - (8 - n) < n by omega,
      show i - (8 - n) < 8 by omega]

theorem mask_eq_allOnes (hpos : 0 < n) (hlt : n < 32) :
    (((1#64 <<< (n - 1)) - 1) <<< 1) ||| 1 = (allOnes n).setWidth 64 := by
  interval_cases n <;> rfl

theorem init_table (hpos : 0 < n) (hlt : n < 32) (i : BitVec 8) :
    ((init polynom n).table i).setWidth n = remainder (polynom.setWidth n) (bitsOf i) := by
  have hmask := mask_eq_allOnes hpos hlt
  rcases lt_or_ge n 8 with hsmall | hn
  · have hpad : (if n < 8 then 8 - n else 0) = 8 - n := if_pos hsmall
    have hord : n + (8 - n) - 8 = 8 - 8 := by omega
    have hhigh : (1#64 <<< (n - 1)) <<< (8 - n) = 1#64 <<< (8 - 1) := by
      rw [← shiftLeft_add, show n - 1 + (8 - n) = 8 - 1 by omega]
    have hrounds := setWidth_iterate_tableRound (Nat.le_refl 8) (by decide) (polynom <<< (8 - n)) i
    rw [aligned_setWidth (by decide) hsmall.le, remainder_aligned hsmall.le] at hrounds
    simp only [init, genCrcTable, hpad, hmask, hord, hhigh, setWidth_and_mask hlt]
    exact setWidth_shiftRight_aligned hsmall.le hrounds
  · have hpad : (if n < 8 then 8 - n else 0) = 0 := if_neg (by omega)
    simp only [init, genCrcTable, hpad, hmask, shiftLeft_zero, ushiftRight_zero,
      add_zero, setWidth_and_mask hlt]
    exact setWidth_iterate_tableRound hn hlt polynom i

theorem divides_init (hpos : 0 < n) (hlt : n < 32) :
    Divides (polynom.setWidth n) (init polynom n) [] :=
  ⟨rfl, mask_eq_allOnes hpos hlt, init_table hpos hlt, by simp [init, genCrcTable, remainder]⟩

theorem setWidth_index (hn : 8 ≤ n) (hlt : n < 32) (crc : BitVec 64) (b : BitVec 8) :
    (if 8 < n then (crc >>> (n - 8)).setWidth 8 ^^^ b else (crc <<< (8 - n)).setWidth 8 ^^^ b) =
      (crc.setWidth n >>> (n - 8)).setWidth 8 ^^^ b := by
  have htop : (crc >>> (n - 8)).setWidth 8 = (crc.setWidth n >>> (n - 8)).setWidth 8 := by
    refine eq_of_getLsbD_eq ?_
    intro i hi
    simp [hi, show n - 8 + i < n by omega]
  rcases Nat.eq_or_lt_of_le hn with rfl | hlt
  · simp
  · rw [if_pos hlt, htop]

theorem Divides.putByte (hlt : n < 32) (hdiv : Divides g h msg) (b : BitVec 8) :
    Divides g (h.putByte b) (msg ++ bitsOf b) := by
  refine ⟨hdiv.order_eq, hdiv.crcmask_eq, hdiv.table_eq, ?_⟩
  rw [remainder_append]
  rcases lt_or_ge n 8 with hsmall | hn
  · have hgone : remainder g msg <<< 8 = 0#n := shiftLeft_eq_zero (by omega)
    simp only [Crc.putByte, hdiv.order_eq, if_neg (show ¬ 8 < n by omega),
      aligned_setWidth (by decide : 8 ≤ 64) hsmall.le, setWidth_xor,
      setWidth_shiftLeft (by omega : n ≤ 64), hdiv.table_eq, hdiv.register_eq]
    rw [hgone, zero_xor, foldl_push_of_le hsmall.le]
  · simp only [Crc.putByte, hdiv.order_eq, setWidth_index hn hlt, setWidth_xor,
      setWidth_shiftLeft (by omega : n ≤ 64), hdiv.table_eq, hdiv.register_eq]
    rw [foldl_push_byte hn, remainder_bitsOf hn]

theorem Divides.putBytes (hlt : n < 32) (hdiv : Divides g h msg) (bytes : List (BitVec 8)) :
    Divides g (bytes.foldl Crc.putByte h) (msg ++ bytes.flatMap bitsOf) := by
  induction bytes generalizing h msg with
  | nil => rwa [flatMap_nil, append_nil]
  | cons b bytes ih =>
    rw [foldl_cons, flatMap_cons, ← List.append_assoc]
    exact ih (hdiv.putByte hlt b)

theorem Divides.setInit (hdiv : Divides g h msg) : Divides g (h.setInit 0).1 [] :=
  ⟨hdiv.order_eq, hdiv.crcmask_eq, hdiv.table_eq, by simp [Crc.setInit, remainder]⟩

theorem Divides.checksumGet_eq (hdiv : Divides g h msg) :
    h.checksumGet.setWidth 32 = (remainder g msg).setWidth 32 := by
  rw [← hdiv.register_eq, checksumGet, hdiv.crcmask_eq]
  refine eq_of_getLsbD_eq ?_
  intro k hk
  by_cases hkn : k < n
  · simp [hk, hkn, show k < 64 by omega]
  · simp [hkn]

theorem flatMap_checksumByte (hlt : n < 32) (hn : n % 8 = 0) (v : BitVec n) :
    ((List.range (n / 8)).map (checksumByte (v.setWidth 32) n)).flatMap bitsOf = bitsOf v := by
  have hwidth : n = n / 8 * 8 := by omega
  have hbits : bitsOf v = (List.range (n / 8 * 8)).map v.getMsbD := by rw [← hwidth, bitsOf]
  rw [flatMap_map, hbits, Blocks.map_range_mul]
  refine flatMap_congr ?_
  intro i hi
  refine map_congr_left ?_
  intro j hj
  have hi := mem_range.mp hi
  have hj := mem_range.mp hj
  have hmask : (0xff#32).getLsbD (7 - j) := by
    revert j
    decide
  have hplace : 8 * (n / 8 - i - 1) + (8 - 1 - j) = n - 1 - (i * 8 + j) := by omega
  simp only [checksumByte, getMsbD, getLsbD_setWidth, getLsbD_and,
    getLsbD_ushiftRight, hplace, hj]
  simp [hmask, show i * 8 + j < n by omega, show n - 1 - (i * 8 + j) < 32 by omega,
    show 7 - j < 8 by omega]

end Crc

end MbmsTx.Phy.Fec
