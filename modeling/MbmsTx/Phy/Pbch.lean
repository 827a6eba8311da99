import MbmsTx.Lib.Bits
import MbmsTx.Phy.Common

/-!
# The master information block on the broadcast channel

`putMib` packs the bandwidth and the high bits of the system frame number (SFN), and hands the
payload to the PBCH encoder together with the quarter of the 40 ms (or, for a dedicated MBMS cell,
160 ms) period. A receiver rebuilds the SFN from the high bits and the quarter it detected.

The payload keeps 8 of the 10 SFN bits in an ordinary MIB, but 6 in a MIB-MBMS, so the quarter
counts frames in the one and groups of four frames in the other. `putMib` computes it as
`sfn / 4 % 4` for both: right for a dedicated cell, for an ordinary cell only when it is zero.
-/

namespace MbmsTx.Phy

open Bits

/-! ## Packing and unpacking -/

/-- The bandwidth index that both MIBs carry. -/
def mibBandwidth (nofPrb : ℕ) : ℕ :=
  if nofPrb ≤ 6 then 0
  else if nofPrb ≤ 15 then 1
  else 1 + nofPrb / 25

/-- The number of resource blocks of a bandwidth index. -/
def mibNofPrb : ℕ → ℕ
  | 0 => 6
  | 1 => 15
  | bwIdx => (bwIdx - 1) * 25

/-- The two-bit code of the PHICH resources. -/
def phichResBits : PhichR → ℕ
  | .r1over6 => 0
  | .r1over2 => 1
  | .r1 => 2
  | .r2 => 3

/-- `srsran_pbch_mib_pack`. -/
def pbchMibPack (cell : Cell) (sfn : ℕ) : List ℕ :=
  unpack (mibBandwidth cell.nofPrb) 3 ++
    ((if cell.phichLength = .ext then 1 else 0) ::
      (unpack (phichResBits cell.phichResources) 2 ++
        (unpack (sfn >>> 2) 8 ++ List.replicate 10 0)))

/-- `srsran_pbch_mib_mbms_pack`. -/
def pbchMibMbmsPack (cell : Cell) (sfn additionalNonMbsfnSubframes : ℕ) : List ℕ :=
  unpack (mibBandwidth cell.nofPrb) 3 ++
    (unpack (sfn >>> 4) 6 ++ ((additionalNonMbsfnSubframes % 256) :: List.replicate 14 0))

/-- `srsran_pbch_mib_unpack`: the cell, and the SFN. -/
def pbchMibUnpack (msg : List ℕ) (cell : Cell) : Cell × ℕ :=
  let (bwIdx, msg) := read 3 msg
  let phichLength := if msg.headD 0 ≠ 0 then PhichLength.ext else .norm
  let (phichRes, msg) := read 2 msg.tail
  let phichResources :=
    match phichRes with
    | 0 => PhichR.r1over6
    | 1 => .r1over2
    | 2 => .r1
    | _ => .r2
  let (sfn, _) := read 8 msg
  ({ cell with
      nofPrb := mibNofPrb bwIdx
      phichLength := phichLength
      phichResources := phichResources }, sfn <<< 2)

/-- `srsran_pbch_mib_mbms_unpack`: the cell, the SFN and the number of additional non-MBSFN
subframes. An `overridePrb` other than `-1` replaces the bandwidth. -/
def pbchMibMbmsUnpack (msg : List ℕ) (cell : Cell) (overridePrb : ℤ) : Cell × ℕ × ℕ :=
  let (bwIdx, msg) := read 3 msg
  let nofPrb := if overridePrb ≠ -1 then overridePrb.toNat else mibNofPrb bwIdx
  let (sfn, msg) := read 6 msg
  ({ cell with nofPrb := nofPrb }, sfn <<< 4, msg.headD 0)

/-- What `srsran_pbch_encode` sends: the payload and the quarter of its coded bits. -/
structure PbchBlock where
  bchPayload : List ℕ
  frameIdx : ℕ
  deriving DecidableEq

/-- `srsran_pbch_encode`. -/
def pbchEncode (bchPayload : List ℕ) (frameIdx : ℕ) : PbchBlock :=
  { bchPayload := bchPayload, frameIdx := frameIdx % 4 }

def putMib (cell : Cell) (tti : ℕ) : Option PbchBlock :=
  let sfIdx := tti % 10
  let sfn := tti / 10
  if sfn % 4 = 0 ∧ sfIdx = 0 then
    let bchPayload :=
      if cell.mbmsDedicated then pbchMibMbmsPack cell sfn cell.additionalNonMbmsFrames
      else pbchMibPack cell sfn
    some (pbchEncode bchPayload (sfn / 4 % 4))
  else none

/-! ## The receiver -/

/-- The cell and the SFN that a receiver obtains: the unpacked SFN plus the detected quarter,
counted in frames for an ordinary MIB (`sfn_sync::decode_mib`) and in groups of four frames for a
MIB-MBMS. -/
def decodeMib (cell : Cell) (block : PbchBlock) : Cell × ℕ :=
  if cell.mbmsDedicated then
    let (unpacked, sfn, _) := pbchMibMbmsUnpack block.bchPayload cell (-1)
    (unpacked, (sfn + 4 * block.frameIdx) % 1024)
  else
    let (unpacked, sfn) := pbchMibUnpack block.bchPayload cell
    (unpacked, (sfn + block.frameIdx) % 1024)

/-! ## Round trips -/

theorem mibNofPrb_mibBandwidth {nofPrb : ℕ} (hprb : nofPrb ∈ standardBandwidths) :
    mibNofPrb (mibBandwidth nofPrb % 8) = nofPrb := by
  simp only [standardBandwidths, List.mem_cons, List.not_mem_nil, or_false] at hprb
  rcases hprb with rfl | rfl | rfl | rfl | rfl | rfl <;> rfl

theorem pbchMibUnpack_pack (cell other : Cell) {sfn : ℕ} (hsfn : sfn < 1024)
    (hprb : cell.nofPrb ∈ standardBandwidths) :
    (pbchMibUnpack (pbchMibPack cell sfn) other).1.nofPrb = cell.nofPrb ∧
      (pbchMibUnpack (pbchMibPack cell sfn) other).2 = sfn / 4 * 4 := by
  have hhigh : sfn >>> 2 % 256 = sfn / 4 := by
    omega
  simp [pbchMibUnpack, pbchMibPack, mibNofPrb_mibBandwidth hprb, hhigh, Nat.shiftLeft_eq]

theorem pbchMibMbmsUnpack_pack (cell other : Cell) {sfn : ℕ} (additional : ℕ) (hsfn : sfn < 1024)
    (hprb : cell.nofPrb ∈ standardBandwidths) :
    (pbchMibMbmsUnpack (pbchMibMbmsPack cell sfn additional) other (-1)).1.nofPrb = cell.nofPrb ∧
      (pbchMibMbmsUnpack (pbchMibMbmsPack cell sfn additional) other (-1)).2.1 = sfn / 16 * 16 := by
  have hhigh : sfn >>> 4 % 64 = sfn / 16 := by
    omega
  simp [pbchMibMbmsUnpack, pbchMibMbmsPack, mibNofPrb_mibBandwidth hprb, hhigh, Nat.shiftLeft_eq]

theorem putMib_eq_some {cell : Cell} {tti : ℕ} {block : PbchBlock}
    (hblock : putMib cell tti = some block) :
    tti / 10 % 4 = 0 ∧ tti % 10 = 0 ∧
      block =
        { bchPayload :=
            if cell.mbmsDedicated then
              pbchMibMbmsPack cell (tti / 10) cell.additionalNonMbmsFrames
            else pbchMibPack cell (tti / 10)
          frameIdx := tti / 10 / 4 % 4 } := by
  by_cases hcas : tti / 10 % 4 = 0 ∧ tti % 10 = 0
  · simp only [putMib, if_pos hcas, Option.some.injEq] at hblock
    refine ⟨hcas.1, hcas.2, ?_⟩
    rw [← hblock, pbchEncode, Nat.mod_mod]
  · simp [putMib, if_neg hcas] at hblock

/-- The receiver recovers the SFN and the bandwidth exactly when the cell is a dedicated MBMS cell
or the quarter is the first one. -/
theorem decodeMib_putMib_iff (cell : Cell) (tti : ℕ) {block : PbchBlock} (htti : tti < 10240)
    (hprb : cell.nofPrb ∈ standardBandwidths) (hblock : putMib cell tti = some block) :
    ((decodeMib cell block).2 = tti / 10 ∧ (decodeMib cell block).1.nofPrb = cell.nofPrb) ↔
      cell.mbmsDedicated = true ∨ tti / 10 % 16 = 0 := by
  obtain ⟨hframe, -, rfl⟩ := putMib_eq_some hblock
  have hsfn : tti / 10 < 1024 := by omega
  cases hcell : cell.mbmsDedicated with
  | true =>
    obtain ⟨hbw, hunpacked⟩ :=
      pbchMibMbmsUnpack_pack cell cell cell.additionalNonMbmsFrames hsfn hprb
    simp [decodeMib, hcell, hbw, hunpacked]
    omega
  | false =>
    obtain ⟨hbw, hunpacked⟩ := pbchMibUnpack_pack cell cell hsfn hprb
    simp [decodeMib, hcell, hbw, hunpacked]
    omega

/-- A dedicated MBMS cell of 25 resource blocks. -/
def dedicatedCell25 : Cell :=
  { nofPrb := 25
    phichLength := .norm
    phichResources := .r1
    mbmsDedicated := true
    additionalNonMbmsFrames := 0 }

theorem decodeMib_putMib_sfn_four : ∃ block, putMib dedicatedCell25 40 = some block ∧
      (decodeMib dedicatedCell25 block).2 = 4 ∧
      (decodeMib dedicatedCell25 block).1.nofPrb = 25 :=
  ⟨_, rfl, (decodeMib_putMib_iff dedicatedCell25 40 (by decide) (by decide) rfl).2 (.inl rfl)⟩

/-- An ordinary cell announces frame 4 as frame 5: its quarter index counts single frames. -/
theorem decodeMib_putMib_ordinary_cell :
    ∃ block, putMib { dedicatedCell25 with mbmsDedicated := false } 40 = some block ∧
      (decodeMib { dedicatedCell25 with mbmsDedicated := false } block).2 = 40 / 10 + 1 :=
  ⟨_, rfl, by decide⟩

end MbmsTx.Phy
