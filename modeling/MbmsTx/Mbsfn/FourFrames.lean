import MbmsTx.Mbsfn.Occasions
import Mathlib.Tactic.IntervalCases

/-!
# Subframe allocations over four frames in the UE

The UE unpacks the 24 bits of an allocation into a table that starts at the first allocated frame,
and looks it up with the frame inside the allocation period.
-/

namespace MbmsTx.Mbsfn

open MbmsTx.Phy

/-- `mbsfn_sf_cfg_t::alloc_period_t`: the allocation period, in frames. -/
inductive AllocPeriod
  | n1
  | n2
  | n4
  | n8
  | n16
  | n32
  deriving DecidableEq

/-- `enum_to_number` of the allocation period. -/
def AllocPeriod.toNumber : AllocPeriod → ℕ
  | .n1 => 1
  | .n2 => 2
  | .n4 => 4
  | .n8 => 8
  | .n16 => 16
  | .n32 => 32

/-- `mbsfn_sf_cfg_t` of an allocation over four frames. -/
structure FourFrameCfg where
  radioframeAllocPeriod : AllocPeriod
  radioframeAllocOffset : UInt8
  sfAlloc : ℕ

/-- `generate_mch_table` for four frames, of a table that was reset. -/
def generateMchTable (sfAlloc : ℕ) : List ℕ :=
  (List.range 4).flatMap fun j => generateMcchTable (sfAlloc >>> (6 * (3 - j)))

/-- `srsue::phy_common::is_mch_subframe` with an allocation over four frames: the configuration it
leaves, and its result. A read beyond the table is `none`. -/
def ueIsMchSubframe (phy : PhyCommon) (subfrCnfg : FourFrameCfg) (cfg : MbsfnCfg) (phyTti : ℕ) :
    Option (MbsfnCfg × Bool) :=
  let sfn := phyTti / 10
  let sf := phyTti % 10
  let cfg :=
    { cfg with
        mbsfnAreaId := 0
        nonMbsfnRegionLength := 1
        mbsfnMcs := 2
        enable := false
        isMcch := false }
  match ueIsMcchSubframe phy cfg phyTti with
  | none => none
  | some (cfg, true) => some ({ cfg with isMcch := true }, true)
  | some (cfg, false) =>
    if phy.sib13Configured then
      let offset := subfrCnfg.radioframeAllocOffset.toNat
      let idx := sfn % subfrCnfg.radioframeAllocPeriod.toNumber
      if offset ≤ idx ∧ idx < offset + 4 then
        (generateMchTable subfrCnfg.sfAlloc)[idx * 10 + sf]?.map fun entry =>
          if 0 < entry then
            ({ cfg with
                mbsfnAreaId := phy.mbsfnAreaInfo.mbsfnAreaId
                nonMbsfnRegionLength := phy.mbsfnAreaInfo.nonMbsfnRegionLen.toNumber }, true)
          else (cfg, false)
      else some (cfg, false)
    else some (cfg, false)

/-- The bit for a subframe among the six of a frame. -/
def subframeBit : ℕ → Option ℕ
  | 1 => some 5
  | 2 => some 4
  | 3 => some 3
  | 6 => some 2
  | 7 => some 1
  | 8 => some 0
  | _ => none

/-- Subframe `sf` of the frame `j` behind the first allocated one is allocated. -/
def HasSubframe (sfAlloc j sf : ℕ) : Prop :=
  ∃ bit, subframeBit sf = some bit ∧ sfAlloc.testBit (6 * (3 - j) + bit)

/-- The frame of a TTI behind the first allocated one of its period. -/
def allocatedFrame (c : FourFrameCfg) (tti : ℕ) : ℕ :=
  (((tti / 10 : ℕ) - c.radioframeAllocOffset.toNat : ℤ) % c.radioframeAllocPeriod.toNumber).toNat

/-- The configuration allocates this subframe. -/
def Allocated (c : FourFrameCfg) (tti : ℕ) : Prop :=
  allocatedFrame c tti < 4 ∧ HasSubframe c.sfAlloc (allocatedFrame c tti) (tti % 10)

/-- Apart from the MCCH occasions, the table is read within its bounds and selects the allocated
subframes. -/
def SelectsAllocated (area : MbsfnAreaInfo) (pmchs : List PmchInfo) (c : FourFrameCfg)
    (cfg : MbsfnCfg) (tti : ℕ) : Prop :=
  McchDue area tti ∨ ∃ cfg' selected,
    ueIsMchSubframe (.configured area pmchs) c cfg tti = some (cfg', selected) ∧
      (selected = true ↔ Allocated c tti)

theorem pos_masked_iff {alloc bit : ℕ} (h : bit < 6) :
    0 < ((alloc &&& 0x3F) >>> bit) &&& 1 ↔ alloc.testBit bit := by
  have hmask := Nat.and_two_pow_sub_one_eq_mod alloc 6
  have htest : (alloc % 2 ^ 6).testBit bit = alloc.testBit bit := by
    rw [Nat.testBit_mod_two_pow, decide_eq_true h, Bool.true_and]
  rw [hmask, ← htest, Nat.testBit, Nat.and_comm 1, bne_iff_ne, Nat.pos_iff_ne_zero]

theorem exists_entry (sfAlloc : ℕ) {j sf : ℕ} (hj : j < 4) (hsf : sf < 10) :
    ∃ entry, (generateMchTable sfAlloc)[j * 10 + sf]? = some entry ∧
      (0 < entry ↔ HasSubframe sfAlloc j sf) := by
  have hframe : (generateMchTable sfAlloc)[j * 10 + sf]? =
      (generateMcchTable (sfAlloc >>> (6 * (3 - j))))[sf]? := by
    interval_cases j <;> interval_cases sf <;> rfl
  simp only [hframe, HasSubframe, ← Nat.testBit_shiftRight]
  generalize sfAlloc >>> (6 * (3 - j)) = alloc
  have hbit : ∀ bit, subframeBit sf = some bit → bit < 6 ∧
      (generateMcchTable alloc)[sf]? = some (((alloc &&& 0x3F) >>> bit) &&& 1) := by
    intro bit hsome
    interval_cases sf <;> cases hsome <;> exact ⟨by decide, rfl⟩
  cases hsome : subframeBit sf with
  | none =>
    refine ⟨0, ?_, by simp⟩
    interval_cases sf <;> first | rfl | cases hsome
  | some bit =>
    obtain ⟨hlt, hentry⟩ := hbit bit hsome
    refine ⟨_, hentry, (pos_masked_iff hlt).trans ?_⟩
    simp

/-- The rest of `is_mch_subframe`, without an MCCH in the subframe. -/
theorem ueIsMchSubframe_of_not_due {area : MbsfnAreaInfo} {tti : ℕ} (hdue : ¬ McchDue area tti)
    (pmchs : List PmchInfo) (period : AllocPeriod) (offset : UInt8) (sfAlloc : ℕ) (cfg : MbsfnCfg) :
    ∃ cfg₀ cfg₁, ueIsMchSubframe (.configured area pmchs) ⟨period, offset, sfAlloc⟩ cfg tti =
      if offset.toNat ≤ tti / 10 % period.toNumber ∧
          tti / 10 % period.toNumber < offset.toNat + 4 then
        (generateMchTable sfAlloc)[tti / 10 % period.toNumber * 10 + tti % 10]?.map fun entry =>
          if 0 < entry then (cfg₁, true) else (cfg₀, false)
      else some (cfg₀, false) := by
  rw [ueIsMchSubframe, ueIsMcchSubframe,
    mcchSubframe_of_not_due (RepeatPeriod.toNumber_lt_two_pow _) _ _ _ hdue]
  exact ⟨_, _, rfl⟩

theorem selectsAllocated_zero (area : MbsfnAreaInfo) (pmchs : List PmchInfo) (cfg : MbsfnCfg)
    (tti : ℕ) (period : AllocPeriod) (sfAlloc : ℕ) :
    SelectsAllocated area pmchs ⟨period, 0, sfAlloc⟩ cfg tti := by
  refine or_iff_not_imp_left.mpr fun hdue => ?_
  obtain ⟨cfg₀, cfg₁, heq⟩ := ueIsMchSubframe_of_not_due hdue pmchs period 0 sfAlloc cfg
  have hframe : allocatedFrame ⟨period, 0, sfAlloc⟩ tti = tti / 10 % period.toNumber := by
    rfl
  rw [heq, Allocated, hframe]
  by_cases hfour : tti / 10 % period.toNumber < 4
  · obtain ⟨entry, hentry, hpos⟩ := exists_entry sfAlloc hfour (Nat.mod_lt tti (by decide))
    rw [if_pos ⟨Nat.zero_le _, by simpa using hfour⟩, hentry, Option.map_some]
    split
    · next h => exact ⟨_, _, rfl, iff_of_true rfl ⟨hfour, hpos.mp h⟩⟩
    · next h => exact ⟨_, _, rfl, iff_of_false (by decide) fun hsf => h (hpos.mpr hsf.2)⟩
  · rw [if_neg fun h => hfour (by simpa using h.2)]
    exact ⟨_, _, rfl, iff_of_false (by decide) fun hsf => hfour hsf.1⟩

/-- An area without MCCH. -/
def areaWithoutMcch : MbsfnAreaInfo := ⟨1, .s1, .khz1dot25, ⟨.rf1, 0, 0, .n2⟩⟩

/-- The first allocated frame is not found at its offset. -/
theorem not_selectsAllocated {offset : UInt8} (h : offset ≠ 0) (period : AllocPeriod)
    (pmchs : List PmchInfo) (cfg : MbsfnCfg) :
    ¬ SelectsAllocated areaWithoutMcch pmchs ⟨period, offset, 2 ^ 23⟩ cfg
      (offset.toNat * 10 + 1) := by
  have hsf : (offset.toNat * 10 + 1) % 10 = 1 := by omega
  have hsfn : (offset.toNat * 10 + 1) / 10 = offset.toNat := by omega
  have hdue : ¬ McchDue areaWithoutMcch (offset.toNat * 10 + 1) := by
    rintro ⟨-, hpos⟩
    rw [hsf] at hpos
    exact absurd hpos (by decide)
  have hallocated : Allocated ⟨period, offset, 2 ^ 23⟩ (offset.toNat * 10 + 1) := by
    rw [Allocated, allocatedFrame, hsfn, hsf, Int.sub_self, Int.zero_emod]
    exact ⟨by decide, 5, rfl, (by decide : (2 ^ 23).testBit 23 = true)⟩
  rintro (hmcch | ⟨cfg', selected, hselected, hiff⟩)
  · exact hdue hmcch
  obtain rfl := hiff.mpr hallocated
  obtain ⟨cfg₀, cfg₁, heq⟩ := ueIsMchSubframe_of_not_due hdue pmchs period offset (2 ^ 23) cfg
  rw [heq, hsfn, hsf] at hselected
  split at hselected
  · -- the frame is found in the period, and its offset is taken for a row of the table
    next hfound =>
    have hrow := le_antisymm (Nat.mod_le ..) hfound.1
    rw [hrow] at hselected
    have hpos : 0 < offset.toNat := Nat.pos_of_ne_zero fun hzero => h (UInt8.toNat_inj.mp hzero)
    have hrows : ∀ j < 4, 0 < j → (generateMchTable (2 ^ 23))[j * 10 + 1]? = some 0 := by decide
    have hlength : (generateMchTable (2 ^ 23)).length = 40 := rfl
    rcases lt_or_ge offset.toNat 4 with hlt | hge
    · rw [hrows _ hlt hpos] at hselected
      cases hselected
    · rw [List.getElem?_eq_none (by omega)] at hselected
      cases hselected
  · cases hselected

/-- The allocated subframes are selected exactly if the allocation has no offset. -/
theorem selectsAllocated_iff (period : AllocPeriod) (offset : UInt8) :
    (∀ area pmchs cfg tti, ∀ sfAlloc < 2 ^ 24,
      SelectsAllocated area pmchs ⟨period, offset, sfAlloc⟩ cfg tti) ↔ offset = 0 := by
  constructor
  · intro h
    by_contra hoffset
    exact not_selectsAllocated hoffset period [] ⟨0, 1, 2, false, false, .khz15⟩
      (h _ _ _ _ _ (by decide))
  · rintro rfl area pmchs cfg tti sfAlloc -
    exact selectsAllocated_zero area pmchs cfg tti period sfAlloc

/-- With an offset of one frame the first allocated frame is missed, and the last one is looked up
behind the table. -/
theorem not_selectsAllocated_offset_one : let cfg : MbsfnCfg := ⟨0, 1, 2, false, false, .khz15⟩
    Allocated ⟨.n8, 1, 2 ^ 23⟩ 11 ∧
      ueIsMchSubframe (.configured areaWithoutMcch []) ⟨.n8, 1, 2 ^ 23⟩ cfg 11 = some (cfg, false) ∧
      ueIsMchSubframe (.configured areaWithoutMcch []) ⟨.n8, 1, 2 ^ 23⟩ cfg 41 = none :=
  ⟨⟨by decide, 5, rfl, rfl⟩, rfl, rfl⟩

end MbmsTx.Mbsfn
