import Mathlib.Algebra.Ring.Nat

/-!
# Configuration of the multicast channels

What the MAC and the PHY take over of SIB13 and the MCCH message: the MCCH configuration of the
MBSFN area, and the physical multicast channels (PMCH) with their sessions.
-/

namespace MbmsTx

/-- `mcch_cfg_t::repeat_period_t`: the MCCH repetition period, in frames. -/
inductive RepeatPeriod
  | rf1
  | rf2
  | rf4
  | rf8
  | rf16
  | rf32
  | rf64
  | rf128
  | rf256
  deriving DecidableEq

/-- `enum_to_number` of the repetition period. -/
def RepeatPeriod.toNumber : RepeatPeriod → ℕ
  | .rf1 => 1
  | .rf2 => 2
  | .rf4 => 4
  | .rf8 => 8
  | .rf16 => 16
  | .rf32 => 32
  | .rf64 => 64
  | .rf128 => 128
  | .rf256 => 256

/-- `mcch_cfg_t::sig_mcs_t`: the MCS of the signalling subframes. -/
inductive SigMcs
  | n2
  | n7
  | n13
  | n19
  deriving DecidableEq

/-- `enum_to_number` of the signalling MCS. -/
def SigMcs.toNumber : SigMcs → ℕ
  | .n2 => 2
  | .n7 => 7
  | .n13 => 13
  | .n19 => 19

/-- `mcch_cfg_t`. -/
structure McchCfg where
  mcchRepeatPeriod : RepeatPeriod
  mcchOffset : ℕ
  sfAllocInfo : ℕ
  sigMcs : SigMcs
  deriving DecidableEq

/-- `mbsfn_area_info_t::region_len_t`. -/
inductive RegionLen
  | s1
  | s2
  deriving DecidableEq

/-- `enum_to_number` of the length of the non-MBSFN region. -/
def RegionLen.toNumber : RegionLen → ℕ
  | .s1 => 1
  | .s2 => 2

/-- `mbsfn_area_info_t::subcarrier_spacing_t`. -/
inductive SubcarrierSpacing
  | khz7dot5
  | khz2dot5
  | khz1dot25
  | khz0dot25
  deriving DecidableEq

/-- `mbsfn_area_info_t`. -/
structure MbsfnAreaInfo where
  mbsfnAreaId : ℕ
  nonMbsfnRegionLen : RegionLen
  subcarrierSpacing : SubcarrierSpacing
  mcchCfg : McchCfg
  deriving DecidableEq

/-- `pmch_info_t::mch_sched_period_t`: the MCH scheduling period, in frames. -/
inductive MchSchedPeriod
  | rf8
  | rf16
  | rf32
  | rf64
  | rf128
  | rf256
  | rf512
  | rf1024
  deriving DecidableEq

/-- `enum_to_number` of the scheduling period. -/
def MchSchedPeriod.toNumber : MchSchedPeriod → ℕ
  | .rf8 => 8
  | .rf16 => 16
  | .rf32 => 32
  | .rf64 => 64
  | .rf128 => 128
  | .rf256 => 256
  | .rf512 => 512
  | .rf1024 => 1024

/-- The LCID of a multicast traffic channel; 0 is the MCCH. -/
abbrev MtchLcid := { lcid : ℕ // 1 ≤ lcid ∧ lcid ≤ 28 }

/-- The MCS of a PMCH is one of 29. -/
instance neZeroMcs : NeZero 29 := ⟨by decide⟩

/-- `pmch_info_t`. The data MCS is at most 28, as RRC makes sure; a session is its LCID. -/
structure PmchInfo where
  sfAllocEnd : ℕ
  dataMcs : Fin 29
  mchSchedPeriod : MchSchedPeriod
  mbmsSessionInfoList : List MtchLcid
  deriving DecidableEq

/-- A scheduling period is a multiple of the four frames between CAS subframes, and divides the SFN
cycle. -/
theorem MchSchedPeriod.toNumber_dvd (period : MchSchedPeriod) :
    4 ∣ period.toNumber ∧ period.toNumber ∣ 1024 ∧ 0 < period.toNumber := by
  cases period <;> decide

end MbmsTx
