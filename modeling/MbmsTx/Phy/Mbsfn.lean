import MbmsTx.Common.Mbms
import MbmsTx.Phy.Tbs

/-!
# MBSFN subframes in the physical layer

For each TTI the PHY decides from the frame structure whether the subframe carries multicast data,
with which MCS, and whether it is an MCCH occasion (`isMchSubframe`), and encodes the PMCH
accordingly. A remainder by a repetition period that was truncated to zero traps, which is `none`
here.
-/

namespace MbmsTx.Phy

/-- The fields of `srsran_mbsfn_cfg_t`. -/
structure MbsfnCfg where
  mbsfnAreaId : ℕ
  nonMbsfnRegionLength : ℕ
  mbsfnMcs : ℕ
  enable : Bool
  isMcch : Bool
  subcarrierSpacing : Scs
  deriving DecidableEq

/-- The MBSFN part of `phy_common`. -/
structure PhyCommon where
  sib13Configured : Bool
  mcchConfigured : Bool
  mbsfnAreaInfo : MbsfnAreaInfo
  pmchInfoList : List PmchInfo
  mcchTable : List ℕ
  deriving DecidableEq

/-- `generate_mcch_table`: the subframes that the six allocation bits select. -/
def generateMcchTable (sfAlloc : ℕ) : List ℕ :=
  let alloc := sfAlloc &&& 0x3F
  [0, (alloc >>> 5) &&& 1, (alloc >>> 4) &&& 1, (alloc >>> 3) &&& 1, 0, 0,
    (alloc >>> 2) &&& 1, (alloc >>> 1) &&& 1, (alloc >>> 0) &&& 1, 0]

/-- `phy_common` after `configure_mbsfn` and `init`, with the MCCH table. -/
def PhyCommon.configured (area : MbsfnAreaInfo) (pmchInfoList : List PmchInfo) : PhyCommon :=
  { sib13Configured := true
    mcchConfigured := true
    mbsfnAreaInfo := area
    pmchInfoList := pmchInfoList
    mcchTable := generateMcchTable area.mcchCfg.sfAllocInfo }

/-- The CAS subframes, which are never MBSFN subframes. -/
def isCasSubframe (tti : ℕ) : Bool := tti / 10 % 4 = 0 && tti % 10 = 0

theorem isCasSubframe_iff (tti : ℕ) : isCasSubframe tti ↔ tti % 40 = 0 := by
  simp [isCasSubframe]
  omega

/-- The body of `is_mcch_subframe` on both sides of the air interface: the configuration it leaves,
and its result. The period has `w` bits. -/
def mcchSubframe (w : ℕ) (found : MbsfnCfg → MbsfnCfg) (phy : PhyCommon) (cfg : MbsfnCfg)
    (phyTti : ℕ) : Option (MbsfnCfg × Bool) :=
  let sfn := phyTti / 10
  let sf := phyTti % 10
  if phy.sib13Configured then
    let area := phy.mbsfnAreaInfo
    let offset := area.mcchCfg.mcchOffset % 256
    let period := area.mcchCfg.mcchRepeatPeriod.toNumber % 2 ^ w
    if period = 0 then none
    else if sfn % period = offset ∧ phy.mcchTable.getD sf 0 > 0 then
      some
        (found
          { cfg with
            mbsfnAreaId := area.mbsfnAreaId
            nonMbsfnRegionLength := area.nonMbsfnRegionLen.toNumber
            mbsfnMcs := area.mcchCfg.sigMcs.toNumber
            enable := true }, true)
    else some (cfg, false)
  else some (cfg, false)

/-- `is_mcch_subframe` of the eNB, with the period in eight bits. -/
def isMcchSubframe : PhyCommon → MbsfnCfg → ℕ → Option (MbsfnCfg × Bool) :=
  mcchSubframe 8 fun cfg => { cfg with isMcch := true }

/-- The index of a subframe in the scheduling period without the CAS subframes; `fn` is the frame in
the period. -/
def sfIdx (fn sf : ℕ) : ℤ := (fn * 10 + sf : ℤ) - (fn / 4 : ℕ) - 1

/-- The loop of `is_mch_subframe` over the PMCHs; `prev` is the previous one. -/
def findPmch (sigMcs sfn sf : ℕ) (cfg : MbsfnCfg) : Option PmchInfo → List PmchInfo → MbsfnCfg
  | _, [] => cfg
  | prev, pmch :: rest =>
    let fnInSchedulingPeriod := sfn % pmch.mchSchedPeriod.toNumber
    let sfIdx := sfIdx fnInSchedulingPeriod sf
    if sfIdx ≤ pmch.sfAllocEnd then
      let first : Bool :=
        match prev with
        | none => fnInSchedulingPeriod = 0 && sf = 1
        | some prev => (prev.sfAllocEnd + 1 : ℤ) = sfIdx
      { cfg with
          mbsfnMcs := if first then sigMcs else pmch.dataMcs
          enable := true
          nonMbsfnRegionLength := 0 }
    else findPmch sigMcs sfn sf cfg (some pmch) rest

def isMchSubframe (phy : PhyCommon) (phyTti : ℕ) : Option (MbsfnCfg × Bool) :=
  let sfn := phyTti / 10
  let sf := phyTti % 10
  let cfg : MbsfnCfg :=
    { mbsfnAreaId := 0
      nonMbsfnRegionLength := 1
      mbsfnMcs := 2
      enable := false
      isMcch := false
      subcarrierSpacing := .khz15 }
  if isCasSubframe phyTti then some (cfg, false)
  else
    let area := phy.mbsfnAreaInfo
    let cfg :=
      { cfg with
          subcarrierSpacing :=
            match area.subcarrierSpacing with
            | .khz1dot25 => .khz1p25
            | .khz7dot5 => .khz7p5
            | _ => .khz15 }
    match isMcchSubframe phy cfg phyTti with
    | none => none
    | some (cfg, true) => some (cfg, true)
    | some (cfg, false) =>
      if ¬ phy.mcchConfigured then some (cfg, false)
      else if phy.sib13Configured then
        let cfg :=
          { cfg with
              mbsfnAreaId := area.mbsfnAreaId
              nonMbsfnRegionLength := area.nonMbsfnRegionLen.toNumber }
        some (findPmch area.mcchCfg.sigMcs.toNumber sfn sf cfg none phy.pmchInfoList, true)
      else some (cfg, true)

def isMbsfnSf (phy : PhyCommon) (phyTti : ℕ) : Option (MbsfnCfg × Bool) :=
  isMchSubframe phy phyTti

/-! ## Encoding the PMCH -/

/-- What the encoder looks at of the PMCH grant. -/
structure PmchGrant where
  nofPrb : ℕ
  mcsIdx : ℕ
  enabled : Bool
  tbs : ℤ
  nofRe : ℕ
  deriving DecidableEq

/-- `srsran_ra_dl_grant_nof_re` in an MBSFN subframe of 1.25 kHz, as `cc_worker::work_dl` has it:
the resource elements of the granted blocks that are not pilots. -/
def raDlGrantNofRe (nofPrb mbsfnPrb : ℕ) : ℕ :=
  min nofPrb mbsfnPrb * (nreScs .khz1p25 * mbsfnNofSymbols .khz1p25 - 24)

/-- `srsran_configure_pmch` and `srsran_ra_dl_compute_nof_re`. -/
def configurePmch (nofPrb mbsfnPrb : ℕ) (mbsfnCfg : MbsfnCfg) : PmchGrant :=
  { nofPrb := mbsfnPrb
    mcsIdx := mbsfnCfg.mbsfnMcs
    enabled := mbsfnCfg.enable
    tbs := dlFillRaMcs mbsfnCfg.mbsfnMcs 0 mbsfnPrb false
    nofRe := raDlGrantNofRe nofPrb mbsfnPrb }

/-- Whether `srsran_pmch_encode` encodes a transport block of the grant's size and maps it to the
resource grid. It does not look at the data pointer: from a null pointer it rate-matches what the
encoder still holds. -/
def pmchEncodes (nofPrb : ℕ) (grant : PmchGrant) : Bool :=
  let maxRe :=
    nofPrb * (mbsfnNofSlots .khz1p25 * mbsfnNofSymbols .khz1p25 * nreScs .khz1p25)
  grant.tbs ≠ 0 && grant.nofRe ≤ maxRe

/-- `cc_worker::work_dl` in an MBSFN subframe: whether a block is encoded. -/
def workDlEncodes (nofPrb mbsfnPrb : ℕ) (mbsfnCfg : MbsfnCfg) : Bool :=
  mbsfnCfg.enable && pmchEncodes nofPrb (configurePmch nofPrb mbsfnPrb mbsfnCfg)

end MbmsTx.Phy
