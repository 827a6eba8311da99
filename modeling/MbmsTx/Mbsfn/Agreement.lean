import MbmsTx.Mac.MchPdu
import MbmsTx.Mbsfn.Occasions

/-!
# MAC and PHY in one MBSFN subframe

In each MBSFN subframe the PHY chooses the MCS and decides from the frame structure whether to
encode a transport block, while the MAC builds the PDU from its own state. The two must agree on the
size, and there must be a PDU whenever a block is encoded.

They agree in MCCH subframes and behind the allocated part of the period. In between the PHY encodes
a block whether there is a PDU or not, and the first subframe of a scheduling period gets the
signalling MCS even if it is no MCCH subframe.
-/

namespace MbmsTx.Mbsfn

open MbmsTx.Phy MbmsTx.Mac ByteBuffer

/-- The PHY, configured with the same values as the MAC. -/
def phyOf (cfg : MchCfg) : PhyCommon := .configured cfg.area [cfg.pmch]

/-- The index of the subframe in its scheduling period. -/
def pmchSfIdx (pmch : PmchInfo) (tti : ℕ) : ℤ :=
  sfIdx (tti / 10 % pmch.mchSchedPeriod.toNumber) (tti % 10)

/-- The subframe is the first one of a scheduling period. -/
def FirstOfPeriod (pmch : PmchInfo) (tti : ℕ) : Prop :=
  tti / 10 % pmch.mchSchedPeriod.toNumber = 0 ∧ tti % 10 = 1

instance (pmch : PmchInfo) (tti : ℕ) : Decidable (FirstOfPeriod pmch tti) :=
  inferInstanceAs (Decidable (_ ∧ _))

/-! ## What the PHY decides -/

theorem isMbsfnSf_cases {cfg : MchCfg} {tti : ℕ} {mbsfnCfg : MbsfnCfg}
    (hsf : isMbsfnSf (phyOf cfg) tti = some (mbsfnCfg, true)) :
    (McchDue cfg.area tti ∧ mbsfnCfg.isMcch ∧ mbsfnCfg.enable ∧
        mbsfnCfg.mbsfnMcs = cfg.area.mcchCfg.sigMcs.toNumber) ∨
      (¬ McchDue cfg.area tti ∧ mbsfnCfg.isMcch = false ∧
        (mbsfnCfg.enable ↔ pmchSfIdx cfg.pmch tti ≤ cfg.pmch.sfAllocEnd) ∧
        (mbsfnCfg.enable → mbsfnCfg.mbsfnMcs =
          if FirstOfPeriod cfg.pmch tti then cfg.area.mcchCfg.sigMcs.toNumber
          else cfg.pmch.dataMcs)) := by
  by_cases hcas : isCasSubframe tti
  · simp [isMbsfnSf, isMchSubframe, hcas] at hsf
  by_cases hperiod : cfg.area.mcchCfg.mcchRepeatPeriod = .rf256
  · simp [isMbsfnSf, isMchSubframe, hcas, phyOf, isMcchSubframe_rf256 hperiod] at hsf
  have hmod := Nat.mod_eq_of_lt (RepeatPeriod.toNumber_lt hperiod)
  have hne := (RepeatPeriod.toNumber_pos cfg.area.mcchCfg.mcchRepeatPeriod).ne'
  by_cases hmcch : McchDue cfg.area tti
  · left
    unfold McchDue at hmcch
    simp only [isMbsfnSf, isMchSubframe, hcas, isMcchSubframe, mcchSubframe, phyOf,
      PhyCommon.configured, hmod, hne, hmcch, Bool.false_eq_true, if_false, if_true, and_self,
      Option.some.injEq, Prod.mk.injEq, and_true] at hsf
    subst hsf
    exact ⟨hmcch, rfl, rfl, rfl⟩
  · right
    refine ⟨hmcch, ?_⟩
    unfold McchDue at hmcch
    simp only [isMbsfnSf, isMchSubframe, hcas, isMcchSubframe, mcchSubframe, phyOf,
      PhyCommon.configured, hmod, hne, hmcch, Bool.false_eq_true, if_false, if_true,
      not_true_eq_false, findPmch, Option.some.injEq, Prod.mk.injEq, and_true] at hsf
    subst hsf
    by_cases hidx : pmchSfIdx cfg.pmch tti ≤ cfg.pmch.sfAllocEnd
    · have hidx' := hidx
      unfold pmchSfIdx at hidx'
      simp only [hidx, hidx', if_true, Bool.and_eq_true, decide_eq_true_eq, iff_self, forall_const,
        true_and]
      rfl
    · have hidx' := hidx
      unfold pmchSfIdx at hidx'
      simp [hidx, hidx']

/-! ## What the MAC hands over -/

variable (cfg : MchCfg)

theorem sigTbs_spec : dlFillRaMcs cfg.area.mcchCfg.sigMcs.toNumber 0 cfg.nofPrb false = cfg.sigTbs ∧
      16 ≤ cfg.sigTbs ∧ cfg.sigTbs ≤ 97896 := by
  have hmcs : cfg.area.mcchCfg.sigMcs.toNumber < 29 := by
    cases cfg.area.mcchCfg.sigMcs <;> decide
  have hprb := cfg.nofPrb_valid
  obtain ⟨tbs, htbs, hbounds⟩ := dlFillRaMcs_bounds 0 hmcs ⟨by omega, hprb.2⟩
  simpa [MchCfg.sigTbs, htbs] using hbounds

theorem dataTbs_spec : dlFillRaMcs cfg.pmch.dataMcs 0 cfg.nofPrb false = cfg.dataTbs ∧
      16 ≤ cfg.dataTbs ∧ cfg.dataTbs ≤ 97896 := by
  have hprb := cfg.nofPrb_valid
  obtain ⟨tbs, htbs, hbounds⟩ := dlFillRaMcs_bounds 0 cfg.pmch.dataMcs.isLt ⟨by omega, hprb.2⟩
  simpa [MchCfg.dataTbs, htbs] using hbounds

theorem exists_currentMtch {mch : Mch} (hne : mch.mtchSched ≠ [])
    (hstop : mch.currentSfAllocationNum ≤ mch.lastStop) : ∃ mtch, mch.currentMtch = some mtch := by
  have hlast : mch.lastStop = (mch.mtchSched.getLast hne).stop := by
    simp [Mch.lastStop, List.getLast?_eq_some_getLast hne]
  apply Option.isSome_iff_exists.mp
  rw [Mch.currentMtch, List.find?_isSome]
  exact ⟨_, List.getLast_mem hne, by simpa [hlast] using hstop⟩

theorem getMchSched_mcch (mch : Mch) (hsched : mch.mtchSched.length ≤ 8)
    (readPdu : ℕ → ℕ → List UInt8) (buffer : ByteBuffer) :
    ∃ pdu, (getMchSched cfg mch true readPdu buffer).2.data = some pdu ∧
      pdu.nBytes = cfg.sigTbs / 8 := by
  have hlen : (buildMchSched cfg.pmch.sfAllocEnd cfg.dataTbs mch.mtchSched).length ≤ 8 := by
    rw [length_buildMchSched]
    exact hsched
  have hgrant : cfg.sigTbs / 8 ≤ emptyTailroom := by
    have hmax : emptyTailroom = 12237 := rfl
    have := (sigTbs_spec cfg).2.2
    omega
  rw [getMchSched, if_pos rfl]
  generalize buildMchSched _ _ _ = mtchSched at hlen ⊢
  exact generateMchPdu_mcch buffer mtchSched hlen cfg.mcch_valid hgrant

variable {mch : Mch} {readPdu : ℕ → ℕ → List UInt8}

theorem readMtch_lt (hread : ∀ lcid n, (readPdu lcid n).length ≤ n) :
    (mch.readMtch cfg.dataTbs readPdu).length < cfg.dataTbs / 8 := by
  obtain ⟨-, hlow, -⟩ := dataTbs_spec cfg
  refine lt_of_le_of_lt (hread _ _) ?_
  unfold requestedBytes
  split_ifs <;> omega

theorem getMchSched_data {mtch : DlMtchSched} (hmtch : mch.currentMtch = some mtch)
    (hstop : mch.currentSfAllocationNum ≤ mch.lastStop)
    (hpos : (mch.readMtch cfg.dataTbs readPdu).length ≠ 0) (buffer : ByteBuffer) :
    (getMchSched cfg mch false readPdu buffer).2.data =
      generateMchPdu buffer mch.mtchSched cfg.mcchPayload (mch.readMtch cfg.dataTbs readPdu)
        [⟨mtch.lcid, (mch.readMtch cfg.dataTbs readPdu).length⟩] (cfg.dataTbs / 8) := by
  simp [getMchSched, hstop, hmtch, hpos]

/-- In the other MBSFN subframes there is a PDU exactly while the count has not passed the last stop
value and RLC delivers data, of less than half the buffer; it has the size of a data block. -/
theorem getMchSched_mtch (hne : mch.mtchSched ≠ [])
    (hread : ∀ lcid n, (readPdu lcid n).length ≤ n) (buffer : ByteBuffer) :
    let result := (getMchSched cfg mch false readPdu buffer).2
    (result.data ≠ none ↔ mch.currentSfAllocationNum ≤ mch.lastStop ∧
      1 ≤ (mch.readMtch cfg.dataTbs readPdu).length ∧
      2 * (mch.readMtch cfg.dataTbs readPdu).length ≤ emptyTailroom) ∧
    ∀ pdu, result.data = some pdu → pdu.nBytes = cfg.dataTbs / 8 := by
  intro result
  by_cases hstop : mch.currentSfAllocationNum ≤ mch.lastStop
  case neg =>
    have hdata : result.data = none := by simp [result, getMchSched, hstop]
    simp [hdata, hstop]
  obtain ⟨mtch, hmtch⟩ := exists_currentMtch hne hstop
  set payload := mch.readMtch cfg.dataTbs readPdu with hpayload
  by_cases hzero : payload.length = 0
  · have hdata : result.data = none := by simp [result, getMchSched, hstop, ← hpayload, hzero]
    simp [hdata, hzero]
  have hdata := getMchSched_data cfg hmtch hstop hzero buffer
  obtain ⟨-, -, hhigh⟩ := dataTbs_spec cfg
  have hmax : emptyTailroom = 12237 := rfl
  have hfit : payload.length < cfg.dataTbs / 8 := readMtch_lt cfg hread
  by_cases htail : 2 * payload.length ≤ emptyTailroom
  · obtain ⟨pdu, hpdu, hbytes⟩ := generateMchPdu_mtch buffer mch.mtchSched cfg.mcchPayload mtch.lcid
      (cfg.dataTbs / 8) (by omega) htail (by omega)
    rw [show result.data = some pdu from hdata.trans hpdu]
    simp [hstop, htail, hbytes, Nat.one_le_iff_ne_zero, hzero]
  · have hnone := generateMchPdu_mtch_none buffer mch.mtchSched cfg.mcchPayload mtch.lcid hfit
      (by omega) (by omega)
    rw [show result.data = none from hdata.trans hnone]
    simp [htail]

/-! ## Agreement -/

/-- What the layers owe each other in a subframe with PHY configuration `mbsfnCfg` and MAC PDU
`data`: a PDU in an enabled subframe has the size of the transport block, and without one no block
is encoded. -/
def SubframeAgrees (cfg : MchCfg) (mbsfnCfg : MbsfnCfg) (data : Option ByteBuffer) : Prop :=
  (mbsfnCfg.enable = true → ∀ pdu, data = some pdu →
      (pdu.nBytes : ℤ) = (configurePmch cfg.nofPrb cfg.nofPrb mbsfnCfg).tbs / 8) ∧
    (data = none → workDlEncodes cfg.nofPrb cfg.nofPrb mbsfnCfg = false)

theorem workDlEncodes_eq_enable {nofPrb : ℕ} {mbsfnCfg : MbsfnCfg}
    (htbs : mbsfnCfg.enable → dlFillRaMcs mbsfnCfg.mbsfnMcs 0 nofPrb false ≠ 0) :
    workDlEncodes nofPrb nofPrb mbsfnCfg = mbsfnCfg.enable := by
  have hre : raDlGrantNofRe nofPrb nofPrb ≤
      nofPrb * (mbsfnNofSlots .khz1p25 * mbsfnNofSymbols .khz1p25 * nreScs .khz1p25) := by
    unfold raDlGrantNofRe
    rw [min_self]
    exact Nat.mul_le_mul_left _ (by decide)
  cases hen : mbsfnCfg.enable
  · simp [workDlEncodes, hen]
  · simp [workDlEncodes, pmchEncodes, configurePmch, hen, htbs hen, hre]

/-- The layers agree in an MBSFN subframe exactly if it is an MCCH subframe, or lies behind the
allocated part of the period, or the MAC still has an MTCH to serve, RLC delivers data for it that
fits the buffer, and the MCS of a first subframe happens to give the size of the data. -/
theorem subframeAgrees_iff (cfg : MchCfg) (mch : Mch)
    (hsched : mch.mtchSched.length = cfg.pmch.mbmsSessionInfoList.length) (tti : ℕ)
    (mbsfnCfg : MbsfnCfg) (hsf : isMbsfnSf (phyOf cfg) tti = some (mbsfnCfg, true))
    (readPdu : ℕ → ℕ → List UInt8) (hread : ∀ lcid n, (readPdu lcid n).length ≤ n)
    (buffer : ByteBuffer) :
    SubframeAgrees cfg mbsfnCfg (getMchSched cfg mch mbsfnCfg.isMcch readPdu buffer).2.data ↔
      McchDue cfg.area tti ∨ (cfg.pmch.sfAllocEnd : ℤ) < pmchSfIdx cfg.pmch tti ∨
        (mch.currentSfAllocationNum ≤ mch.lastStop ∧
          1 ≤ (mch.readMtch cfg.dataTbs readPdu).length ∧
          2 * (mch.readMtch cfg.dataTbs readPdu).length ≤ emptyTailroom ∧
          (FirstOfPeriod cfg.pmch tti → cfg.sigTbs / 8 = cfg.dataTbs / 8)) := by
  have hsessions := cfg.sessions_valid
  obtain ⟨hsig, hsigLow, -⟩ := sigTbs_spec cfg
  obtain ⟨hdata, hdataLow, -⟩ := dataTbs_spec cfg
  rcases isMbsfnSf_cases hsf with ⟨hmcch, hisMcch, henable, hmcs⟩ | ⟨hmcch, hisMcch, henable, hmcs⟩
  · obtain ⟨pdu, hpdu, hbytes⟩ := getMchSched_mcch cfg mch (by omega) readPdu buffer
    rw [hisMcch, hpdu]
    simp [SubframeAgrees, configurePmch, hmcch, hmcs, hsig, hbytes]
  have hne : mch.mtchSched ≠ [] := List.ne_nil_of_length_pos (by omega)
  obtain ⟨hsome, hbytes⟩ := getMchSched_mtch cfg hne hread buffer
  rw [hisMcch]
  by_cases hidx : pmchSfIdx cfg.pmch tti ≤ cfg.pmch.sfAllocEnd
  case neg =>
    have hoff : mbsfnCfg.enable = false := by simpa [hidx] using henable
    simp [SubframeAgrees, workDlEncodes, hoff, not_le.mp hidx]
  have hon : mbsfnCfg.enable := henable.mpr hidx
  have htbs : dlFillRaMcs mbsfnCfg.mbsfnMcs 0 cfg.nofPrb false =
      if FirstOfPeriod cfg.pmch tti then (cfg.sigTbs : ℤ) else cfg.dataTbs := by
    rw [hmcs hon]
    split_ifs <;> assumption
  have hencodes : workDlEncodes cfg.nofPrb cfg.nofPrb mbsfnCfg := by
    rw [workDlEncodes_eq_enable, hon]
    omega
  -- the block is encoded, so there must be a PDU; it has the size of a data block
  cases hres : (getMchSched cfg mch false readPdu buffer).2.data with
  | none =>
    have hno := hsome.not.mp (by simp [hres])
    simp only [SubframeAgrees, hencodes, hmcch, not_lt.mpr hidx, false_or]
    constructor
    · simp
    omega
  | some pdu =>
    obtain ⟨hstop, hpos, hfit⟩ := hsome.mp (by simp [hres])
    have hsize := hbytes pdu hres
    simp only [SubframeAgrees, hon, hmcch, not_lt.mpr hidx, false_or, hstop, hpos, hfit,
      true_and, configurePmch, htbs]
    by_cases hfirst : FirstOfPeriod cfg.pmch tti
    · simp [hfirst, hsize]
      omega
    · simp [hfirst, hsize]

/-- The example configuration of 50 PRBs, with an MCCH message of one byte. -/
def exampleCfg : MchCfg :=
  { nofPrb := 50
    area :=
      { mbsfnAreaId := 1
        nonMbsfnRegionLen := .s2
        subcarrierSpacing := .khz1dot25
        mcchCfg :=
          { mcchRepeatPeriod := .rf64, mcchOffset := 0, sfAllocInfo := 32, sigMcs := .n2 } }
    pmch :=
      { sfAllocEnd := 624
        dataMcs := 20
        mchSchedPeriod := .rf64
        mbmsSessionInfoList := [⟨1, by decide⟩] }
    mcchPayload := [0]
    nofPrb_valid := by decide
    sessions_valid := by decide
    mcch_valid := by decide }

/-- The PHY in a data subframe of the example configuration. -/
def exampleDataSf : MbsfnCfg :=
  { mbsfnAreaId := 1
    nonMbsfnRegionLength := 0
    mbsfnMcs := 20
    enable := true
    isMcch := false
    subcarrierSpacing := .khz1p25 }

/-- Subframe 2 with a hundred bytes for the only MTCH. -/
theorem subframeAgrees_data_subframe : SubframeAgrees exampleCfg exampleDataSf
      (getMchSched exampleCfg ⟨[⟨⟨1, by decide⟩, 100, 1⟩], 1⟩ false
        (fun _ n => List.replicate n 0) ⟨fun _ => 0, 0, 0⟩).2.data :=
  (subframeAgrees_iff exampleCfg ⟨[⟨⟨1, by decide⟩, 100, 1⟩], 1⟩ rfl 2 exampleDataSf (by decide)
    (fun _ n => List.replicate n 0) (by simp) ⟨fun _ => 0, 0, 0⟩).mpr
    (.inr (.inr ⟨by decide, by decide, by decide, by decide⟩))

/-- Subframe 2 with nothing to send, after the first MCCH subframe: the PHY encodes a block without
a PDU. -/
theorem not_subframeAgrees_without_data :
    isMbsfnSf (phyOf exampleCfg) 2 = some (exampleDataSf, true) ∧
      ¬ SubframeAgrees exampleCfg exampleDataSf
        (getMchSched exampleCfg
          (getMchSched exampleCfg (.init exampleCfg) true (fun _ _ => []) ⟨fun _ => 0, 0, 0⟩).1
          false (fun _ _ => []) ⟨fun _ => 0, 0, 0⟩).2.data := by
  refine ⟨by decide, ?_⟩
  rintro ⟨-, hencodes⟩
  exact absurd (hencodes rfl) (by decide)

end MbmsTx.Mbsfn
