import MbmsTx.Phy.Mbsfn

/-!
# MCCH occasions on both sides of the air interface

The eNB and the UE derive the MCCH subframes from the same configuration. The UE keeps the
repetition period in 16 bits, the eNB in 8, where the longest one becomes zero.
-/

namespace MbmsTx.Mbsfn

open MbmsTx.Phy

/-- `srsue::phy_common::is_mcch_subframe`, with the period in 16 bits. -/
def ueIsMcchSubframe : PhyCommon → MbsfnCfg → ℕ → Option (MbsfnCfg × Bool) :=
  mcchSubframe 16 id

/-- The configuration has an MCCH in this subframe. -/
def McchDue (area : MbsfnAreaInfo) (tti : ℕ) : Prop :=
  tti / 10 % area.mcchCfg.mcchRepeatPeriod.toNumber = area.mcchCfg.mcchOffset % 256 ∧
    (generateMcchTable area.mcchCfg.sfAllocInfo).getD (tti % 10) 0 > 0

instance (area : MbsfnAreaInfo) (tti : ℕ) : Decidable (McchDue area tti) :=
  inferInstanceAs (Decidable (_ ∧ _))

theorem RepeatPeriod.toNumber_pos (period : RepeatPeriod) : 0 < period.toNumber := by
  cases period <;> decide

theorem RepeatPeriod.toNumber_lt {period : RepeatPeriod} (h : period ≠ .rf256) :
    period.toNumber < 2 ^ 8 := by
  cases period with
  | rf256 => exact absurd rfl h
  | rf1 | rf2 | rf4 | rf8 | rf16 | rf32 | rf64 | rf128 => decide

theorem RepeatPeriod.toNumber_lt_two_pow (period : RepeatPeriod) : period.toNumber < 2 ^ 16 := by
  cases period <;> decide

variable {area : MbsfnAreaInfo}

section

variable {w : ℕ} (h : area.mcchCfg.mcchRepeatPeriod.toNumber < 2 ^ w) {tti : ℕ}
  (found : MbsfnCfg → MbsfnCfg) (pmchs : List PmchInfo) (cfg : MbsfnCfg)
include h

theorem mcchSubframe_of_not_due (hdue : ¬ McchDue area tti) :
    mcchSubframe w found (.configured area pmchs) cfg tti = some (cfg, false) := by
  have hne := (RepeatPeriod.toNumber_pos area.mcchCfg.mcchRepeatPeriod).ne'
  simp only [mcchSubframe, PhyCommon.configured, Nat.mod_eq_of_lt h, hne, if_true, if_false]
  exact if_neg hdue

theorem mcchSubframe_snd :
    (mcchSubframe w found (.configured area pmchs) cfg tti).map Prod.snd =
      some (decide (McchDue area tti)) := by
  by_cases hdue : McchDue area tti
  · have hne := (RepeatPeriod.toNumber_pos area.mcchCfg.mcchRepeatPeriod).ne'
    rw [decide_eq_true hdue]
    unfold McchDue at hdue
    simp only [mcchSubframe, PhyCommon.configured, Nat.mod_eq_of_lt h, hne, hdue, if_true, if_false,
      and_self, Option.map_some]
  · rw [mcchSubframe_of_not_due h found pmchs cfg hdue, decide_eq_false hdue]
    rfl

end

theorem isMcchSubframe_rf256 (h : area.mcchCfg.mcchRepeatPeriod = .rf256) (pmchs : List PmchInfo)
    (cfg : MbsfnCfg) (tti : ℕ) : isMcchSubframe (.configured area pmchs) cfg tti = none := by
  simp [isMcchSubframe, mcchSubframe, PhyCommon.configured, h, RepeatPeriod.toNumber]

/-- Both sides answer, without a division by zero, and agree. -/
def OccasionAgrees (area : MbsfnAreaInfo) (enbPmchs uePmchs : List PmchInfo)
    (enbCfg ueCfg : MbsfnCfg) (tti : ℕ) : Prop :=
  ∃ answer, (isMcchSubframe (.configured area enbPmchs) enbCfg tti).map Prod.snd = some answer ∧
    (ueIsMcchSubframe (.configured area uePmchs) ueCfg tti).map Prod.snd = some answer

/-- Both sides agree on the MCCH subframes, except with the longest period. -/
theorem occasionAgrees_iff (area : MbsfnAreaInfo) (enbPmchs uePmchs : List PmchInfo)
    (enbCfg ueCfg : MbsfnCfg) (tti : ℕ) :
    OccasionAgrees area enbPmchs uePmchs enbCfg ueCfg tti ↔
      area.mcchCfg.mcchRepeatPeriod ≠ .rf256 := by
  constructor
  · rintro ⟨answer, henb, -⟩ hperiod
    rw [isMcchSubframe_rf256 hperiod] at henb
    simp at henb
  · intro hperiod
    exact ⟨_, mcchSubframe_snd (RepeatPeriod.toNumber_lt hperiod) _ enbPmchs enbCfg,
      mcchSubframe_snd (RepeatPeriod.toNumber_lt_two_pow _) _ uePmchs ueCfg⟩

/-- In frame 0 with a period of 256 frames the UE finds an MCCH, and the eNB divides by zero. -/
theorem not_occasionAgrees_rf256 :
    ∃ (area : MbsfnAreaInfo) (cfg : MbsfnCfg), ¬ OccasionAgrees area [] [] cfg cfg 1 ∧
      (ueIsMcchSubframe (.configured area []) cfg 1).map Prod.snd = some true ∧
      isMcchSubframe (.configured area []) cfg 1 = none := by
  refine ⟨⟨1, .s1, .khz1dot25, ⟨.rf256, 0, 32, .n2⟩⟩, ⟨0, 1, 2, false, false, .khz15⟩, ?_, rfl, rfl⟩
  rintro ⟨answer, henb, -⟩
  exact absurd henb (by rintro ⟨⟩)

end MbmsTx.Mbsfn
