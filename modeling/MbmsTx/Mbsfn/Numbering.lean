import Mathlib.Data.Nat.Count
import MbmsTx.Mbsfn.Occasions

/-!
# The numbering of the PMCH subframes

`is_mch_subframe` computes the index of a subframe in its scheduling period by a closed formula, in
which a division stands for the CAS subframes so far. It is the count of the other subframes,
`sfIdxInPeriod` (`sfIdx_eq_count`), since a period starts with a CAS subframe and there is one in
every fourth frame. The loop over the PMCHs then finds the one whose part of the period the index is
in.
-/

namespace MbmsTx.Mbsfn

open MbmsTx.Phy List

/-! ## Counting -/

/-- The subframes before this one in its scheduling period that are no CAS subframes. -/
def sfIdxInPeriod (period : MchSchedPeriod) (tti : ℕ) : ℕ :=
  let pos := tti % (10 * period.toNumber)
  Nat.count (fun k => isCasSubframe (tti - pos + k) = false) pos

theorem count_add_cas {start : ℕ} (hstart : start % 40 = 0) (n : ℕ) :
    Nat.count (fun k => isCasSubframe (start + k) = false) n + (n + 39) / 40 = n := by
  induction n with
  | zero => rfl
  | succ n ih =>
    have hiff := isCasSubframe_iff (start + n)
    rw [Nat.count_succ]
    by_cases hcas : isCasSubframe (start + n)
    · have hmod := hiff.mp hcas
      rw [if_neg (by simp [hcas])]
      omega
    · have hmod := mt hiff.mpr hcas
      rw [if_pos (by simpa using hcas)]
      omega

variable (period : MchSchedPeriod)

theorem period_start_mod (tti : ℕ) : (tti - tti % (10 * period.toNumber)) % 40 = 0 := by
  obtain ⟨quarter, hquarter⟩ := period.toNumber_dvd.1
  have hdvd : 40 ∣ 10 * period.toNumber := ⟨quarter, by omega⟩
  exact Nat.mod_eq_zero_of_dvd (Nat.dvd_trans hdvd (Nat.dvd_sub_mod tti))

theorem sfIdx_eq_count {tti : ℕ} (hcas : isCasSubframe tti = false) :
    sfIdx (tti / 10 % period.toNumber) (tti % 10) = sfIdxInPeriod period tti := by
  have hstart := period_start_mod period tti
  have hcount := count_add_cas hstart (tti % (10 * period.toNumber))
  have hmod : tti % 40 ≠ 0 := by
    rw [← Bool.not_eq_true] at hcas
    exact mt (isCasSubframe_iff tti).mpr hcas
  have hframe : tti / 10 % period.toNumber = tti % (10 * period.toNumber) / 10 :=
    (Nat.mod_mul_right_div_self _ _ _).symm
  have hsf : tti % 10 = tti % (10 * period.toNumber) % 10 := (Nat.mod_mul_right_mod _ _ _).symm
  have hle : tti % (10 * period.toNumber) ≤ tti := Nat.mod_le _ _
  unfold sfIdx
  rw [hframe, hsf]
  unfold sfIdxInPeriod
  dsimp only
  omega

/-- The index starts at zero with a period, and goes up behind each subframe that is no CAS
subframe. -/
theorem sfIdxInPeriod_succ (tti : ℕ) : sfIdxInPeriod period (tti + 1) =
      if (tti + 1) % (10 * period.toNumber) = 0 then 0
      else sfIdxInPeriod period tti + if isCasSubframe tti then 0 else 1 := by
  have hpos : 0 < 10 * period.toNumber := Nat.mul_pos (by decide) period.toNumber_dvd.2.2
  split
  · rename_i hzero
    unfold sfIdxInPeriod
    rw [hzero]
    rfl
  · rename_i hne
    -- the position goes up, and the start of the period stays
    have hsucc : (tti + 1) % (10 * period.toNumber) = tti % (10 * period.toNumber) + 1 := by
      have hlt := Nat.mod_lt tti hpos
      rw [Nat.add_mod, Nat.mod_eq_of_lt (by omega : 1 < 10 * period.toNumber)] at hne ⊢
      refine Nat.mod_eq_of_lt ?_
      by_contra hge
      have heq : tti % (10 * period.toNumber) + 1 = 10 * period.toNumber := by omega
      rw [heq, Nat.mod_self] at hne
      exact hne rfl
    have hle : tti % (10 * period.toNumber) ≤ tti := Nat.mod_le _ _
    unfold sfIdxInPeriod
    dsimp only
    rw [hsucc, Nat.add_sub_add_right, Nat.count_succ, Nat.sub_add_cancel hle]
    by_cases hcas : isCasSubframe tti
    · simp [hcas]
    · simp [hcas]

/-! ## The PMCHs -/

/-- The first index of a PMCH: behind the PMCH before it. -/
def pmchStart : (start : ℕ) → List PmchInfo → ℕ → ℕ
  | start, _, 0 => start
  | start, [], _ => start
  | _, pmch :: pmchs, i + 1 => pmchStart (pmch.sfAllocEnd + 1) pmchs i

/-- The PMCH `i` has the index in its part of the period. -/
def Covers (start : ℕ) (pmchs : List PmchInfo) (idx i : ℕ) : Prop :=
  ∃ pmch, pmchs[i]? = some pmch ∧ pmchStart start pmchs i ≤ idx ∧ idx ≤ pmch.sfAllocEnd

section

variable {start idx : ℕ} {pmch : PmchInfo} {pmchs : List PmchInfo}

theorem le_pmchStart {bound : ℕ} (hstart : bound ≤ start)
    (h : ∀ pmch ∈ pmchs, bound ≤ pmch.sfAllocEnd + 1) (i : ℕ) :
    bound ≤ pmchStart start pmchs i := by
  induction pmchs generalizing start i with
  | nil =>
    cases i with
    | zero | succ i => exact hstart
  | cons pmch pmchs ih =>
    cases i with
    | zero => exact hstart
    | succ i =>
      exact ih (h pmch (mem_cons_self ..)) (fun next hnext => h next (mem_cons_of_mem _ hnext)) i

theorem not_covers_tail (hsorted : ∀ next ∈ pmchs, pmch.sfAllocEnd < next.sfAllocEnd)
    (hidx : idx ≤ pmch.sfAllocEnd) (i : ℕ) : ¬ Covers start (pmch :: pmchs) idx (i + 1) := by
  rintro ⟨other, -, hstart, -⟩
  have hle : pmch.sfAllocEnd + 1 ≤ pmchStart (pmch.sfAllocEnd + 1) pmchs i :=
    le_pmchStart le_rfl (fun next hnext => Nat.le_succ_of_le (hsorted next hnext)) i
  rw [pmchStart] at hstart
  omega

theorem existsUnique_covers (hsorted : pmchs.Pairwise (·.sfAllocEnd < ·.sfAllocEnd))
    (hstart : start ≤ idx) (hidx : ∃ pmch ∈ pmchs, idx ≤ pmch.sfAllocEnd) :
    ∃! i, Covers start pmchs idx i := by
  induction pmchs generalizing start with
  | nil => simp at hidx
  | cons pmch pmchs ih =>
    obtain ⟨hhead, htail⟩ := pairwise_cons.mp hsorted
    by_cases hend : idx ≤ pmch.sfAllocEnd
    · refine ⟨0, ⟨pmch, rfl, hstart, hend⟩, ?_⟩
      intro i hi
      cases i with
      | zero => rfl
      | succ i => exact absurd hi (not_covers_tail hhead hend i)
    · have hidx' : ∃ pmch ∈ pmchs, idx ≤ pmch.sfAllocEnd := by
        obtain ⟨other, hother, hle⟩ := hidx
        rcases mem_cons.mp hother with rfl | hother
        · omega
        · exact ⟨other, hother, hle⟩
      obtain ⟨i, hi, hunique⟩ := ih htail (Nat.lt_of_not_le hend) hidx'
      refine ⟨i + 1, hi, ?_⟩
      intro j hj
      cases j with
      | zero =>
        obtain ⟨other, hother, -, hle⟩ := hj
        cases hother
        omega
      | succ j => exact congrArg (· + 1) (hunique j hj)

theorem exists_le_end_iff (hsorted : pmchs.Pairwise (·.sfAllocEnd < ·.sfAllocEnd)) :
    (∃ pmch ∈ pmchs, idx ≤ pmch.sfAllocEnd) ↔ ∃ last ∈ pmchs.getLast?, idx ≤ last.sfAllocEnd := by
  induction pmchs with
  | nil => simp
  | cons pmch pmchs ih =>
    obtain ⟨hhead, htail⟩ := pairwise_cons.mp hsorted
    cases pmchs with
    | nil => simp
    | cons next pmchs =>
      rw [getLast?_cons_cons, ← ih htail]
      constructor
      · rintro ⟨other, hother, hle⟩
        rcases mem_cons.mp hother with rfl | hother
        · have hlt := hhead next (mem_cons_self ..)
          exact ⟨next, mem_cons_self .., by omega⟩
        · exact ⟨other, hother, hle⟩
      · rintro ⟨other, hother, hle⟩
        exact ⟨other, mem_cons_of_mem _ hother, hle⟩

end

/-! ## The decision of the PHY -/

/-- The decision for the subframe with the index `idx`. -/
structure DecidedBy (sigMcs : ℕ) (start : ℕ) (pmchs : List PmchInfo) (idx : ℕ) (cfg : MbsfnCfg) :
    Prop where
  enable_iff : cfg.enable = true ↔ ∃ last ∈ pmchs.getLast?, idx ≤ last.sfAllocEnd
  unique : cfg.enable = true → ∃! i, Covers start pmchs idx i
  /-- The first subframe of a PMCH has the MCS of the signalling. -/
  mcs : ∀ i pmch, pmchs[i]? = some pmch → Covers start pmchs idx i →
    cfg.mbsfnMcs = if idx = pmchStart start pmchs i then sigMcs else pmch.dataMcs

/-- The loop condition for the first subframe of a PMCH. -/
def isFirst (sfn sf : ℕ) (period : MchSchedPeriod) (idx : ℕ) : Option PmchInfo → Bool
  | none => sfn % period.toNumber = 0 && sf = 1
  | some prev => (prev.sfAllocEnd + 1 : ℤ) = idx

/-- The loop over the PMCHs, from the one at `start` on. -/
theorem decidedBy_findPmch {sigMcs sfn sf idx start : ℕ} {period : MchSchedPeriod}
    {pmchs : List PmchInfo} (hperiod : ∀ pmch ∈ pmchs, pmch.mchSchedPeriod = period)
    (hsorted : pmchs.Pairwise (·.sfAllocEnd < ·.sfAllocEnd))
    (hidx : sfIdx (sfn % period.toNumber) sf = idx) (hstart : start ≤ idx) {cfg : MbsfnCfg}
    (hcfg : cfg.enable = false) {prev : Option PmchInfo}
    (hprev : isFirst sfn sf period idx prev = decide (idx = start)) :
    DecidedBy sigMcs start pmchs idx (findPmch sigMcs sfn sf cfg prev pmchs) := by
  induction pmchs generalizing start prev with
  | nil => exact ⟨by simp [findPmch, hcfg], by simp [findPmch, hcfg], by simp⟩
  | cons pmch pmchs ih =>
    obtain ⟨hhead, htail⟩ := pairwise_cons.mp hsorted
    have hpmch : pmch.mchSchedPeriod = period := hperiod pmch (mem_cons_self ..)
    by_cases hle : idx ≤ pmch.sfAllocEnd
    · have hfind : findPmch sigMcs sfn sf cfg prev (pmch :: pmchs) =
          { cfg with
              mbsfnMcs := if idx = start then sigMcs else pmch.dataMcs
              enable := true
              nonMbsfnRegionLength := 0 } := by
        cases prev with
        | none | some prev =>
          simp only [isFirst] at hprev
          simp [findPmch, hpmch, hidx, hle, hprev]
      have hexists : ∃ other ∈ pmch :: pmchs, idx ≤ other.sfAllocEnd :=
        ⟨pmch, mem_cons_self .., hle⟩
      rw [hfind]
      refine ⟨iff_of_true rfl ((exists_le_end_iff hsorted).mp hexists),
        fun _ => existsUnique_covers hsorted hstart hexists, ?_⟩
      intro i other hother hcovers
      cases i with
      | zero =>
        cases hother
        rfl
      | succ i => exact absurd hcovers (not_covers_tail hhead hle i)
    · have hfind : findPmch sigMcs sfn sf cfg prev (pmch :: pmchs) =
          findPmch sigMcs sfn sf cfg (some pmch) pmchs := by
        simp [findPmch, hpmch, hidx, hle]
      have hnext : isFirst sfn sf period idx (some pmch) = decide (idx = pmch.sfAllocEnd + 1) := by
        simp [isFirst]
        omega
      have hrest := ih (fun next hnext => hperiod next (mem_cons_of_mem _ hnext)) htail
        (Nat.lt_of_not_le hle) hnext
      have hexists : (∃ other ∈ pmch :: pmchs, idx ≤ other.sfAllocEnd) ↔
          ∃ other ∈ pmchs, idx ≤ other.sfAllocEnd := by
        simp [hle]
      rw [hfind]
      have henable : (findPmch sigMcs sfn sf cfg (some pmch) pmchs).enable ↔
          ∃ other ∈ pmch :: pmchs, idx ≤ other.sfAllocEnd := by
        rw [hrest.enable_iff, ← exists_le_end_iff htail, hexists]
      refine ⟨henable.trans (exists_le_end_iff hsorted), ?_, ?_⟩
      · intro henabled
        exact existsUnique_covers hsorted hstart (henable.mp henabled)
      · intro i other hother hcovers
        cases i with
        | zero =>
          obtain ⟨first, hfirst, -, hfirstle⟩ := hcovers
          cases hfirst
          omega
        | succ i => exact hrest.mcs i other hother hcovers

/-- In a subframe that is neither a CAS nor an MCCH subframe, `is_mch_subframe` numbers it by its
place among those of its period that are no CAS subframes, and decides by that number. -/
def PmchNumbered (area : MbsfnAreaInfo) (pmchs : List PmchInfo) (period : MchSchedPeriod)
    (tti : ℕ) : Prop :=
  (∀ pmch ∈ pmchs, sfIdx (tti / 10 % pmch.mchSchedPeriod.toNumber) (tti % 10) =
    sfIdxInPeriod period tti) ∧
  sfIdxInPeriod period (tti + 1) =
    (if (tti + 1) % (10 * period.toNumber) = 0 then 0 else sfIdxInPeriod period tti + 1) ∧
  ∃ cfg, isMchSubframe (.configured area pmchs) tti = some (cfg, true) ∧
    DecidedBy area.mcchCfg.sigMcs.toNumber 0 pmchs (sfIdxInPeriod period tti) cfg

/-- The PMCH subframes are numbered and attributed as configured, unless the repetition period is
the longest. -/
theorem pmchNumbered_iff {area : MbsfnAreaInfo} {pmchs : List PmchInfo} {period : MchSchedPeriod}
    (hperiod : ∀ pmch ∈ pmchs, pmch.mchSchedPeriod = period)
    (hsorted : pmchs.Pairwise (·.sfAllocEnd < ·.sfAllocEnd)) {tti : ℕ}
    (hcas : isCasSubframe tti = false) (hmcch : ¬ McchDue area tti) :
    PmchNumbered area pmchs period tti ↔ area.mcchCfg.mcchRepeatPeriod ≠ .rf256 := by
  constructor
  · rintro ⟨-, -, cfg, hsf, -⟩ hrf256
    simp [isMchSubframe, hcas, isMcchSubframe_rf256 hrf256] at hsf
  · intro hrepeat
    have hidx := sfIdx_eq_count period hcas
    refine ⟨?_, ?_, ?_⟩
    · intro pmch hpmch
      rw [hperiod pmch hpmch]
      exact hidx
    · rw [sfIdxInPeriod_succ, hcas]
      rfl
    · simp only [isMchSubframe, isMcchSubframe, hcas, Bool.false_eq_true, if_false,
        mcchSubframe_of_not_due (RepeatPeriod.toNumber_lt hrepeat) _ _ _ hmcch]
      refine ⟨_, rfl, decidedBy_findPmch hperiod hsorted hidx (Nat.zero_le _) rfl ?_⟩
      -- the first subframe of a period is the one behind its CAS subframe
      unfold sfIdx at hidx
      rw [isFirst, ← Bool.decide_and, decide_eq_decide]
      omega

/-- Two PMCHs in a period of eight frames. -/
def twoPmchs : List PmchInfo := [⟨20, 5, .rf8, []⟩, ⟨60, 9, .rf8, []⟩]

/-- A repetition period of 32 frames, with the MCCH in subframe 1. -/
def areaOf (period : RepeatPeriod) : MbsfnAreaInfo := ⟨1, .s1, .khz1dot25, ⟨period, 0, 32, .n2⟩⟩

/-- The first subframe of the second PMCH. -/
theorem pmchNumbered_second_pmch : PmchNumbered (areaOf .rf32) twoPmchs .rf8 22 :=
  (pmchNumbered_iff (by decide) (by decide) (by decide) (by decide)).mpr (by decide)

/-- With the longest repetition period the PHY divides by zero. -/
theorem not_pmchNumbered_rf256 : isCasSubframe 22 = false ∧ ¬ McchDue (areaOf .rf256) 22 ∧
      ¬ PmchNumbered (areaOf .rf256) twoPmchs .rf8 22 := by
  refine ⟨by decide, by decide, ?_⟩
  rintro ⟨-, -, cfg, hsf, -⟩
  exact absurd hsf (by rintro ⟨⟩)

end MbmsTx.Mbsfn
