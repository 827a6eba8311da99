import MbmsTx.Lib.Transition
import MbmsTx.Mac.MchPdu
import MbmsTx.Mac.MchShare
import MbmsTx.Mbsfn.Agreement
import Mathlib.Data.List.Pairwise

/-!
# MTCHs in the announced subframes

A receiver attributes the subframes of a scheduling period to the MTCHs by the stop values that it
reads in the MCCH subframe, numbering the subframes as the PHY does. The MAC decides by a counter of
its own, which starts anew in each MCCH subframe.

If an MCCH subframe opens every scheduling period, the counter is the number of MBSFN subframes
since then, which is what the PHY computes in closed form. If the scheduling information fits the
MCCH subframe and its stop values eleven bits, each PDU carries the MTCH that it was announced for.
-/

namespace MbmsTx.Mbsfn

open MbmsTx.Phy MbmsTx.Mac MbmsTx.Transition List Option ByteBuffer

/-! ## Runs -/

/-- The schedule before the subframe `tti`, and the LCIDs and stop values that a receiver read in
the last MCCH subframe. -/
structure MchRunState where
  tti : ℕ
  mch : Mch
  announced : List (ℕ × ℕ)

/-- RLC reports a buffer state, or the next subframe is processed, where `readPdu` are the answers
of RLC. -/
inductive MchEvent
  | rlcBufferState (lcid txQueue : ℕ)
  | subframe (readPdu : ℕ → ℕ → List UInt8) (buffer : ByteBuffer)

/-- One event. `sf_worker::work_imp` asks the PHY whether the subframe is an MBSFN subframe, and
then calls `get_mch_sched`. -/
def mchStep (cfg : MchCfg) (s : MchRunState) : MchEvent → Option MchRunState
  | .rlcBufferState lcid txQueue => some { s with mch := s.mch.rlcBufferState lcid txQueue }
  | .subframe readPdu buffer =>
    let next := (s.tti + 1) % 10240
    match isMbsfnSf (phyOf cfg) s.tti with
    | none => none
    | some (_, false) => some { s with tti := next }
    | some (mbsfnCfg, true) =>
      let (mch, result) := getMchSched cfg s.mch mbsfnCfg.isMcch readPdu buffer
      some
        { tti := next
          mch := mch
          announced :=
            if mbsfnCfg.isMcch then (result.data.map readSchedInfos).getD [] else s.announced }

/-- The transmitter starts at TTI 0 with the schedule of `write_mcch`. -/
def mchSystem (cfg : MchCfg) : System MchRunState MchEvent :=
  { Init := fun s => s = { tti := 0, mch := .init cfg, announced := [] }
    step := mchStep cfg }

/-- A buffer report of less than 2^28 bytes. -/
def SmallReport (_ : MchRunState) : MchEvent → Prop
  | .rlcBufferState _ txQueue => txQueue < 2 ^ 28
  | .subframe _ _ => True

instance (s : MchRunState) : (event : MchEvent) → Decidable (SmallReport s event)
  | .rlcBufferState _ txQueue => inferInstanceAs (Decidable (txQueue < 2 ^ 28))
  | .subframe _ _ => isTrue trivial

/-! ## The position in the scheduling period -/

/-- An MCCH subframe, and no other, opens each scheduling period: the MCCH repetition period is the
scheduling period, without offset, and the MCCH is in subframe 1. -/
structure Aligned (cfg : MchCfg) : Prop where
  period : cfg.area.mcchCfg.mcchRepeatPeriod.toNumber = cfg.pmch.mchSchedPeriod.toNumber
  offset : cfg.area.mcchCfg.mcchOffset = 0
  subframe : cfg.area.mcchCfg.sfAllocInfo % 64 = 32

/-- The MCCH subframe has room for the control elements of all MTCHs and the MCCH message, and the
stop values do not reach the eleven bits of "nothing scheduled", even if the period is exceeded by a
subframe for each MTCH. -/
structure Announceable (cfg : MchCfg) : Prop where
  room : 4 * cfg.pmch.mbmsSessionInfoList.length + cfg.mcchPayload.length < cfg.sigTbs / 8
  stops : cfg.pmch.sfAllocEnd + cfg.pmch.mbmsSessionInfoList.length < mtchStopEmpty
  data : 6 < cfg.dataTbs / 8

/-- The position of a subframe in its scheduling period. -/
def periodPos (cfg : MchCfg) (tti : ℕ) : ℕ := tti % (10 * cfg.pmch.mchSchedPeriod.toNumber)

variable {cfg : MchCfg}

section

variable (cfg : MchCfg) (tti : ℕ)

theorem periodPos_next : periodPos cfg ((tti + 1) % 10240) = 0 ∨
      periodPos cfg ((tti + 1) % 10240) = periodPos cfg tti + 1 := by
  obtain ⟨-, hdvd, hpos⟩ := cfg.pmch.mchSchedPeriod.toNumber_dvd
  have hdvd' := Nat.mul_dvd_mul_left 10 hdvd
  have hlt : periodPos cfg tti < 10 * cfg.pmch.mchSchedPeriod.toNumber := Nat.mod_lt _ (by omega)
  unfold periodPos at hlt ⊢
  rw [Nat.mod_mod_of_dvd _ hdvd', Nat.add_mod, Nat.mod_eq_of_lt (by omega : 1 < _)]
  rcases lt_or_ge (tti % (10 * cfg.pmch.mchSchedPeriod.toNumber) + 1)
    (10 * cfg.pmch.mchSchedPeriod.toNumber) with h | h
  · right
    exact Nat.mod_eq_of_lt h
  · left
    rw [show tti % (10 * cfg.pmch.mchSchedPeriod.toNumber) + 1 =
      10 * cfg.pmch.mchSchedPeriod.toNumber by omega, Nat.mod_self]

theorem frame_eq_periodPos : tti / 10 % cfg.pmch.mchSchedPeriod.toNumber = periodPos cfg tti / 10 ∧
      tti % 10 = periodPos cfg tti % 10 ∧ tti % 40 = periodPos cfg tti % 40 := by
  obtain ⟨quarter, hquarter⟩ := cfg.pmch.mchSchedPeriod.toNumber_dvd.1
  unfold periodPos
  refine ⟨(Nat.mod_mul_right_div_self _ _ _).symm, (Nat.mod_mul_right_mod _ _ _).symm, ?_⟩
  rw [hquarter, ← mul_assoc]
  simp

theorem pmchSfIdx_eq :
    pmchSfIdx cfg.pmch tti = (periodPos cfg tti : ℤ) - (periodPos cfg tti / 40 : ℕ) - 1 := by
  obtain ⟨hframe, hsf, -⟩ := frame_eq_periodPos cfg tti
  unfold pmchSfIdx sfIdx
  omega

theorem isCasSubframe_iff_periodPos : isCasSubframe tti ↔ periodPos cfg tti % 40 = 0 := by
  rw [isCasSubframe_iff, (frame_eq_periodPos cfg tti).2.2]

theorem isCasSubframe_eq_false_iff : isCasSubframe tti = false ↔ periodPos cfg tti % 40 ≠ 0 := by
  rw [← Bool.not_eq_true, isCasSubframe_iff_periodPos cfg]

end

theorem generateMcchTable_subframe_one {sfAlloc : ℕ} (h : sfAlloc % 64 = 32) :
    generateMcchTable sfAlloc = [0, 1, 0, 0, 0, 0, 0, 0, 0, 0] := by
  have halloc : sfAlloc &&& 0x3F = 32 := (Nat.and_two_pow_sub_one_eq_mod sfAlloc 6).trans h
  simp only [generateMcchTable, halloc]
  rfl

section

variable (h : Aligned cfg)
include h

theorem mcchDue_iff (tti : ℕ) : McchDue cfg.area tti ↔ periodPos cfg tti = 1 := by
  obtain ⟨hframe, hsf, -⟩ := frame_eq_periodPos cfg tti
  unfold McchDue
  rw [h.period, hframe, hsf, h.offset, generateMcchTable_subframe_one h.subframe]
  have hten : periodPos cfg tti % 10 < 10 := Nat.mod_lt _ (by decide)
  have htable : ∀ sf < 10, [0, 1, 0, 0, 0, 0, 0, 0, 0, 0].getD sf 0 > 0 ↔ sf = 1 := by decide
  rw [htable _ hten]
  omega

variable (hperiod : cfg.area.mcchCfg.mcchRepeatPeriod ≠ .rf256)
include hperiod

theorem exists_isMbsfnSf (tti : ℕ) :
    ∃ mbsfnCfg, isMbsfnSf (phyOf cfg) tti = some (mbsfnCfg, !isCasSubframe tti) ∧
      (periodPos cfg tti % 40 ≠ 0 → (mbsfnCfg.isMcch ↔ periodPos cfg tti = 1)) := by
  have hmod := Nat.mod_eq_of_lt (RepeatPeriod.toNumber_lt hperiod)
  have hne := (RepeatPeriod.toNumber_pos cfg.area.mcchCfg.mcchRepeatPeriod).ne'
  have hsome : ∃ mbsfnCfg, isMbsfnSf (phyOf cfg) tti = some (mbsfnCfg, !isCasSubframe tti) := by
    by_cases hcas : isCasSubframe tti
    · exact ⟨_, by simp [isMbsfnSf, isMchSubframe, hcas]; rfl⟩
    simp only [isMbsfnSf, isMchSubframe, hcas, isMcchSubframe, mcchSubframe, phyOf,
      PhyCommon.configured, hmod, hne, Bool.false_eq_true, if_false, if_true, not_true_eq_false,
      Bool.not_false]
    by_cases hmcch : McchDue cfg.area tti
    · unfold McchDue at hmcch
      simp only [hmcch, and_self, if_true]
      simp
    · unfold McchDue at hmcch
      simp only [hmcch, if_false]
      simp
  obtain ⟨mbsfnCfg, hsf⟩ := hsome
  refine ⟨mbsfnCfg, hsf, fun hpos => ?_⟩
  rw [(isCasSubframe_eq_false_iff cfg tti).mpr hpos, Bool.not_false] at hsf
  rw [← mcchDue_iff h]
  rcases isMbsfnSf_cases hsf with ⟨hmcch, hisMcch, -⟩ | ⟨hmcch, hisMcch, -⟩
  · simp [hmcch, hisMcch]
  · simp [hmcch, hisMcch]

theorem mchStep_cases {s s' : MchRunState} {event : MchEvent}
    (hstep : mchStep cfg s event = some s') :
    (∃ lcid txQueue, event = .rlcBufferState lcid txQueue ∧
        s' = { s with mch := s.mch.rlcBufferState lcid txQueue }) ∨
      (periodPos cfg s.tti % 40 = 0 ∧ s' = { s with tti := (s.tti + 1) % 10240 }) ∨
      (periodPos cfg s.tti = 1 ∧ ∃ readPdu buffer, s' =
        { tti := (s.tti + 1) % 10240
          mch := (getMchSched cfg s.mch true readPdu buffer).1
          announced :=
            ((getMchSched cfg s.mch true readPdu buffer).2.data.map readSchedInfos).getD [] }) ∨
      (periodPos cfg s.tti % 40 ≠ 0 ∧ periodPos cfg s.tti ≠ 1 ∧ s' =
        { s with
            tti := (s.tti + 1) % 10240
            mch := ⟨s.mch.mtchSched, s.mch.currentSfAllocationNum + 1⟩ }) := by
  cases event with
  | rlcBufferState lcid txQueue => exact .inl ⟨lcid, txQueue, rfl, (some.inj hstep).symm⟩
  | subframe readPdu buffer =>
    right
    obtain ⟨mbsfnCfg, hsf, hmcch⟩ := exists_isMbsfnSf h hperiod s.tti
    by_cases hcas : periodPos cfg s.tti % 40 = 0
    · rw [(isCasSubframe_iff_periodPos cfg s.tti).mpr hcas] at hsf
      simp only [mchStep, hsf, Bool.not_true] at hstep
      exact .inl ⟨hcas, (some.inj hstep).symm⟩
    right
    rw [(isCasSubframe_eq_false_iff cfg s.tti).mpr hcas] at hsf
    simp only [mchStep, hsf, Bool.not_false] at hstep
    by_cases hone : periodPos cfg s.tti = 1
    · rw [(hmcch hcas).mpr hone] at hstep
      exact .inl ⟨hone, readPdu, buffer, (some.inj hstep).symm⟩
    · rw [Bool.eq_false_iff.mpr ((hmcch hcas).not.mpr hone)] at hstep
      exact .inr ⟨hcas, hone, (some.inj hstep).symm⟩

end

/-! ## The invariant -/

/-- The LCID and the stop value of an MTCH. -/
def schedInfo (mtch : DlMtchSched) : ℕ × ℕ := (mtch.lcid.val, mtch.stop)

/-- The buffers are small. Behind the MCCH subframe of a period, the counter is the number of MBSFN
subframes since, and the schedule is what was announced, with the stop values in order. -/
structure MchInv (cfg : MchCfg) (s : MchRunState) : Prop where
  length : s.mch.mtchSched.length = cfg.pmch.mbmsSessionInfoList.length
  buffers : ∀ size ∈ s.mch.mtchSched.map (·.lcidBufferSize), size < 2 ^ 28
  counter : 2 ≤ periodPos cfg s.tti →
    s.mch.currentSfAllocationNum + (periodPos cfg s.tti - 1) / 40 + 1 = periodPos cfg s.tti
  announced : 2 ≤ periodPos cfg s.tti → s.announced = s.mch.mtchSched.map schedInfo
  sorted : 2 ≤ periodPos cfg s.tti → (s.mch.mtchSched.map (·.stop)).Pairwise (· ≤ ·)

theorem map_rlcBufferState {α : Type*} {f : DlMtchSched → α}
    (hf : ∀ mtch n, f { mtch with lcidBufferSize := n } = f mtch) (mch : Mch) (lcid txQueue : ℕ) :
    (mch.rlcBufferState lcid txQueue).mtchSched.map f = mch.mtchSched.map f := by
  simp only [Mch.rlcBufferState, List.map_map, map_inj_left, Function.comp_apply]
  intro mtch _
  split_ifs
  · exact hf mtch txQueue
  · rfl

section

variable {s s' : MchRunState} {event : MchEvent} (hinv : MchInv cfg s)
include hinv

theorem MchInv.rlcBufferState {lcid txQueue : ℕ} (hsmall : txQueue < 2 ^ 28) :
    MchInv cfg { s with mch := s.mch.rlcBufferState lcid txQueue } := by
  refine ⟨?_, ?_, hinv.counter, fun hpos => ?_, fun hpos => ?_⟩
  · simpa [Mch.rlcBufferState] using hinv.length
  · intro size hsize
    simp only [Mch.rlcBufferState, List.map_map, List.mem_map, Function.comp_apply] at hsize
    obtain ⟨mtch, hmtch, rfl⟩ := hsize
    split_ifs
    · exact hsmall
    · exact hinv.buffers _ (mem_map_of_mem hmtch)
  · rw [map_rlcBufferState (fun _ _ => rfl)]
    exact hinv.announced hpos
  · rw [map_rlcBufferState (fun _ _ => rfl)]
    exact hinv.sorted hpos

/-- The buffer sizes have a sum of less than 2^31. -/
theorem MchInv.sum_lt : (s.mch.mtchSched.map (·.lcidBufferSize)).sum < 2 ^ 31 := by
  have hlen := hinv.length
  have hsessions := cfg.sessions_valid
  have hsum := sum_le_card_nsmul (s.mch.mtchSched.map (·.lcidBufferSize)) (2 ^ 28 - 1)
    fun size hsize => Nat.le_sub_one_of_lt (hinv.buffers size hsize)
  rw [length_map, hlen] at hsum
  simp only [nsmul_eq_mul, Nat.cast_id] at hsum
  omega

/-- What is read in the MCCH subframe is the new schedule. -/
theorem MchInv.mcch (ha : Announceable cfg) (readPdu : ℕ → ℕ → List UInt8) (buffer : ByteBuffer) :
    ((getMchSched cfg s.mch true readPdu buffer).2.data.map readSchedInfos).getD [] =
      (buildMchSched cfg.pmch.sfAllocEnd cfg.dataTbs s.mch.mtchSched).map schedInfo := by
  have hsessions := cfg.sessions_valid
  have hlen : (buildMchSched cfg.pmch.sfAllocEnd cfg.dataTbs s.mch.mtchSched).length =
      cfg.pmch.mbmsSessionInfoList.length := by
    rw [length_buildMchSched, hinv.length]
  have hstops := stop_le_buildMchSched cfg.pmch.sfAllocEnd ha.data hinv.sum_lt
  rw [hinv.length] at hstops
  obtain ⟨pdu, hpdu, -⟩ := getMchSched_mcch cfg s.mch (by rw [hinv.length]; omega) readPdu buffer
  rw [hpdu, map_some, getD_some]
  rw [getMchSched, if_pos rfl] at hpdu
  generalize buildMchSched _ _ _ = mtchSched at hlen hstops hpdu ⊢
  have hroom := ha.room
  exact readSchedInfos_mcch (by omega) cfg.mcch_valid (by omega) hpdu
    fun mtch hmtch => lt_of_le_of_lt (hstops mtch hmtch) ha.stops

theorem MchInv.step (h : Aligned cfg) (hperiod : cfg.area.mcchCfg.mcchRepeatPeriod ≠ .rf256)
    (ha : Announceable cfg) (hsmall : SmallReport s event) (hstep : mchStep cfg s event = some s') :
    MchInv cfg s' := by
  have hnext := periodPos_next cfg s.tti
  have hcounter := hinv.counter
  -- between two MCCH subframes only the counter changes
  have hlater : periodPos cfg s.tti ≠ 1 → ∀ n, (2 ≤ periodPos cfg ((s.tti + 1) % 10240) →
      n + (periodPos cfg ((s.tti + 1) % 10240) - 1) / 40 + 1 =
        periodPos cfg ((s.tti + 1) % 10240)) →
      MchInv cfg { s with tti := (s.tti + 1) % 10240, mch := ⟨s.mch.mtchSched, n⟩ } := by
    intro hone n hn
    exact ⟨hinv.length, hinv.buffers, hn, fun hpos => hinv.announced (by dsimp only at hpos; omega),
      fun hpos => hinv.sorted (by dsimp only at hpos; omega)⟩
  rcases mchStep_cases h hperiod hstep with
    ⟨lcid, txQueue, rfl, rfl⟩ | ⟨hcas, rfl⟩ | ⟨hone, readPdu, buffer, rfl⟩ | ⟨hcas, hone, rfl⟩
  · exact hinv.rlcBufferState hsmall
  · exact hlater (by omega) s.mch.currentSfAllocationNum (by omega)
  · have hlen := length_buildMchSched cfg.pmch.sfAllocEnd cfg.dataTbs s.mch.mtchSched
    have hsizes := map_lcidBufferSize_buildMchSched cfg.pmch.sfAllocEnd cfg.dataTbs s.mch.mtchSched
    have hsorted := pairwise_buildMchSched cfg.pmch.sfAllocEnd cfg.dataTbs s.mch.mtchSched
    rw [hinv.mcch ha, getMchSched, if_pos rfl]
    generalize buildMchSched _ _ _ = mtchSched at hlen hsizes hsorted ⊢
    refine ⟨hlen.trans hinv.length, ?_, fun hpos => ?_, fun _ => rfl, fun _ => hsorted⟩
    · rw [hsizes]
      exact hinv.buffers
    · dsimp only at hpos ⊢
      omega
  · exact hlater hone _ (by omega)

end

theorem mchInv_of_reachable (h : Aligned cfg)
    (hperiod : cfg.area.mcchCfg.mcchRepeatPeriod ≠ .rf256) (ha : Announceable cfg) {s : MchRunState}
    (hs : ((mchSystem cfg).restrict SmallReport).Reachable s) : MchInv cfg s := by
  refine hs.restrict_invariant (MchInv cfg) ?_ ?_
  case refine_2 =>
    intro s event s' hinv hsmall hstep
    exact hinv.step h hperiod ha hsmall hstep
  rintro _ rfl
  have hzero : ¬ 2 ≤ periodPos cfg 0 := by simp [periodPos]
  refine ⟨by simp [Mch.init], ?_, fun hpos => absurd hpos hzero, fun hpos => absurd hpos hzero,
    fun hpos => absurd hpos hzero⟩
  simp [Mch.init]

/-! ## The subframes of an MTCH -/

/-- The stop value before the entry `i`. -/
def stopBefore (announced : List (ℕ × ℕ)) (i : ℕ) : ℕ := (0 :: announced.map Prod.snd).getD i 0

/-- The entry `i` of the announcement gives the subframe `sfIdx` to the MTCH `lcid`. -/
def AssignedTo (announced : List (ℕ × ℕ)) (sfIdx i lcid : ℕ) : Prop :=
  ∃ stop, announced[i]? = some (lcid, stop) ∧ stopBefore announced i < sfIdx ∧ sfIdx ≤ stop

/-- No PDU is sent if the subframe is assigned to no MTCH; a PDU has data that RLC delivered for the
MTCH that it is assigned to, and nothing else. -/
def CarriesAssigned (announced : List (ℕ × ℕ)) (sfIdx : ℕ) (readPdu : ℕ → ℕ → List UInt8) :
    Option ByteBuffer → Prop
  | none => ∀ i lcid, ¬ AssignedTo announced sfIdx i lcid
  | some pdu => ∃ i lcid n, readMch pdu = [(lcid, readPdu lcid n)] ∧
      ∀ j lcid', AssignedTo announced sfIdx j lcid' ↔ j = i ∧ lcid' = lcid

theorem stopBefore_succ {announced : List (ℕ × ℕ)} {i : ℕ} {entry : ℕ × ℕ}
    (h : announced[i]? = some entry) : stopBefore announced (i + 1) = entry.2 := by
  simp [stopBefore, getD_eq_getElem?_getD, h]

/-- With stop values in order the intervals of the MTCHs do not overlap. -/
theorem AssignedTo.le {announced : List (ℕ × ℕ)} {sfIdx i j lcid lcid' : ℕ}
    (hsorted : (announced.map Prod.snd).Pairwise (· ≤ ·)) (h : AssignedTo announced sfIdx i lcid)
    (h' : AssignedTo announced sfIdx j lcid') : i ≤ j := by
  by_contra hlt
  obtain ⟨stop, hstop, hbefore, -⟩ := h
  obtain ⟨stop', hstop', -, hle⟩ := h'
  obtain ⟨k, rfl⟩ : ∃ k, i = k + 1 := ⟨i - 1, by omega⟩
  obtain ⟨hi, -⟩ := List.getElem?_eq_some_iff.mp hstop
  obtain ⟨hj, heq⟩ := List.getElem?_eq_some_iff.mp hstop'
  have hk : k < announced.length := by omega
  rw [stopBefore_succ (List.getElem?_eq_getElem hk)] at hbefore
  have hmono : announced[j].2 ≤ announced[k].2 := by
    rcases Nat.lt_or_eq_of_le (by omega : j ≤ k) with hjk | rfl
    · exact pairwise_iff_getElem.mp (pairwise_map.mp hsorted) j k hj hk hjk
    · exact le_rfl
  rw [heq] at hmono
  omega

variable {mch : Mch}

theorem exists_assignedTo {mtch : DlMtchSched} (hmtch : mch.currentMtch = some mtch)
    (hcount : 0 < mch.currentSfAllocationNum) :
    ∃ i, AssignedTo (mch.mtchSched.map schedInfo) mch.currentSfAllocationNum i mtch.lcid := by
  obtain ⟨hstop, i, hi, rfl, hfirst⟩ := find?_eq_some_iff_getElem.mp hmtch
  refine ⟨i, mch.mtchSched[i].stop, by simp [hi, schedInfo], ?_, of_decide_eq_true hstop⟩
  cases i with
  | zero => exact hcount
  | succ j =>
    have hj : (mch.mtchSched.map schedInfo)[j]? = some (schedInfo mch.mtchSched[j]) := by
      rw [List.getElem?_map, List.getElem?_eq_getElem (by omega), map_some]
    rw [stopBefore_succ hj]
    simpa [schedInfo] using hfirst j (Nat.lt_succ_self j)

theorem not_assignedTo (hsorted : (mch.mtchSched.map (·.stop)).Pairwise (· ≤ ·))
    (hlast : mch.lastStop < mch.currentSfAllocationNum) (i lcid : ℕ) :
    ¬ AssignedTo (mch.mtchSched.map schedInfo) mch.currentSfAllocationNum i lcid := by
  rintro ⟨stop, hget, -, hle⟩
  obtain ⟨mtch, hmtch, heq⟩ := mem_map.mp (mem_of_getElem? hget)
  obtain ⟨-, rfl⟩ := Prod.mk.inj heq
  have hne := ne_nil_of_mem hmtch
  have hlastStop : mch.lastStop = (mch.mtchSched.map (·.stop)).getLast (by simpa using hne) := by
    simp [Mch.lastStop, getLast?_eq_some_getLast hne]
  have hmax := hsorted.rel_getLast (mem_map_of_mem (f := (·.stop)) hmtch)
  omega

/-- RLC delivers at most what it is asked for; up to the last stop value it delivers something, of
at most half the transmit buffer. -/
structure Delivers (cfg : MchCfg) (mch : Mch) (readPdu : ℕ → ℕ → List UInt8) : Prop where
  le : ∀ lcid n, (readPdu lcid n).length ≤ n
  some : mch.currentSfAllocationNum ≤ mch.lastStop →
    1 ≤ (mch.readMtch cfg.dataTbs readPdu).length ∧
      2 * (mch.readMtch cfg.dataTbs readPdu).length ≤ emptyTailroom

theorem carriesAssigned_getMchSched {readPdu : ℕ → ℕ → List UInt8}
    (hread : Delivers cfg mch readPdu)
    (hne : mch.mtchSched ≠ []) (hsorted : (mch.mtchSched.map (·.stop)).Pairwise (· ≤ ·))
    (hcount : 0 < mch.currentSfAllocationNum) (buffer : ByteBuffer) :
    CarriesAssigned (mch.mtchSched.map schedInfo) mch.currentSfAllocationNum readPdu
      (getMchSched cfg mch false readPdu buffer).2.data := by
  by_cases hstop : mch.currentSfAllocationNum ≤ mch.lastStop
  · obtain ⟨mtch, hmtch⟩ := exists_currentMtch hne hstop
    obtain ⟨hpos, hhalf⟩ := hread.some hstop
    obtain ⟨pdu, hpdu, -⟩ := generateMchPdu_mtch buffer mch.mtchSched cfg.mcchPayload mtch.lcid
      (cfg.dataTbs / 8) hpos hhalf (by
        have hmax : emptyTailroom = 12237 := rfl
        have hhigh := (dataTbs_spec cfg).2.2
        omega)
    have hdata := readMch_mtch hpos (readMtch_lt cfg hread.le) hhalf hpdu
    obtain ⟨i, hi⟩ := exists_assignedTo hmtch hcount
    have hsnd : ((mch.mtchSched.map schedInfo).map Prod.snd).Pairwise (· ≤ ·) := by
      rwa [List.map_map]
    rw [getMchSched_data cfg hmtch hstop (by omega) buffer, hpdu]
    refine ⟨i, mtch.lcid, requestedBytes cfg.dataTbs mtch.lcidBufferSize, hdata.trans ?_,
      fun j lcid => ⟨fun hj => ?_, ?_⟩⟩
    · rw [Mch.readMtch, hmtch]
      rfl
    · obtain rfl := le_antisymm (hj.le hsnd hi) (hi.le hsnd hj)
      obtain ⟨_, hget, -⟩ := hi
      obtain ⟨_, hget', -⟩ := hj
      exact ⟨rfl, congrArg Prod.fst (some.inj (hget'.symm.trans hget))⟩
    · rintro ⟨rfl, rfl⟩
      exact hi
  · have hdata : (getMchSched cfg mch false readPdu buffer).2.data = none := by
      simp [getMchSched, hstop]
    rw [hdata]
    exact not_assignedTo hsorted (Nat.lt_of_not_le hstop)

/-- In the next subframe of the run the PHY comes to a decision. In an MBSFN subframe other than an
MCCH subframe the MAC uses the number that the PHY computes, and the PDU it hands over carries the
MTCH that the subframe was announced for. -/
def SendsAnnounced (cfg : MchCfg) (s : MchRunState) : Prop :=
  ∃ mbsfnCfg isMbsfn, isMbsfnSf (phyOf cfg) s.tti = some (mbsfnCfg, isMbsfn) ∧
    (isMbsfn = true → mbsfnCfg.isMcch = false →
      (s.mch.currentSfAllocationNum : ℤ) = pmchSfIdx cfg.pmch s.tti ∧
        ∀ readPdu buffer, Delivers cfg s.mch readPdu →
          CarriesAssigned s.announced (pmchSfIdx cfg.pmch s.tti).toNat readPdu
            (getMchSched cfg s.mch false readPdu buffer).2.data)

/-- In every run the MTCHs are sent in the subframes announced, except with a repetition period of
256 frames, where the PHY traps. -/
theorem sendsAnnounced_iff (cfg : MchCfg) (h : Aligned cfg) (ha : Announceable cfg) :
    (∀ s, ((mchSystem cfg).restrict SmallReport).Reachable s → SendsAnnounced cfg s) ↔
      cfg.area.mcchCfg.mcchRepeatPeriod ≠ .rf256 := by
  constructor
  · intro hall hperiod
    have hcas : isMbsfnSf (phyOf cfg) 0 = some (_, false) := rfl
    have hreach : ((mchSystem cfg).restrict SmallReport).Reachable ⟨1, .init cfg, []⟩ := by
      refine (System.Reachable.init rfl).step (a := .subframe (fun _ _ => []) ⟨fun _ => 0, 0, 0⟩) ?_
      exact System.step_restrict_eq_some.mpr ⟨trivial, by simp [mchSystem, mchStep, hcas]⟩
    obtain ⟨mbsfnCfg, isMbsfn, hsf, -⟩ := hall _ hreach
    simp [isMbsfnSf, isMchSubframe, isCasSubframe, phyOf, isMcchSubframe_rf256 hperiod] at hsf
  · intro hperiod s hs
    obtain ⟨mbsfnCfg, hsf, hmcch⟩ := exists_isMbsfnSf h hperiod s.tti
    refine ⟨mbsfnCfg, _, hsf, fun hmbsfn hdata => ?_⟩
    have hinv := mchInv_of_reachable h hperiod ha hs
    have hcas := (isCasSubframe_eq_false_iff cfg s.tti).mp (by simpa using hmbsfn)
    have hone : periodPos cfg s.tti ≠ 1 := by
      intro hone
      rw [(hmcch hcas).mpr hone] at hdata
      cases hdata
    have hpos : 2 ≤ periodPos cfg s.tti := by omega
    have hcount := hinv.counter hpos
    have hcounter : (s.mch.currentSfAllocationNum : ℤ) = pmchSfIdx cfg.pmch s.tti := by
      rw [pmchSfIdx_eq]
      omega
    refine ⟨hcounter, fun readPdu buffer hread => ?_⟩
    have hne : s.mch.mtchSched ≠ [] := by
      have hsessions := cfg.sessions_valid
      refine ne_nil_of_length_pos ?_
      rw [hinv.length]
      omega
    rw [← hcounter, Int.toNat_natCast, hinv.announced hpos]
    exact carriesAssigned_getMchSched hread hne (hinv.sorted hpos) (by omega) buffer

/-- A hundred bytes are reported in time for the first MCCH subframe. -/
theorem sendsAnnounced_exampleCfg :
    ∃ s, ((mchSystem exampleCfg).restrict SmallReport).Reachable s ∧
      (s.tti = 2 ∧ s.announced = [(1, 1)]) ∧ SendsAnnounced exampleCfg s := by
  have ha : Announceable exampleCfg := ⟨by decide, by decide, by decide⟩
  exact System.exists_reachable_and rfl
    [.rlcBufferState 1 100, .subframe (fun _ _ => []) ⟨fun _ => 0, 0, 0⟩,
      .subframe (fun _ _ => []) ⟨fun _ => 0, 0, 0⟩] (by decide +kernel)
    fun s hs _ => (sendsAnnounced_iff exampleCfg ⟨rfl, rfl, rfl⟩ ha).mpr (by decide) s hs

/-- The example configuration with periods of 256 frames. -/
def exampleCfg256 : MchCfg :=
  { exampleCfg with
      area :=
        { exampleCfg.area with
            mcchCfg := { exampleCfg.area.mcchCfg with mcchRepeatPeriod := .rf256 } }
      pmch := { exampleCfg.pmch with mchSchedPeriod := .rf256 } }

/-- With periods of 256 frames, stored in eight bits, the run is stuck in the first MCCH subframe,
and nothing is ever announced or sent. -/
theorem not_sendsAnnounced_rf256 :
    Aligned exampleCfg256 ∧ ∃ s, (mchSystem exampleCfg256).Reachable s ∧
      isMbsfnSf (phyOf exampleCfg256) s.tti = none ∧ ¬ SendsAnnounced exampleCfg256 s := by
  have htrap : isMbsfnSf (phyOf exampleCfg256) 1 = none := by decide
  refine ⟨⟨rfl, rfl, rfl⟩, ⟨1, .init exampleCfg256, []⟩, ?_, htrap, ?_⟩
  · exact (System.Reachable.init rfl).step (a := .subframe (fun _ _ => []) ⟨fun _ => 0, 0, 0⟩) rfl
  · rintro ⟨mbsfnCfg, isMbsfn, hsf, -⟩
    exact absurd (htrap.symm.trans hsf) (by simp)

end MbmsTx.Mbsfn
