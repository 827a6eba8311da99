import Mathlib.Data.Nat.Count
import MbmsTx.Rlc.Am.RxRuns

/-!
# Soundness of status reports

`get_status_pdu` goes through the sequence numbers from `vr_r` on and stops at `vr_ms`, when the
report outgrows the grant, or when its list of NACKs is full. In the first two cases the report is
sound: what it acknowledges was received, and what it NACKs was not. In the third `ack_sn` stays
behind the NACKs.

The list can be full: `vr_ms` is 512 ahead of `vr_r` when the segments of a PDU at the end of the
window arrived, and further ahead when an oversized PDU made `vr_r` pass `vr_h`.
-/

namespace MbmsTx.Rlc.Am

open MbmsTx.Transition List Nat

namespace Rx

variable {s : Rx} {d e k maxPduSize : ℕ}

/-! ## Sequence numbers in the order of the loop -/

/-- The sequence number that is `d` ahead of `vr_r`. -/
def snAt (s : Rx) (d : ℕ) : ℕ := (s.vrR + d) % snMod

theorem snAt_lt (s : Rx) (d : ℕ) : s.snAt d < snMod := mod_lt _ (by decide)

theorem dist_snAt (hvrR : s.vrR < snMod) (d : ℕ) : seqDist snMod s.vrR (s.snAt d) = d % snMod := by
  simp only [seqDist, snAt, snMod] at *
  omega

theorem modBase_lt (s : Rx) (sn : ℕ) : s.modBase sn < snMod := mod_lt _ (by decide)

theorem modBase_snAt (hvrR : s.vrR < snMod) (d : ℕ) : s.modBase (s.snAt d) = d % snMod := by
  rw [modBase_eq hvrR (s.snAt_lt d), dist_snAt hvrR]

theorem snAt_modBase {sn : ℕ} (hvrR : s.vrR < snMod) (hsn : sn < snMod) :
    s.snAt (s.modBase sn) = sn := by
  rw [modBase_eq hvrR hsn]
  simp only [seqDist, snAt, snMod] at *
  omega

/-- The sequence number `d` ahead of `vr_r` is NACKed by the loop. -/
def Nacked (s : Rx) (d : ℕ) : Prop :=
  s.rxWindow.contains (s.snAt d) = false ∧ s.snAt d ≠ s.vrMs

instance (s : Rx) : DecidablePred s.Nacked := fun _ => inferInstanceAs (Decidable (_ ∧ _))

/-- What is behind the window is NACKed, apart from `vr_ms`. -/
theorem WindowInv.nacked_of_ge (h : s.WindowInv) (hd : windowSize ≤ d % snMod)
    (hne : s.snAt d ≠ s.vrMs) : s.Nacked d := by
  refine ⟨?_, hne⟩
  by_contra hcontains
  have hlt := (h.window _ (Bool.eq_true_of_not_eq_false hcontains)).2
  rw [dist_snAt h.vrR_lt] at hlt
  omega

/-- Before `vr_ms`, what is NACKed is what is missing. -/
theorem WindowInv.nacked_iff (h : s.WindowInv) (hd : d < s.modBase s.vrMs) :
    s.Nacked d ↔ s.rxWindow.contains (s.snAt d) = false := by
  refine ⟨And.left, fun hmissing => ⟨hmissing, fun heq => ?_⟩⟩
  have hbase := modBase_snAt h.vrR_lt d
  rw [heq, mod_eq_of_lt (hd.trans (s.modBase_lt _))] at hbase
  omega

theorem WindowInv.not_nacked_vrMs (h : s.WindowInv) : ¬ s.Nacked (s.modBase s.vrMs) :=
  fun hnacked => hnacked.2 (snAt_modBase h.vrR_lt h.vrMs_lt)

/-! ## The report of the first rounds -/

/-- The report after `d` rounds that fit the grant. -/
def report (s : Rx) : ℕ → StatusPdu
  | 0 => { ackSn := s.vrR, nacks := [] }
  | d + 1 => s.reportSn (s.snAt d) (s.report d)

theorem report_succ_of_nacked (h : s.Nacked d) : s.report (d + 1) =
      { s.report d with nacks := (s.report d).nacks ++ [{ nackSn := s.snAt d }] } := by
  rw [report, reportSn, h.1, decide_eq_false h.2]
  rfl

theorem report_succ_of_not_nacked (h : ¬ s.Nacked d) :
    s.report (d + 1) = { s.report d with ackSn := s.snAt d } := by
  have hreceived : (s.rxWindow.contains (s.snAt d) || decide (s.snAt d = s.vrMs)) := by
    simpa [Nacked, not_and_or, or_iff_not_imp_left] using h
  rw [report, reportSn, if_pos hreceived]

theorem nacks_report (s : Rx) (d : ℕ) : (s.report d).nacks =
      ((List.range d).filter fun k => decide (s.Nacked k)).map fun k => { nackSn := s.snAt k } := by
  induction d with
  | zero => rfl
  | succ d ih =>
    rw [range_succ, filter_append, map_append]
    by_cases hd : s.Nacked d
    · rw [report_succ_of_nacked hd, filter_cons_of_pos (by simpa using hd), ← ih]
      rfl
    · rw [report_succ_of_not_nacked hd, filter_cons_of_neg (by simpa using hd), ← ih]
      simp

theorem length_nacks_report (s : Rx) (d : ℕ) :
    (s.report d).nacks.length = count s.Nacked d := by
  induction d with
  | zero => rfl
  | succ d ih =>
    rw [count_succ, ← ih]
    by_cases hd : s.Nacked d
    · rw [report_succ_of_nacked hd, if_pos hd, length_append]
      rfl
    · rw [report_succ_of_not_nacked hd, if_neg hd, add_zero]

theorem mem_nacks_report {nack : Nack} :
    nack ∈ (s.report d).nacks ↔ ∃ k < d, s.Nacked k ∧ nack = { nackSn := s.snAt k } := by
  rw [nacks_report]
  constructor
  · intro h
    obtain ⟨k, hk, rfl⟩ := mem_map.mp h
    rw [mem_filter, mem_range, decide_eq_true_eq] at hk
    exact ⟨k, hk.1, hk.2, rfl⟩
  · rintro ⟨k, hk, hnacked, rfl⟩
    refine mem_map.mpr ⟨k, ?_, rfl⟩
    rw [mem_filter, mem_range, decide_eq_true_eq]
    exact ⟨hk, hnacked⟩

theorem packedLength_report (s : Rx) (d : ℕ) :
    (s.report d).packedLength = (22 + 12 * count s.Nacked d) / 8 := by
  rw [StatusPdu.packedLength_of_whole, length_nacks_report]
  intro nack hnack
  obtain ⟨k, -, -, rfl⟩ := mem_nacks_report.mp hnack
  rfl

/-- `ack_sn` is at the start, or at the last round without NACK. -/
theorem ackSn_report (s : Rx) (d : ℕ) : ((∀ k < d, s.Nacked k) ∧ (s.report d).ackSn = s.vrR) ∨
      ∃ a < d, ¬ s.Nacked a ∧ (∀ k, a < k → k < d → s.Nacked k) ∧
        (s.report d).ackSn = s.snAt a := by
  induction d with
  | zero => exact .inl ⟨fun k hk => absurd hk (not_lt_zero k), rfl⟩
  | succ d ih =>
    by_cases hd : s.Nacked d
    · have hack : (s.report (d + 1)).ackSn = (s.report d).ackSn := by
        rw [report_succ_of_nacked hd]
      rcases ih with ⟨hall, heq⟩ | ⟨a, ha, hnot, hafter, heq⟩
      · exact .inl ⟨Nat.forall_lt_succ_right.mpr ⟨hall, hd⟩, hack.trans heq⟩
      refine .inr ⟨a, by omega, hnot, fun k hak hk => ?_, hack.trans heq⟩
      rcases Nat.lt_succ_iff_lt_or_eq.mp hk with hlt | rfl
      · exact hafter k hak hlt
      · exact hd
    · refine .inr ⟨d, lt_succ_self d, hd, fun k hdk hk => by omega, ?_⟩
      rw [report_succ_of_not_nacked hd]

theorem snAt_inj (hk : k < snMod) (he : e < snMod) (hvrR : s.vrR < snMod)
    (h : s.snAt k = s.snAt e) : k = e := by
  have hdist := congrArg (seqDist snMod s.vrR) h
  rwa [dist_snAt hvrR, dist_snAt hvrR, mod_eq_of_lt hk, mod_eq_of_lt he] at hdist

theorem nodup_nacks_report : ((s.report d).nacks.map Nack.nackSn).Nodup ↔
      ∀ k < d, s.Nacked k → ∀ e < d, s.Nacked e → s.snAt k = s.snAt e → k = e := by
  have hnodup : ((List.range d).filter fun k => decide (s.Nacked k)).Nodup :=
    nodup_range.filter _
  rw [nacks_report, map_map]
  refine (nodup_map_iff_inj_on hnodup).trans ?_
  simp

/-! ## The rounds of the loop -/

/-- The condition of the loop in round `d`. -/
def Continues (s : Rx) (d : ℕ) : Prop :=
  d % snMod ≤ s.modBase s.vrMs ∧ count s.Nacked d < windowSize

theorem continues_iff (hvrR : s.vrR < snMod) (d : ℕ) : s.Continues d ↔
      s.modBase (s.snAt d) ≤ s.modBase s.vrMs ∧ (s.report d).nacks.length < windowSize := by
  rw [Continues, modBase_snAt hvrR, length_nacks_report]

/-- The loop goes on after round `d`. -/
def Passes (s : Rx) (maxPduSize d : ℕ) : Prop :=
  s.Continues d ∧ (s.report (d + 1)).packedLength ≤ maxPduSize

/-- The result when the report outgrows the grant in round `d`. -/
def outgrown (s : Rx) (d : ℕ) : Option StatusPdu :=
  if 1 ≤ (s.report (d + 1)).nacks.length ∧ (s.report (d + 1)).nacks.length < windowSize then
    some (s.cutStatus (s.report (d + 1))) else none

/-- How the loop from round `d` on ends: in a round `e` its condition fails, the rounds are used up,
or the report outgrows the grant. -/
theorem statusLoop_cases (hvrR : s.vrR < snMod) (maxPduSize fuel d : ℕ) :
    ∃ e, e ≤ d + fuel ∧ (∀ k, d ≤ k → k < e → s.Passes maxPduSize k) ∧
      ((s.statusLoop maxPduSize fuel (s.snAt d) (s.report d) = some (s.report e) ∧
          (¬ s.Continues e ∨ e = d + fuel)) ∨
        (s.Continues e ∧ maxPduSize < (s.report (e + 1)).packedLength ∧
          s.statusLoop maxPduSize fuel (s.snAt d) (s.report d) = s.outgrown e)) := by
  induction fuel generalizing d with
  | zero => exact ⟨d, le_rfl, fun k hk hk' => by omega, .inl ⟨rfl, .inr rfl⟩⟩
  | succ fuel ih =>
    have hsucc : (s.snAt d + 1) % snMod = s.snAt (d + 1) := by
      rw [snAt, snAt, mod_add_mod, add_assoc]
    rw [statusLoop]
    by_cases hgo : s.Continues d
    · rw [if_pos ((continues_iff hvrR d).mp hgo), hsucc]
      change ∃ e, e ≤ d + (fuel + 1) ∧ _ ∧
        ((if maxPduSize < (s.report (d + 1)).packedLength then _
          else s.statusLoop maxPduSize fuel (s.snAt (d + 1)) (s.report (d + 1))) = _ ∧ _ ∨
        _ ∧ _ ∧ (if maxPduSize < (s.report (d + 1)).packedLength then _
          else s.statusLoop maxPduSize fuel (s.snAt (d + 1)) (s.report (d + 1))) = _)
      by_cases hfit : maxPduSize < (s.report (d + 1)).packedLength
      · refine ⟨d, by omega, fun k hk hk' => by omega, .inr ⟨hgo, hfit, ?_⟩⟩
        rw [if_pos hfit]
        rfl
      obtain ⟨e, hle, hbefore, hend⟩ := ih (d + 1)
      refine ⟨e, by omega, fun k hk hk' => ?_, ?_⟩
      · rcases eq_or_lt_of_le hk with rfl | hlt
        · exact ⟨hgo, not_lt.mp hfit⟩
        · exact hbefore k hlt hk'
      · rw [if_neg hfit]
        have hfuel : d + (fuel + 1) = d + 1 + fuel := by omega
        rw [hfuel]
        exact hend
    · rw [if_neg fun hgo' => hgo ((continues_iff hvrR d).mpr hgo')]
      exact ⟨d, by omega, fun k hk hk' => by omega, .inl ⟨rfl, .inl hgo⟩⟩

theorem count_nacked_add {a n : ℕ} (h : ∀ k < n, s.Nacked (a + k)) :
    count s.Nacked (a + n) = count s.Nacked a + n := by
  rw [count_add, count_of_forall h]

section

variable (h : s.WindowInv)
include h

theorem WindowInv.nacked_of_ge_of_ne (hd : windowSize ≤ d) (hlt : d < snMod)
    (hne : d ≠ s.modBase s.vrMs) : s.Nacked d := by
  refine h.nacked_of_ge (by rw [mod_eq_of_lt hlt]; exact hd) fun heq => hne ?_
  have hbase := modBase_snAt h.vrR_lt d
  rw [heq, mod_eq_of_lt hlt] at hbase
  omega

/-- At least 511 sequence numbers are NACKed: those behind the window, apart from `vr_ms`. -/
theorem WindowInv.le_count_snMod : windowSize ≤ count s.Nacked snMod + 1 := by
  have hM : snMod = windowSize + windowSize := rfl
  by_cases hms : s.modBase s.vrMs < windowSize
  · have hall := count_nacked_add (a := windowSize) (n := windowSize) fun k hk =>
      h.nacked_of_ge_of_ne (by omega) (by omega) (by omega)
    rw [hM]
    omega
  · have hlt := s.modBase_lt s.vrMs
    have hbelow := count_nacked_add (a := windowSize)
      (n := s.modBase s.vrMs - windowSize) fun k hk =>
        h.nacked_of_ge_of_ne (by omega) (by omega) (by omega)
    have habove := count_nacked_add (a := s.modBase s.vrMs + 1)
      (n := snMod - (s.modBase s.vrMs + 1)) fun k hk =>
        h.nacked_of_ge_of_ne (by omega) (by omega) (by omega)
    have hmid := count_monotone s.Nacked (le_succ (s.modBase s.vrMs))
    rw [Nat.add_sub_cancel' (by omega)] at hbelow habove
    rw [succ_eq_add_one] at hmid
    omega

theorem WindowInv.le_count_of_nacked (hd : snMod ≤ d) (hnacked : s.Nacked d) :
    windowSize ≤ count s.Nacked (d + 1) := by
  have hmono := count_monotone s.Nacked hd
  have hfirst := h.le_count_snMod
  rw [count_succ, if_pos hnacked]
  omega

theorem WindowInv.not_continues : ¬ s.Continues (2 * snMod - 1) := by
  rintro ⟨-, hcount⟩
  have hW : windowSize = 512 := rfl
  have hM : snMod = 1024 := rfl
  -- two neighbours behind the window, of which `vr_ms` is only one
  obtain ⟨d, hd, hd', hnacked⟩ : ∃ d, snMod ≤ d ∧ d + 1 ≤ 2 * snMod - 1 ∧ s.Nacked d := by
    by_cases heq : s.snAt (snMod + windowSize) = s.vrMs
    · refine ⟨snMod + windowSize + 1, by omega, by omega, h.nacked_of_ge (by decide) ?_⟩
      rw [← heq, snAt, snAt, hM, hW]
      omega
    · exact ⟨snMod + windowSize, by omega, by omega, h.nacked_of_ge (by decide) heq⟩
  have hfull := h.le_count_of_nacked hd hnacked
  have hmono := count_monotone s.Nacked hd'
  omega

/-- How `get_status_pdu` ends: in a round `e` the condition of its loop fails, or the report
outgrows the grant. -/
theorem WindowInv.fillStatus_cases (maxPduSize : ℕ) : ∃ e, (∀ k < e, s.Passes maxPduSize k) ∧
      ((s.fillStatus maxPduSize = some (s.report e) ∧ ¬ s.Continues e) ∨
        (s.Continues e ∧ maxPduSize < (s.report (e + 1)).packedLength ∧
          s.fillStatus maxPduSize = s.outgrown e)) := by
  obtain ⟨e, hle, hbefore, hend⟩ := statusLoop_cases h.vrR_lt maxPduSize (2 * snMod) 0
  have hstart : s.snAt 0 = s.vrR := mod_eq_of_lt h.vrR_lt
  rw [hstart] at hend
  refine ⟨e, fun k hk => hbefore k (zero_le k) hk, ?_⟩
  rcases hend with ⟨hresult, hstop⟩ | hend
  · refine .inl ⟨hresult, ?_⟩
    rcases hstop with hstop | rfl
    · exact hstop
    · have hM : snMod = 1024 := rfl
      exact absurd (hbefore (2 * snMod - 1) (zero_le _) (by omega)).1 h.not_continues
  · exact .inr hend

/-! ## Sound reports -/

/-- What a status PDU says is true of the receive window. Sequence numbers are compared by how far
they are ahead of `vr_r`. -/
structure StatusSound (s : Rx) (status : StatusPdu) : Prop where
  acked : ∀ sn < snMod, s.modBase sn < s.modBase status.ackSn →
    (∀ nack ∈ status.nacks, nack.nackSn ≠ sn) → s.rxWindow.contains sn = true
  missing : ∀ nack ∈ status.nacks, s.rxWindow.contains nack.nackSn = false
  before : ∀ nack ∈ status.nacks, s.modBase nack.nackSn < s.modBase status.ackSn
  ackSn_le : s.modBase status.ackSn ≤ s.modBase s.vrMs
  nodup : (status.nacks.map Nack.nackSn).Nodup

theorem WindowInv.sound_empty : s.StatusSound { ackSn := s.vrR, nacks := [] } := by
  have hzero : s.modBase s.vrR = 0 := by
    rw [modBase_eq h.vrR_lt h.vrR_lt, seqDist_self h.vrR_lt]
  refine ⟨fun sn _ hlt => ?_, by simp, by simp, by rw [hzero]; omega, nodup_nil⟩
  rw [hzero] at hlt
  omega

/-- A report of the first time through is sound when `ack_sn` is behind its NACKs and not behind
`vr_ms`. -/
theorem WindowInv.sound_report {a : ℕ} (hd : d ≤ snMod) (had : a < d) (ha : a ≤ s.modBase s.vrMs)
    (hack : (s.report d).ackSn = s.snAt a)
    (hlast : ∀ k < d, s.Nacked k → k < a) : s.StatusSound (s.report d) := by
  have hbase : ∀ k < d, s.modBase (s.snAt k) = k := fun k hk => by
    rw [modBase_snAt h.vrR_lt, mod_eq_of_lt (hk.trans_le hd)]
  refine ⟨?_, ?_, ?_, ?_, ?_⟩
  · intro sn hsn hlt hnotin
    rw [hack, hbase a had] at hlt
    have hnot : ¬ s.Nacked (s.modBase sn) := fun hnacked =>
      hnotin _ (mem_nacks_report.mpr ⟨s.modBase sn, hlt.trans had, hnacked, rfl⟩)
        (snAt_modBase h.vrR_lt hsn)
    rw [h.nacked_iff (hlt.trans_le ha), snAt_modBase h.vrR_lt hsn] at hnot
    exact Bool.eq_true_of_not_eq_false hnot
  · intro nack hnack
    obtain ⟨k, -, hnacked, rfl⟩ := mem_nacks_report.mp hnack
    exact hnacked.1
  · intro nack hnack
    obtain ⟨k, hk, hnacked, rfl⟩ := mem_nacks_report.mp hnack
    rw [hack, hbase k hk, hbase a had]
    exact hlast k hk hnacked
  · rw [hack, hbase a had]
    exact ha
  · refine nodup_nacks_report.mpr fun k hk _ e he _ heq => ?_
    exact snAt_inj (hk.trans_le hd) (he.trans_le hd) h.vrR_lt heq

/-- The report that ends with `vr_ms` is sound. -/
theorem WindowInv.sound_whole : s.StatusSound (s.report (s.modBase s.vrMs + 1)) := by
  refine h.sound_report (s.modBase_lt _) (lt_succ_self _) le_rfl ?_ fun k hk hnacked => ?_
  · rw [report_succ_of_not_nacked h.not_nacked_vrMs]
  · have hne : k ≠ s.modBase s.vrMs := fun heq => h.not_nacked_vrMs (heq ▸ hnacked)
    omega

/-- The check of a cut report is exact: a valid one has all its NACKs before `ack_sn`. -/
theorem WindowInv.sound_of_isValid (hd : d ≤ s.modBase s.vrMs)
    (hvalid : (s.report d).isValid s.vrR) : s.StatusSound (s.report d) := by
  have hlt := s.modBase_lt s.vrMs
  rw [StatusPdu.isValid, Bool.and_eq_true, all_eq_true] at hvalid
  have hnack : ∀ k < d, s.Nacked k →
      (snMod + (s.report d).ackSn - s.snAt k) % snMod ≤ windowSize ∧
        s.snAt k ≠ (s.report d).ackSn := by
    intro k hk hnacked
    have hall := hvalid.2 _ (mem_nacks_report.mpr ⟨k, hk, hnacked, rfl⟩)
    simpa using hall
  rcases s.ackSn_report d with ⟨hall, hack⟩ | ⟨a, had, hnot, hafter, hack⟩
  · -- nothing was received, so `vr_r` would be NACKed as well
    rcases Nat.eq_zero_or_pos d with rfl | hpos
    · exact h.sound_empty
    · exact absurd ((mod_eq_of_lt h.vrR_lt).trans hack.symm) (hnack 0 hpos (hall 0 hpos)).2
  · have hend : a + 1 = d := by
      by_contra hne
      have hnext := (hnack (a + 1) (by omega) (hafter (a + 1) (by omega) (by omega))).1
      rw [hack] at hnext
      simp only [snAt, snMod, windowSize] at hnext
      omega
    refine h.sound_report (by omega) had (by omega) hack fun k hk hnacked => ?_
    have hne : k ≠ a := fun heq => hnot (heq ▸ hnacked)
    omega

omit h in
theorem cutStatus_of_nacked (hnacked : s.Nacked e) : s.cutStatus (s.report (e + 1)) =
      if (s.report e).isValid s.vrR then s.report e else { ackSn := s.vrR, nacks := [] } := by
  rw [report_succ_of_nacked hnacked, cutStatus]
  simp

/-! ## When reports are sound -/

/-- How many of the SNs from `vr_r` to `vr_ms` were not received. -/
def missingBefore (s : Rx) : ℕ :=
  count (fun d => s.rxWindow.contains (s.snAt d) = false) (s.modBase s.vrMs)

theorem WindowInv.count_nacked : count s.Nacked (s.modBase s.vrMs) = s.missingBefore := by
  have hcount : ∀ d ≤ s.modBase s.vrMs, count s.Nacked d =
      count (fun d => s.rxWindow.contains (s.snAt d) = false) d := by
    intro d hd
    induction d with
    | zero => rfl
    | succ d ih =>
      have hiff := h.nacked_iff (d := d) (by omega)
      rw [count_succ, count_succ, ih (by omega)]
      simp only [hiff]
  exact hcount _ le_rfl

/-- The list of NACKs does not fill up before `vr_ms`, or the grant is too small for a full list. -/
def ReportEnds (s : Rx) (maxPduSize : ℕ) : Prop :=
  maxPduSize < 770 ∨ s.modBase s.vrMs < 1023 ∧ s.missingBefore < windowSize

omit h in
theorem nacked_of_outgrown (hbefore : ∀ k < e, s.Passes maxPduSize k)
    (hfit : maxPduSize < (s.report (e + 1)).packedLength)
    (hpos : 1 ≤ (s.report (e + 1)).nacks.length) : s.Nacked e := by
  by_contra hnot
  have hsame : count s.Nacked (e + 1) = count s.Nacked e := by
    rw [count_succ, if_neg hnot, add_zero]
  rw [length_nacks_report, hsame] at hpos
  cases e with
  | zero => cases hpos
  | succ e =>
    have hprev := (hbefore e (lt_succ_self e)).2
    rw [packedLength_report] at hprev hfit
    omega

theorem WindowInv.sound_cutStatus (hbefore : ∀ k < e, s.Passes maxPduSize k)
    (hgo : s.Continues e) (hfit : maxPduSize < (s.report (e + 1)).packedLength)
    (hpos : 1 ≤ (s.report (e + 1)).nacks.length)
    (hfull : (s.report (e + 1)).nacks.length < windowSize) :
    s.StatusSound (s.cutStatus (s.report (e + 1))) := by
  have hnacked := nacked_of_outgrown hbefore hfit hpos
  have hfirst : e < snMod := by
    by_contra hge
    have hcount := h.le_count_of_nacked (not_lt.mp hge) hnacked
    rw [length_nacks_report] at hfull
    omega
  have hle : e ≤ s.modBase s.vrMs := by
    rw [← mod_eq_of_lt hfirst]
    exact hgo.1
  rw [cutStatus_of_nacked hnacked]
  split
  · next hvalid => exact h.sound_of_isValid hle hvalid
  · exact h.sound_empty

omit h in
theorem stop_cases (hbefore : ∀ k < e, s.Continues k) (hstop : ¬ s.Continues e) :
    (e = s.modBase s.vrMs + 1 ∧ s.modBase s.vrMs + 1 < snMod) ∨
      windowSize ≤ count s.Nacked e := by
  have hlt := s.modBase_lt s.vrMs
  by_cases hcount : windowSize ≤ count s.Nacked e
  · omega
  have hmod : s.modBase s.vrMs < e % snMod := by
    by_contra hle
    exact hstop ⟨Nat.not_lt.mp hle, not_le.mp hcount⟩
  have hnext : s.modBase s.vrMs + 1 < snMod := by
    have hmodlt : e % snMod < snMod := mod_lt _ (by decide)
    omega
  have hle : e ≤ s.modBase s.vrMs + 1 := by
    by_contra hgt
    have hgo := (hbefore (s.modBase s.vrMs + 1) (by omega)).1
    rw [mod_eq_of_lt hnext] at hgo
    omega
  refine .inl ⟨?_, hnext⟩
  rw [mod_eq_of_lt (by omega)] at hmod
  omega

theorem WindowInv.not_sound_of_full (hbefore : ∀ k < e, s.Continues k)
    (hfull : windowSize ≤ count s.Nacked e) : ¬ s.StatusSound (s.report e) := by
  intro hsound
  cases e with
  | zero => exact absurd hfull (by rw [count_zero]; decide)
  | succ e =>
    have hnacked : s.Nacked e := by
      by_contra hnot
      have hgo := (hbefore e (lt_succ_self e)).2
      rw [count_succ, if_neg hnot] at hfull
      omega
    have hmem : { nackSn := s.snAt e } ∈ (s.report (e + 1)).nacks :=
      mem_nacks_report.mpr ⟨e, lt_succ_self e, hnacked, rfl⟩
    by_cases hfirst : e < snMod
    · -- the last round added a NACK, so `ack_sn` is before it
      have hlt := hsound.before _ hmem
      rw [modBase_snAt h.vrR_lt, mod_eq_of_lt hfirst] at hlt
      rcases s.ackSn_report (e + 1) with ⟨-, hack⟩ | ⟨a, ha, -, -, hack⟩
      · rw [hack, modBase_eq h.vrR_lt h.vrR_lt, seqDist_self h.vrR_lt] at hlt
        omega
      · rw [hack, modBase_snAt h.vrR_lt, mod_eq_of_lt (by omega)] at hlt
        omega
    · -- the SN of the last round was NACKed the first time as well
      have hM : snMod = 1024 := rfl
      have hsn : s.snAt (e - snMod) = s.snAt e := by
        rw [snAt, snAt, hM]
        omega
      have hprev : s.Nacked (e - snMod) := by
        rw [Nacked, hsn]
        exact hnacked
      have heq := nodup_nacks_report.mp hsound.nodup (e - snMod) (by omega) hprev e
        (lt_succ_self e) hnacked hsn
      omega

/-- When more is missing than the list of NACKs can hold, and the grant has room for it, the report
is not sound. -/
theorem WindowInv.exists_unsound (hbig : 770 ≤ maxPduSize)
    (hmany : 1023 ≤ s.modBase s.vrMs ∨ windowSize ≤ s.missingBefore) :
    ∃ status, s.fillStatus maxPduSize = some status ∧ status.packedLength ≤ maxPduSize ∧
      ¬ s.StatusSound status := by
  have hW : windowSize = 512 := rfl
  have hM : snMod = 1024 := rfl
  obtain ⟨e, hbefore, ⟨hfill, hstop⟩ | ⟨hgo, hfit, -⟩⟩ := h.fillStatus_cases maxPduSize
  · have hgoes : ∀ k < e, s.Continues k := fun k hk => (hbefore k hk).1
    have hfull : windowSize ≤ count s.Nacked e := by
      rcases stop_cases hgoes hstop with ⟨rfl, hnext⟩ | hfull
      · have hcount := (hgoes (s.modBase s.vrMs) (lt_succ_self _)).2
        rw [h.count_nacked] at hcount
        omega
      · exact hfull
    refine ⟨s.report e, hfill, ?_, h.not_sound_of_full hgoes hfull⟩
    cases e with
    | zero => exact absurd hfull (by rw [count_zero]; decide)
    | succ e => exact (hbefore e (lt_succ_self e)).2
  · -- a report with at most 512 NACKs fits the grant
    have hcount := hgo.2
    have hsucc : count s.Nacked (e + 1) ≤ count s.Nacked e + 1 := by
      rw [count_succ]
      split <;> omega
    rw [packedLength_report] at hfit
    omega

end

/-- What `get_status_pdu` fills is sound, and has the length that it returns, for every grant
exactly when its loop ends before the list of NACKs is full. -/
theorem statusPdu_sound_iff (hs : rxSystem.Reachable s) (maxPduSize : ℕ) :
    (∀ status, (s.getStatusPdu maxPduSize).2 = some status →
      status.packedLength ≤ maxPduSize →
        s.StatusSound status ∧ status.packedLength = (writeStatusPdu status).length) ↔
      s.ReportEnds maxPduSize := by
  have h := windowInv hs
  obtain ⟨poll, flag, hget⟩ := s.getStatusPdu_eq maxPduSize
  have hW : windowSize = 512 := rfl
  have hM : snMod = 1024 := rfl
  rw [hget]
  constructor
  · intro hall
    by_contra hnot
    rw [ReportEnds, not_or, not_lt, not_and_or, not_lt, not_lt] at hnot
    obtain ⟨status, hfill, hlen, hunsound⟩ := h.exists_unsound hnot.1 hnot.2
    exact hunsound (hall status hfill hlen).1
  · rintro hends status hfilled hlen
    refine ⟨?_, (StatusPdu.length_writeStatusPdu status).symm⟩
    obtain ⟨e, hbefore, hend⟩ := h.fillStatus_cases maxPduSize
    rcases hend with ⟨hfill, hstop⟩ | ⟨hgo, hfit, hfill⟩
    · obtain rfl := Option.some.inj (hfill.symm.trans hfilled)
      rcases stop_cases (fun k hk => (hbefore k hk).1) hstop with ⟨rfl, -⟩ | hfull
      · exact h.sound_whole
      exfalso
      rw [packedLength_report] at hlen
      rcases hends with hsmall | ⟨hnext, hfew⟩
      · omega
      -- the loop has not passed `vr_ms`
      have hle : e ≤ s.modBase s.vrMs + 1 := by
        by_contra hgt
        have hgo := (hbefore (s.modBase s.vrMs + 1) (by omega)).1.1
        rw [mod_eq_of_lt (by omega)] at hgo
        omega
      have hmono := count_monotone s.Nacked hle
      rw [count_succ, if_neg h.not_nacked_vrMs, h.count_nacked] at hmono
      omega
    · rw [hfill, outgrown] at hfilled
      split at hfilled
      · next hcut =>
        cases hfilled
        exact h.sound_cutStatus hbefore hgo hfit hcut.1 hcut.2
      · cases hfilled

/-- A receiver that misses the first PDU reports it. -/
theorem statusPdu_sound_of_one_missing : ∃ s, rxSystem.Reachable s ∧
      s.StatusSound { ackSn := 2, nacks := [{ nackSn := 0 }] } := by
  have hrun : ∃ s, rxSystem.Reachable s ∧
      (s.getStatusPdu 100).2 = some { ackSn := 2, nacks := [{ nackSn := 0 }] } :=
    System.exists_reachable_of_run rfl [.writePdu [0x80, 0x01, 7], .timerExpired] (by rfl)
  obtain ⟨s, hreach, hstatus⟩ := hrun
  have hsound := (statusPdu_sound_iff hreach 100).mpr (.inl (by decide))
  exact ⟨s, hreach, (hsound _ hstatus (by decide)).1⟩

/-- The first segments of the PDUs 511 and 512, and the PDU 0 between them, such that `vr_ms` gets
to the end of a window without PDUs. -/
def segmentsAtEnd : List RxAction :=
  [.writePdu [0xC1, 0xFF, 0x00, 0x00, 7], .writePdu [0x80, 0x00, 7],
    .writePdu [0xC2, 0x00, 0x00, 0x00, 7], .timerExpired, .timerExpired]

/-- A report with 512 NACKs, none before `ack_sn`. -/
theorem full_report_unsound :
    ∃ s, rxSystem.Reachable s ∧ ∃ status, (s.getStatusPdu 770).2 = some status ∧
      status.packedLength ≤ 770 ∧ ¬ s.StatusSound status := by
  have hrun : ∃ s, rxSystem.Reachable s ∧ windowSize ≤ s.missingBefore :=
    System.exists_reachable_of_run rfl segmentsAtEnd (by decide +kernel)
  obtain ⟨s, hreach, hmany⟩ := hrun
  obtain ⟨status, hfill, hlen, hunsound⟩ :=
    (windowInv hreach).exists_unsound (le_refl 770) (.inr hmany)
  obtain ⟨poll, flag, hget⟩ := s.getStatusPdu_eq 770
  exact ⟨s, hreach, status, by rw [hget]; exact hfill, hlen, hunsound⟩

end Rx

end MbmsTx.Rlc.Am
