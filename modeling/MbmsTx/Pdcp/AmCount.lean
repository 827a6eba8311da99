import MbmsTx.Lib.Transition
import MbmsTx.Pdcp.Lte

/-!
# The COUNT of PDUs on data bearers over RLC AM

`handle_am_drb_pdu` decides from the sequence number whether a PDU is new, and which COUNT it has.
Its three state variables describe the COUNT after the last one submitted (`Expects`). A PDU at most
2047 away from the last one is submitted if and only if it is ahead of it, so the submitted COUNTs
increase.
-/

namespace MbmsTx.Pdcp

open MbmsTx.Transition

/-! ## One PDU -/

/-- The state of the receiver, when `n` is the COUNT after the last one submitted. -/
structure LteState.Expects (cfg : Config) (st : LteState) (n : ℕ) : Prop where
  rxHfn : st.rxHfn = n / 2 ^ cfg.snLen.bits
  nextPdcpRxSn : st.nextPdcpRxSn = n % 2 ^ cfg.snLen.bits
  lastSubmitted : st.lastSubmittedPdcpRxSn = (n + 2 ^ cfg.snLen.bits - 1) % 2 ^ cfg.snLen.bits

/-- The data bearers over RLC AM for which the entity is made. -/
structure Config.IsAmDrb (cfg : Config) : Prop where
  rbType : cfg.rbType = .drb
  rbIsUm : cfg.rbIsUm = false
  snLen : cfg.snLen = .len12 ∨ cfg.snLen = .len18

/-- A bearer over RLC AM that `check_valid_config` accepts. -/
theorem Config.isAmDrb_of_checkValidConfig {cfg : Config} (h : cfg.checkValidConfig)
    (ham : cfg.isAmDrb) : cfg.IsAmDrb := by
  obtain ⟨len, rbType, rbIsUm, required⟩ := cfg
  cases rbType with
  | srb => exact absurd ham (by simp [isAmDrb])
  | drb =>
    cases rbIsUm with
    | true => exact absurd ham (by simp [isAmDrb])
    | false =>
      cases len with
      | len5 | len7 | len15 => exact absurd h (by simp [checkValidConfig])
      | len12 => exact ⟨rfl, rfl, .inl rfl⟩
      | len18 => exact ⟨rfl, rfl, .inr rfl⟩

section

variable {cfg : Config} {st : LteState} {n c : ℕ}

theorem Config.IsAmDrb.modulus (hcfg : cfg.IsAmDrb) :
    2 ^ cfg.snLen.bits = 4096 ∨ 2 ^ cfg.snLen.bits = 262144 := by
  rcases hcfg.snLen with h | h
  · rw [h]
    exact .inl rfl
  · rw [h]
    exact .inr rfl

theorem Config.IsAmDrb.reorderingWindow (hcfg : cfg.IsAmDrb) : cfg.reorderingWindow = 2048 := by
  rw [Config.reorderingWindow, hcfg.rbType]

theorem LteState.advanceRx_eq (hcfg : cfg.IsAmDrb) (hhfn : st.rxHfn = c / 2 ^ cfg.snLen.bits) :
    (st.advanceRx cfg (c % 2 ^ cfg.snLen.bits)).rxHfn = (c + 1) / 2 ^ cfg.snLen.bits ∧
      (st.advanceRx cfg (c % 2 ^ cfg.snLen.bits)).nextPdcpRxSn = (c + 1) % 2 ^ cfg.snLen.bits := by
  unfold LteState.advanceRx Config.maximumPdcpSn
  rcases hcfg.modulus with hM | hM
  all_goals
    rw [hM] at hhfn ⊢
    split
    all_goals exact ⟨by dsimp only; omega, by dsimp only; omega⟩

theorem LteState.Expects.amRxCount_ahead (h : st.Expects cfg n) (hcfg : cfg.IsAmDrb)
    (hge : n ≤ c) (hle : c ≤ n + 2046) (hc : c < 2 ^ 32) :
    ∃ st', st.amRxCount cfg (sn cfg.snLen c) = some (st', c) ∧
      { st' with lastSubmittedPdcpRxSn := sn cfg.snLen c }.Expects cfg (c + 1) := by
  have hsn := @sn_eq_mod cfg.snLen c
  have hwindow := hcfg.reorderingWindow
  obtain ⟨hhfn, hnext, hsubmitted⟩ := h
  have hcount : count cfg.snLen (c / 2 ^ cfg.snLen.bits) (sn cfg.snLen c) = c := by
    rw [← hfn_eq_div]
    exact count_hfn_sn hc
  have hlast : sn cfg.snLen c = (c + 1 + 2 ^ cfg.snLen.bits - 1) % 2 ^ cfg.snLen.bits := by
    rw [hsn]
    simp
  unfold LteState.amRxCount
  rw [if_neg]
  swap
  · rw [hwindow, hsubmitted, hsn]
    rcases hcfg.modulus with hM | hM
    all_goals
      rw [hM]
      omega
  by_cases hwrap : c / 2 ^ cfg.snLen.bits = n / 2 ^ cfg.snLen.bits
  · -- the sequence number is not below the expected one
    have hbelow : ¬ (cfg.reorderingWindow : ℤ) < (st.nextPdcpRxSn : ℤ) - sn cfg.snLen c := by
      rw [hwindow, hnext, hsn]
      rcases hcfg.modulus with hM | hM <;> rw [hM] at hwrap ⊢ <;> omega
    have habove : ¬ (cfg.reorderingWindow : ℤ) ≤ (sn cfg.snLen c : ℤ) - st.nextPdcpRxSn := by
      rw [hwindow, hnext, hsn]
      rcases hcfg.modulus with hM | hM <;> rw [hM] at hwrap ⊢ <;> omega
    have hnot : st.nextPdcpRxSn ≤ sn cfg.snLen c := by
      rw [hnext, hsn]
      rcases hcfg.modulus with hM | hM <;> rw [hM] at hwrap ⊢ <;> omega
    rw [if_neg hbelow, if_neg habove, if_pos hnot, hhfn, ← hwrap, hcount]
    have hafter := LteState.advanceRx_eq hcfg (hhfn.trans hwrap.symm)
    rw [← hsn] at hafter
    exact ⟨_, rfl, hafter.1, hafter.2, hlast⟩
  · -- the sequence number has wrapped around
    have hup : c / 2 ^ cfg.snLen.bits = n / 2 ^ cfg.snLen.bits + 1 := by
      rcases hcfg.modulus with hM | hM <;> rw [hM] at hwrap ⊢ <;> omega
    have hbelow : (cfg.reorderingWindow : ℤ) < (st.nextPdcpRxSn : ℤ) - sn cfg.snLen c := by
      rw [hwindow, hnext, hsn]
      rcases hcfg.modulus with hM | hM <;> rw [hM] at hup ⊢ <;> omega
    rw [if_pos hbelow, hhfn, ← hup, hcount]
    refine ⟨_, rfl, ?_, ?_, hlast⟩
    · dsimp only
      rcases hcfg.modulus with hM | hM <;> rw [hM] at hup ⊢ <;> omega
    · dsimp only
      rw [hsn]
      rcases hcfg.modulus with hM | hM <;> rw [hM] at hup ⊢ <;> omega

theorem LteState.Expects.amRxCount_behind (h : st.Expects cfg n) (hcfg : cfg.IsAmDrb)
    (hlt : c < n) (hle : n ≤ c + 2048) : st.amRxCount cfg (sn cfg.snLen c) = none := by
  obtain ⟨hhfn, hnext, hlast⟩ := h
  have hsn := @sn_eq_mod cfg.snLen c
  unfold LteState.amRxCount
  rw [hcfg.reorderingWindow, hlast, hsn, if_pos]
  rcases hcfg.modulus with hM | hM
  · rw [hM]
    omega
  · rw [hM]
    omega

end

/-! ## Runs -/

/-- A receiver, the last COUNT that it submitted, and all of them in order. -/
structure AmReceiver where
  entity : LteEntity
  last : Option ℕ
  submitted : List ℕ

/-- A data PDU and its true COUNT. -/
structure AmPdu where
  count : ℕ
  pdu : List UInt8

/-- The PDU carries the sequence number of its COUNT, which is at most 2047 away from the last one
submitted, or, as the first, 2046 from 0. -/
def AmPdu.InWindow (cfg : Config) (last : Option ℕ) (a : AmPdu) : Prop :=
  readDataHeader cfg.snLen a.pdu = sn cfg.snLen a.count ∧ a.count < 2 ^ 32 ∧
    match last with
    | none => a.count ≤ 2046
    | some last => a.count ≤ last + 2047 ∧ last ≤ a.count + 2047

instance (cfg : Config) (last : Option ℕ) (a : AmPdu) : Decidable (a.InWindow cfg last) :=
  match last with
  | none | some _ => inferInstanceAs (Decidable (_ ∧ _))

/-- The receiver takes a PDU. -/
def AmReceiver.receive (cfg : Config) (sec : Security) (r : AmReceiver) (a : AmPdu) : AmReceiver :=
  match r.entity.handleAmDrbPdu cfg sec a.pdu with
  | (entity, none) => { r with entity := entity }
  | (entity, some _) =>
    { entity := entity
      last := some a.count
      submitted := r.submitted ++ [a.count] }

/-- The runs of a receiver whose PDUs are all in the window. -/
def amSystem (cfg : Config) (sec : Security) : System AmReceiver AmPdu :=
  { Init := fun r => r.entity = .init cfg ∧ r.last = none ∧ r.submitted = []
    step := fun r a => if a.InWindow cfg r.last then some (r.receive cfg sec a) else none }

/-- The COUNT after the last one submitted. -/
def nextCount : Option ℕ → ℕ
  | none => 0
  | some last => last + 1

/-- The entity expects the COUNT after the last one submitted, and those submitted increase up to
it. -/
structure AmReceiver.Inv (cfg : Config) (r : AmReceiver) : Prop where
  expects : r.entity.st.Expects cfg (nextCount r.last)
  increasing : r.submitted.Pairwise (· < ·)
  below : ∀ c ∈ r.submitted, c < nextCount r.last

section

variable {cfg : Config} {sec : Security} {r : AmReceiver} {a : AmPdu}

theorem AmReceiver.inv_init (hcfg : cfg.IsAmDrb) (h : (amSystem cfg sec).Init r) : r.Inv cfg := by
  obtain ⟨hentity, hlast, hsubmitted⟩ := h
  refine ⟨?_, by simp [hsubmitted], by simp [hsubmitted]⟩
  rw [hentity, hlast]
  rcases hcfg.modulus with hM | hM
  all_goals
    exact ⟨by rw [hM]; rfl, by rw [hM]; rfl, by
      simp only [LteEntity.init, Config.maximumPdcpSn, nextCount, hM]⟩

@[simp] theorem LteEntity.updateRxCountsQueue_st (e : LteEntity) (cfg : Config) (c : ℕ) :
    (e.updateRxCountsQueue cfg c).st = e.st := by
  unfold LteEntity.updateRxCountsQueue
  split
  · rfl
  · rfl

theorem AmReceiver.Inv.submits (h : r.Inv cfg) (hcfg : cfg.IsAmDrb) (ha : a.InWindow cfg r.last)
    (hahead : nextCount r.last ≤ a.count) :
    (r.entity.handleAmDrbPdu cfg sec a.pdu).2 =
        some (sec.cipher a.count (discardDataHeader cfg.snLen a.pdu)) ∧
      (r.entity.handleAmDrbPdu cfg sec a.pdu).1.st.Expects cfg (a.count + 1) := by
  obtain ⟨hheader, hlt, hwindow⟩ := ha
  have hle : a.count ≤ nextCount r.last + 2046 := by
    cases hlast : r.last with
    | none =>
      rw [hlast] at hwindow
      assumption
    | some last =>
      rw [hlast] at hwindow
      have hfar := hwindow.1
      assumption
  obtain ⟨st', hcount, hexpects⟩ := h.expects.amRxCount_ahead hcfg hahead hle hlt
  unfold LteEntity.handleAmDrbPdu
  dsimp only
  rw [hheader, hcount]
  rw [LteEntity.updateRxCountsQueue_st]
  exact ⟨rfl, hexpects⟩

theorem AmReceiver.Inv.drops (h : r.Inv cfg) (hcfg : cfg.IsAmDrb) (ha : a.InWindow cfg r.last)
    (hbehind : a.count < nextCount r.last) :
    r.entity.handleAmDrbPdu cfg sec a.pdu = (r.entity, none) := by
  obtain ⟨hheader, -, hwindow⟩ := ha
  have hle : nextCount r.last ≤ a.count + 2048 := by
    cases hlast : r.last with
    | none => exact Nat.zero_le _
    | some last =>
      rw [hlast] at hwindow
      rw [nextCount]
      omega
  have hcount := h.expects.amRxCount_behind hcfg hbehind hle
  unfold LteEntity.handleAmDrbPdu
  dsimp only
  rw [hheader, hcount]

theorem AmReceiver.Inv.receive (h : r.Inv cfg) (hcfg : cfg.IsAmDrb) (ha : a.InWindow cfg r.last) :
    (r.receive cfg sec a).Inv cfg := by
  unfold AmReceiver.receive
  rcases lt_or_ge a.count (nextCount r.last) with hbehind | hahead
  · rw [h.drops hcfg ha hbehind]
    exact h
  obtain ⟨hsubmit, hexpects⟩ := @AmReceiver.Inv.submits cfg sec r a h hcfg ha hahead
  rcases hhandle : r.entity.handleAmDrbPdu cfg sec a.pdu with ⟨entity, sdu⟩
  rw [hhandle] at hsubmit hexpects
  have hsubmit : sdu = some (sec.cipher a.count (discardDataHeader cfg.snLen a.pdu)) := hsubmit
  rw [hsubmit]
  refine ⟨hexpects, ?_, ?_⟩
  · rw [List.pairwise_append]
    refine ⟨h.increasing, by simp, ?_⟩
    intro c hc d hd
    rw [List.mem_singleton.mp hd]
    exact lt_of_lt_of_le (h.below c hc) hahead
  · refine List.forall_mem_append.mpr ⟨fun c hc => ?_,
      List.forall_mem_singleton.mpr (Nat.lt_succ_self _)⟩
    exact Nat.lt_succ_of_lt (lt_of_lt_of_le (h.below c hc) hahead)

end

end MbmsTx.Pdcp
