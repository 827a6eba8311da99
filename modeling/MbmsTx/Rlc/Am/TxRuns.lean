import MbmsTx.Lib.Transition
import MbmsTx.Rlc.Am.TxWindow

/-!
# Runs of the transmitter

The transmitter under any interleaving of SDUs, grants, timers and status PDUs. A status PDU is
handled in several critical sections, and a grant may come between them. In every run in which the
admission test of `build_data_pdu` is sound at every grant, the window keeps its invariant and a PDU
leaves it only when it is acknowledged. Otherwise a grant that is too small for a retransmission is
enough to lose a PDU.
-/

namespace MbmsTx.Rlc.Am

open MbmsTx.Transition

/-! ## The system -/

/-- The transmitter, and the call of `handle_control_pdu` under way. -/
structure TxState where
  tx : Tx
  control : Option ControlRun := none

/-- The events of a transmitter. -/
inductive TxAction
  | writeSdu (sdu : Sdu)
  | discardSdu (discardSn : ℕ)
  | readPdu (rx : Tx.RxView) (nofBytes : ℕ)
  | timerExpired (timer : Tx.TxTimer)
  | controlPdu (status : StatusPdu)
  | controlStep

/-- The state after an event. Status PDUs are handled one at a time. -/
def TxState.step (st : TxState) : TxAction → Option TxState
  | .writeSdu sdu => some { st with tx := st.tx.writeSdu sdu }
  | .discardSdu discardSn => some { st with tx := st.tx.discardSdu discardSn }
  | .readPdu rx nofBytes => some { st with tx := (st.tx.readPdu rx nofBytes).1 }
  | .timerExpired timer => some { st with tx := st.tx.timerExpired timer }
  | .controlPdu status =>
    match st.control with
    | some _ => none
    | none => some ⟨(st.tx.controlStart status).1, (st.tx.controlStart status).2⟩
  | .controlStep =>
    st.control.map fun run => ⟨(st.tx.controlStep run).1, (st.tx.controlStep run).2⟩

/-- The runs of a transmitter from its configured state. -/
def txSystem : System TxState TxAction where
  Init st := ∃ cfg, st = { tx := { cfg := cfg } }
  step := TxState.step

namespace Tx

variable {s t : Tx}

/-! ## Status PDUs -/

theorem modBase_eq {x : ℕ} (hvtA : s.vtA < snMod) (hx : x < snMod) :
    s.modBase x = seqDist snMod s.vtA x := by
  simp only [modBase, sub32, seqDist, snMod] at *
  omega

/-- The local variables of `handle_control_pdu`: while the window advances, the SN of the round is
its lower edge, and the send state read at the start is one the transmitter went through. -/
structure ControlInv (s : Tx) (run : ControlRun) : Prop where
  i_lt : run.i < snMod
  vtSLocal_lt : run.vtSLocal < snMod
  i_eq : run.updateVtA = true → run.i = s.vtA
  local_le : seqDist snMod s.vtA run.vtSLocal ≤ s.outstanding
  i_before : run.phase ≠ .head → seqDist snMod s.vtA run.i < seqDist snMod s.vtA run.vtSLocal
  nacked : ∀ {todo}, run.phase = .nacks todo true → run.updateVtA = false

variable {run : ControlRun}

theorem ControlInv.windowGrows (h : ControlInv s run) (hst : s.WindowGrows t) :
    ControlInv t run where
  i_lt := h.i_lt
  vtSLocal_lt := h.vtSLocal_lt
  i_eq hupdate := (h.i_eq hupdate).trans hst.vtA.symm
  local_le := by
    rw [hst.vtA]
    exact h.local_le.trans hst.le
  i_before hphase := by
    rw [hst.vtA]
    exact h.i_before hphase
  nacked hphase := h.nacked hphase

theorem contains_ackPdu (s : Tx) (i sn : ℕ) :
    (s.ackPdu i).txWindow.contains sn ↔ sn ≠ i ∧ s.txWindow.contains sn := by
  unfold ackPdu
  split
  · next hnone =>
    have hi : s.txWindow.contains i = false := by simp [CircularMap.contains, hnone]
    constructor
    · intro h
      exact ⟨fun heq => by simp [heq, hi] at h, h⟩
    simp
  · next pdu hpdu =>
    simp only [removePdu, hpdu]
    exact CircularMap.contains_erase sn

theorem vtA_ackPdu (s : Tx) (i : ℕ) : (s.ackPdu i).vtA = s.vtA := by
  unfold ackPdu removePdu
  split
  · rfl
  · next pdu hpdu => simp only [hpdu]

theorem vtS_ackPdu (s : Tx) (i : ℕ) : (s.ackPdu i).vtS = s.vtS := by
  unfold ackPdu removePdu
  split
  · rfl
  · next pdu hpdu => simp only [hpdu]

theorem outstanding_ackPdu (s : Tx) (i : ℕ) : (s.ackPdu i).outstanding = s.outstanding := by
  rw [outstanding, vtA_ackPdu, vtS_ackPdu, outstanding]

theorem WindowInv.ackPdu (hs : s.WindowInv) (i : ℕ) : (s.ackPdu i).WindowInv := by
  refine ⟨?_, ?_, ?_, ?_⟩
  · rw [vtA_ackPdu]
    exact hs.vtA_lt
  · rw [vtS_ackPdu]
    exact hs.vtS_lt
  · rw [outstanding_ackPdu]
    exact hs.outstanding_le
  · intro sn hsn
    rw [vtA_ackPdu, outstanding_ackPdu]
    exact hs.mem_window ((contains_ackPdu s i sn).mp hsn).2

theorem WindowInv.outstanding_advanceVtA (hs : s.WindowInv) (hpos : 0 < s.outstanding) :
    s.advanceVtA.outstanding = s.outstanding - 1 := by
  refine seqDist_seqSucc_base hs.vtA_lt hs.vtS_lt ?_
  intro heq
  have hzero : s.outstanding = 0 := (seqDist_eq_zero_iff hs.vtA_lt hs.vtS_lt).mpr heq
  omega

theorem WindowInv.advanceVtA (hs : s.WindowInv) (hpos : 0 < s.outstanding)
    (hvtA : s.txWindow.contains s.vtA = false) : s.advanceVtA.WindowInv := by
  have hout := hs.outstanding_advanceVtA hpos
  refine ⟨seqSucc_lt (by decide), hs.vtS_lt, ?_, ?_⟩
  · rw [hout]
    exact (Nat.sub_le _ _).trans hs.outstanding_le
  · intro sn hsn
    obtain ⟨hlt, hdist⟩ := hs.mem_window hsn
    have hne : sn ≠ s.vtA := by
      rintro rfl
      have hstored : s.txWindow.contains s.vtA := hsn
      simp [hvtA] at hstored
    have hsucc : seqDist snMod s.advanceVtA.vtA sn = seqDist snMod s.vtA sn - 1 :=
      seqDist_seqSucc_base hs.vtA_lt hlt hne
    have hsnpos : seqDist snMod s.vtA sn ≠ 0 := fun h =>
      hne ((seqDist_eq_zero_iff hs.vtA_lt hlt).mp h)
    omega

theorem controlStart_cases (s : Tx) (status : StatusPdu) : s.controlStart status = (s, none) ∨
      ∃ t, s.SamePdus t ∧ s.controlStart status =
        (t, some { status := status, i := s.vtA, vtSLocal := s.vtS }) := by
  unfold controlStart
  by_cases henabled : s.txEnabled
  · rw [if_neg (by simp [henabled])]
    by_cases hdrop : windowSize < (snMod + status.ackSn - s.vtA) % snMod ∨
        windowSize < (snMod + s.vtS - status.ackSn) % snMod
    · rw [if_pos hdrop]
      simp
    · rw [if_neg hdrop]
      refine .inr ⟨_, ?_, rfl⟩
      exact { SamePdus.refl s with }
  · rw [if_pos (by simp [henabled])]
    simp

theorem samePdus_controlStart (s : Tx) (status : StatusPdu) :
    s.SamePdus (s.controlStart status).1 := by
  rcases controlStart_cases s status with hdrop | ⟨t, hsame, hstart⟩
  · rw [hdrop]
    exact SamePdus.refl s
  · rw [hstart]
    exact hsame

/-- A critical section of `handle_control_pdu` leaves the PDUs alone, ends the call, or acknowledges
a PDU and perhaps advances the window. -/
theorem controlStep_cases (s : Tx) (run : ControlRun) : s.SamePdus (s.controlStep run).1 ∨
      (s.controlStep run).1 = { s with notifyInfoVec := [] } ∨
      run.phase = .nacks [] false ∧
        ((s.controlStep run).1 = s.ackPdu run.i ∨
          (s.controlStep run).1 = (s.ackPdu run.i).advanceVtA) := by
  obtain ⟨status, i, vtSLocal, updateVtA, phase⟩ := run
  cases phase with
  | head =>
    unfold controlStep
    dsimp only
    split
    · exact .inl (SamePdus.refl s)
    simp
  | nacks todo found =>
    cases todo with
    | cons nack todo =>
      unfold controlStep
      dsimp only
      split
      · exact .inl (samePdus_nackPdu s i nack)
      · exact .inl (SamePdus.refl s)
    | nil =>
      cases found with
      | true => exact .inl (SamePdus.refl s)
      | false =>
        cases updateVtA with
        | true => exact .inr (.inr ⟨rfl, .inr rfl⟩)
        | false => exact .inr (.inr ⟨rfl, .inl rfl⟩)

theorem controlInv_controlStart (hs : s.WindowInv) {status : StatusPdu}
    (hrun : (s.controlStart status).2 = some run) : ControlInv s run := by
  have hstart : run = { status := status, i := s.vtA, vtSLocal := s.vtS } := by
    rcases controlStart_cases s status with hdrop | ⟨t, -, hstart⟩
    · exact absurd hrun (by simp [hdrop])
    · rw [hstart] at hrun
      exact (Option.some.inj hrun).symm
  rw [hstart]
  refine ⟨hs.vtA_lt, hs.vtS_lt, fun _ => rfl, ?_, absurd rfl, fun h => ?_⟩
  · rfl
  · cases h

/-- The round of an acknowledged SN when an SN before it was NACKed: the window does not advance. -/
theorem ControlInv.ackPdu (hrun : ControlInv s run) (hupdate : run.updateVtA = false) :
    ControlInv (s.ackPdu run.i) { run with i := (run.i + 1) % snMod, phase := .head } where
  i_lt := seqSucc_lt (by decide)
  vtSLocal_lt := hrun.vtSLocal_lt
  i_eq h := absurd h (by simp [hupdate])
  local_le := by
    rw [vtA_ackPdu, outstanding_ackPdu]
    exact hrun.local_le
  i_before h := absurd rfl h
  nacked h := absurd h (by simp)

/-- The round of an acknowledged SN at the lower edge: the window advances. -/
theorem ControlInv.advanceVtA (hs : s.WindowInv) (hrun : ControlInv s run)
    (hupdate : run.updateVtA) (hphase : run.phase ≠ .head) :
    (s.ackPdu run.i).advanceVtA.WindowInv ∧
      ControlInv (s.ackPdu run.i).advanceVtA
        { run with i := (run.i + 1) % snMod, phase := .head } := by
  have hi : run.i = s.vtA := hrun.i_eq hupdate
  have hbefore := hrun.i_before hphase
  have hlocal := hrun.local_le
  have hpos : 0 < (s.ackPdu run.i).outstanding := by
    rw [outstanding_ackPdu]
    omega
  have hremoved : (s.ackPdu run.i).txWindow.contains (s.ackPdu run.i).vtA = false := by
    rw [Bool.eq_false_iff, vtA_ackPdu]
    intro hstored
    exact ((contains_ackPdu s run.i s.vtA).mp hstored).1 hi.symm
  have hinv : (s.ackPdu run.i).WindowInv := hs.ackPdu run.i
  refine ⟨hinv.advanceVtA hpos hremoved, ⟨seqSucc_lt (by decide), hrun.vtSLocal_lt, ?_, ?_, ?_, ?_⟩⟩
  · intro _
    change (run.i + 1) % snMod = ((s.ackPdu run.i).vtA + 1) % snMod
    rw [vtA_ackPdu, hi]
  · have hne : run.vtSLocal ≠ s.vtA := by
      intro heq
      rw [heq, seqDist_self hs.vtA_lt] at hbefore
      omega
    have hsucc := seqDist_seqSucc_base hs.vtA_lt hrun.vtSLocal_lt hne
    rw [hinv.outstanding_advanceVtA hpos, outstanding_ackPdu]
    change seqDist snMod (seqSucc snMod (s.ackPdu run.i).vtA) run.vtSLocal ≤ _
    rw [vtA_ackPdu, hsucc]
    omega
  · simp
  simp

/-- A critical section of `handle_control_pdu` keeps the window, and removes at most the SN it
acknowledges. -/
theorem ControlInv.controlStep (hs : s.WindowInv) (hrun : ControlInv s run) :
    (s.controlStep run).1.WindowInv ∧
      (∀ run', (s.controlStep run).2 = some run' → ControlInv (s.controlStep run).1 run') ∧
      ∀ sn, s.txWindow.contains sn →
        (s.controlStep run).1.txWindow.contains sn ∨ run.phase = .nacks [] false ∧ run.i = sn := by
  obtain ⟨status, i, vtSLocal, updateVtA, phase⟩ := run
  cases phase with
  | head =>
    unfold Tx.controlStep
    dsimp only
    split
    · next hgoes =>
      refine ⟨hs, ?_, fun sn hsn => .inl hsn⟩
      intro run' hrun'
      cases hrun'
      refine ⟨hrun.i_lt, hrun.vtSLocal_lt, hrun.i_eq, hrun.local_le, fun _ => ?_,
        fun h => absurd h (by simp)⟩
      simp only [controlGoesOn, Bool.and_eq_true, decide_eq_true_eq] at hgoes
      have hlt := hgoes.2
      rw [modBase_eq hs.vtA_lt hrun.i_lt, modBase_eq hs.vtA_lt hrun.vtSLocal_lt] at hlt
      exact hlt
    · refine ⟨?_, ?_, fun sn hsn => .inl hsn⟩
      · exact { hs with }
      simp
  | nacks todo found =>
    have hbefore := hrun.i_before (by simp)
    cases todo with
    | cons nack todo =>
      unfold Tx.controlStep
      dsimp only
      split
      · have hgrows := (samePdus_nackPdu s i nack).windowGrows hs
        have hrun' := hrun.windowGrows hgrows
        refine ⟨hgrows.inv, ?_, fun sn hsn => .inl (hgrows.contains hsn)⟩
        intro run' hsome
        cases hsome
        exact ⟨hrun'.i_lt, hrun'.vtSLocal_lt, fun h => absurd h (by simp), hrun'.local_le,
          fun _ => hrun'.i_before (by simp), fun _ => rfl⟩
      · refine ⟨hs, ?_, fun sn hsn => .inl hsn⟩
        intro run' hsome
        cases hsome
        refine ⟨hrun.i_lt, hrun.vtSLocal_lt, hrun.i_eq, hrun.local_le, fun _ => hbefore, ?_⟩
        intro _ hphase
        obtain ⟨-, rfl⟩ := ControlPhase.nacks.inj hphase
        exact hrun.nacked rfl
    | nil =>
      cases found with
      | true =>
        -- the SN was NACKed, the round ends without removing it
        refine ⟨hs, ?_, fun sn hsn => .inl hsn⟩
        intro run' hsome
        cases hsome
        have hnacked : updateVtA = false := hrun.nacked rfl
        refine ⟨seqSucc_lt (by decide), hrun.vtSLocal_lt, fun h => ?_, hrun.local_le,
          (absurd rfl), fun h => absurd h (by simp)⟩
        exact absurd h (by simp [hnacked])
      | false =>
        have hkept : ∀ sn, s.txWindow.contains sn → (s.ackPdu i).txWindow.contains sn ∨ i = sn := by
          intro sn hsn
          by_cases heq : i = sn
          · omega
          · exact .inl ((contains_ackPdu s i sn).mpr ⟨Ne.symm heq, hsn⟩)
        cases updateVtA with
        | true =>
          obtain ⟨hinv, hcontrol⟩ := hrun.advanceVtA hs rfl (by simp)
          refine ⟨hinv, ?_, fun sn hsn => (hkept sn hsn).imp_right fun h => ⟨rfl, h⟩⟩
          intro run' hsome
          cases hsome
          exact hcontrol
        | false =>
          refine ⟨hs.ackPdu i, ?_, fun sn hsn => (hkept sn hsn).imp_right fun h => ⟨rfl, h⟩⟩
          intro run' hsome
          cases hsome
          exact hrun.ackPdu rfl

end Tx

/-- A transmitter and the status PDU it is handling. -/
structure TxState.Inv (st : TxState) : Prop where
  window : st.tx.WindowInv
  control : ∀ run, st.control = some run → Tx.ControlInv st.tx run

/-- The event is the critical section that removes the PDU `sn`: a status PDU acknowledges it
without a NACK for it. -/
def TxState.Acknowledges (st : TxState) (a : TxAction) (sn : ℕ) : Prop :=
  a = .controlStep ∧ ∃ run, st.control = some run ∧ run.phase = .nacks [] false ∧ run.i = sn

theorem TxState.step_controlPdu {st st' : TxState} {status : StatusPdu}
    (h : st.step (.controlPdu status) = some st') :
    st' = ⟨(st.tx.controlStart status).1, (st.tx.controlStart status).2⟩ := by
  obtain ⟨tx, _ | run⟩ := st
  · exact (Option.some.inj h).symm
  · cases h

theorem TxState.step_cases {st st' : TxState} {a : TxAction} (hstep : st.step a = some st') :
    (∃ sdu, a = .writeSdu sdu ∧ st'.tx = st.tx.writeSdu sdu) ∨
      (∃ discardSn, a = .discardSdu discardSn ∧ st'.tx = st.tx.discardSdu discardSn) ∨
      (∃ rx nofBytes, a = .readPdu rx nofBytes ∧ st'.tx = (st.tx.readPdu rx nofBytes).1) ∨
      ((∃ timer, a = .timerExpired timer) ∨ ∃ status, a = .controlPdu status) ∧
        st.tx.SamePdus st'.tx ∨
      ∃ run, a = .controlStep ∧ st.control = some run ∧ st'.tx = (st.tx.controlStep run).1 := by
  cases a with
  | writeSdu sdu | discardSdu discardSn | readPdu rx nofBytes =>
    cases hstep
    simp
  | timerExpired timer =>
    cases hstep
    exact .inr (.inr (.inr (Or.inl ⟨.inl ⟨timer, rfl⟩, Tx.samePdus_timerExpired st.tx timer⟩)))
  | controlPdu status =>
    obtain rfl := TxState.step_controlPdu hstep
    exact .inr (.inr (.inr (Or.inl ⟨.inr ⟨status, rfl⟩, Tx.samePdus_controlStart st.tx status⟩)))
  | controlStep =>
    obtain ⟨run, hrun, rfl⟩ := Option.map_eq_some_iff.mp hstep
    exact .inr (.inr (.inr (.inr ⟨run, rfl, hrun, rfl⟩)))

/-- At every grant, the admission test of `build_data_pdu` is sound. -/
def TxState.GrantSound (st : TxState) : TxAction → Prop
  | .readPdu _ _ => st.tx.AdmissionSound
  | _ => True

instance (st : TxState) : (a : TxAction) → Decidable (st.GrantSound a)
  | .readPdu _ _ => inferInstanceAs (Decidable st.tx.AdmissionSound)
  | .writeSdu _ | .discardSdu _ | .timerExpired _ | .controlPdu _ | .controlStep => isTrue trivial

theorem TxState.Inv.step {st st' : TxState} {a : TxAction} (hst : st.Inv)
    (hsound : st.GrantSound a) (hstep : st.step a = some st') :
    st'.Inv ∧ ∀ sn, st.tx.txWindow.contains sn →
      st'.tx.txWindow.contains sn ∨ st.Acknowledges a sn := by
  have hgrows : ∀ {t : Tx}, st.tx.WindowGrows t →
      TxState.Inv { st with tx := t } ∧ ∀ sn, st.tx.txWindow.contains sn →
        t.txWindow.contains sn ∨ st.Acknowledges a sn := fun ht =>
    ⟨⟨ht.inv, fun run hrun => (hst.control run hrun).windowGrows ht⟩,
      fun sn hsn => .inl (ht.contains hsn)⟩
  cases a with
  | writeSdu sdu =>
    cases hstep
    exact hgrows (Tx.windowGrows_writeSdu hst.window sdu)
  | discardSdu discardSn =>
    cases hstep
    exact hgrows (Tx.windowGrows_discardSdu hst.window discardSn)
  | readPdu rx nofBytes =>
    cases hstep
    exact hgrows (Tx.windowGrows_readPdu hst.window hsound rx nofBytes)
  | timerExpired timer =>
    cases hstep
    exact hgrows ((Tx.samePdus_timerExpired st.tx timer).windowGrows hst.window)
  | controlPdu status =>
    obtain rfl := TxState.step_controlPdu hstep
    have ht := (Tx.samePdus_controlStart st.tx status).windowGrows hst.window
    refine ⟨⟨ht.inv, fun run hrun => ?_⟩, fun sn hsn => .inl (ht.contains hsn)⟩
    exact (Tx.controlInv_controlStart hst.window hrun).windowGrows ht
  | controlStep =>
    obtain ⟨run, hrun, hst'⟩ := Option.map_eq_some_iff.mp hstep
    subst hst'
    obtain ⟨hwindow, hcontrol, hkept⟩ := (hst.control run hrun).controlStep hst.window
    refine ⟨⟨hwindow, hcontrol⟩, fun sn hsn => ?_⟩
    rcases hkept sn hsn with h | ⟨hphase, hi⟩
    · exact .inl h
    · exact .inr ⟨rfl, run, hrun, hphase, hi⟩

theorem TxState.Inv.init {st : TxState} (hst : txSystem.Init st) : st.Inv := by
  obtain ⟨cfg, rfl⟩ := hst
  have hzero : 0 < snMod := by decide
  refine ⟨⟨hzero, hzero, by simp [Tx.outstanding, seqDist], ?_⟩, ?_⟩
  · simp
  simp

/-- When the admission test is sound at every grant, at most 512 sequence numbers are outstanding,
the PDUs in the window are among them, and no event removes a PDU from the window that it does not
acknowledge. -/
theorem window_of_grantSound {st : TxState}
    (hst : (txSystem.restrict TxState.GrantSound).Reachable st) :
    st.tx.outstanding ≤ windowSize ∧
      (∀ sn, st.tx.txWindow.contains sn = true →
        sn < snMod ∧ seqDist snMod st.tx.vtA sn < st.tx.outstanding) ∧
      ∀ a st', (txSystem.restrict TxState.GrantSound).step st a = some st' →
        ∀ sn, st.tx.txWindow.contains sn = true →
          st'.tx.txWindow.contains sn = true ∨ st.Acknowledges a sn := by
  have hinv : st.Inv := by
    refine hst.restrict_invariant TxState.Inv (fun s hs => TxState.Inv.init hs) ?_
    intro s a s' hs hsound hstep
    exact (hs.step hsound hstep).1
  refine ⟨hinv.window.outstanding_le, fun sn hsn => hinv.window.mem_window hsn, ?_⟩
  intro a st' hstep
  obtain ⟨hsound, hstep⟩ := System.step_restrict_eq_some.mp hstep
  exact (hinv.step hsound hstep).2

/-- Two SDUs are sent in three PDUs, and the first two PDUs are acknowledged. -/
def exampleTxRun : List TxAction :=
  [.writeSdu ⟨[1, 2, 3, 4, 5], 0⟩, .writeSdu ⟨[6, 7], 1⟩, .readPdu ⟨false, 0⟩ 5,
    .readPdu ⟨false, 0⟩ 5, .readPdu ⟨false, 0⟩ 5, .controlPdu ⟨2, []⟩] ++
    List.replicate 5 .controlStep

theorem window_of_three_pdus :
    ∃ st, (txSystem.restrict TxState.GrantSound).Reachable st ∧
      (st.tx.vtA = 2 ∧ st.tx.vtS = 3 ∧ st.tx.txWindow.contains 2 = true) ∧
      st.tx.outstanding ≤ windowSize ∧
      (∀ sn, st.tx.txWindow.contains sn = true →
        sn < snMod ∧ seqDist snMod st.tx.vtA sn < st.tx.outstanding) ∧
      ∀ a st', (txSystem.restrict TxState.GrantSound).step st a = some st' →
        ∀ sn, st.tx.txWindow.contains sn = true →
          st'.tx.txWindow.contains sn = true ∨ st.Acknowledges a sn := by
  have hinit : (txSystem.restrict TxState.GrantSound).Init { tx := { cfg := exampleTxCfg } } :=
    ⟨exampleTxCfg, rfl⟩
  exact System.exists_reachable_and hinit exampleTxRun (by decide +kernel) fun st hst _ =>
    window_of_grantSound hst

end MbmsTx.Rlc.Am
