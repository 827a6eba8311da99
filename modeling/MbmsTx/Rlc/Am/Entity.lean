import MbmsTx.Rlc.Am.StatusReport
import MbmsTx.Rlc.Am.TxRuns

/-!
# An acknowledged-mode entity

The transmitter and the receiver meet in `read_pdu`: the transmitter asks the receiver for a status
PDU, which takes back the request for it, and sends it if it fits the grant. With a grant of less
than two bytes and the PDU at the lower edge of the window missing, it does not fit and the request
is lost (`status_request_kept_iff`).

The runs of the entity are runs of both (`Entity.reachable_tx`, `Entity.reachable_rx`).
-/

namespace MbmsTx.Rlc.Am

open MbmsTx.Transition Option

/-- `rlc_am_lte`. -/
structure Entity where
  tx : TxState
  rx : Rx := {}

/-- The length that `get_status_pdu` returns. -/
def statusLength : Option StatusPdu → ℕ
  | none => 0
  | some status => status.packedLength

namespace Entity

/-- What the transmitter gets from the receiver; `rxLocked` says that another thread has its lock.
-/
def rxView (e : Entity) (rxLocked : Bool) (nofBytes : ℕ) : Tx.RxView where
  doStatus := e.rx.doStatus
  pduLen := if rxLocked then -1 else statusLength (e.rx.getStatusPdu nofBytes).2

/-- Whether `read_pdu` gets a status PDU from the receiver. -/
def getsStatus (e : Entity) (rxLocked : Bool) : Bool :=
  e.tx.tx.txEnabled && e.rx.doStatus && e.tx.tx.statusProhibitTimer != .running && !rxLocked

def readPdu (e : Entity) (rxLocked : Bool) (nofBytes : ℕ) : Entity × Tx.TxOut :=
  let result := e.tx.tx.readPdu (e.rxView rxLocked nofBytes) nofBytes
  ({ tx := { e.tx with tx := result.1 }
     rx := if e.getsStatus rxLocked then (e.rx.getStatusPdu nofBytes).1 else e.rx },
    result.2)

end Entity

/-! ## Runs -/

/-- The events of the transmitter and of the receiver, and `read_pdu`, in which both take part. -/
inductive EntityAction
  | tx (action : TxAction)
  | rx (action : RxAction)
  | readPdu (rxLocked : Bool) (nofBytes : ℕ)

namespace Entity

/-- The state after an event. -/
def step (e : Entity) : EntityAction → Option Entity
  | .tx (.readPdu _ _) => none
  | .tx action => (txSystem.step e.tx action).map fun tx => { e with tx := tx }
  | .rx (.getStatusPdu _) => none
  | .rx action => (rxSystem.step e.rx action).map fun rx => { e with rx := rx }
  | .readPdu rxLocked nofBytes =>
    if e.rx.fault.isSome then none else some (e.readPdu rxLocked nofBytes).1

end Entity

/-- The runs of an entity from its configured state. -/
def entitySystem : System Entity EntityAction where
  Init e := txSystem.Init e.tx ∧ rxSystem.Init e.rx
  step := Entity.step

namespace Entity

variable {e e' : Entity} {a : EntityAction}

/-- The transmitter takes a step, the receiver does, or both take part in `read_pdu`. -/
theorem step_cases (h : entitySystem.step e a = some e') :
    (e'.rx = e.rx ∧ ∃ action, txSystem.step e.tx action = some e'.tx) ∨
      (e'.tx = e.tx ∧ ∃ action, rxSystem.step e.rx action = some e'.rx) ∨
      ∃ rxLocked nofBytes, a = .readPdu rxLocked nofBytes ∧ e.rx.fault = none ∧
        e' = (e.readPdu rxLocked nofBytes).1 := by
  cases a with
  | tx action =>
    refine .inl ?_
    cases action with
    | readPdu view nofBytes => exact absurd h (by simp [entitySystem, step])
    | _ =>
      simp only [entitySystem, step, map_eq_some_iff] at h
      obtain ⟨tx, htx, rfl⟩ := h
      exact ⟨rfl, _, htx⟩
  | rx action =>
    refine .inr (.inl ?_)
    cases action with
    | getStatusPdu maxPduSize => exact absurd h (by simp [entitySystem, step])
    | _ =>
      simp only [entitySystem, step, map_eq_some_iff] at h
      obtain ⟨rx, hrx, rfl⟩ := h
      exact ⟨rfl, _, hrx⟩
  | readPdu rxLocked nofBytes =>
    simp only [entitySystem, step, ite_none_left_eq_some, some.injEq,
      Bool.not_eq_true, isSome_eq_false_iff, isNone_iff_eq_none] at h
    exact .inr (.inr ⟨rxLocked, nofBytes, rfl, h.1, h.2.symm⟩)

theorem rx_readPdu (e : Entity) (rxLocked : Bool) (nofBytes : ℕ) :
    (e.readPdu rxLocked nofBytes).1.rx =
      if e.getsStatus rxLocked then (e.rx.getStatusPdu nofBytes).1 else e.rx := rfl

theorem reachable_rx (h : entitySystem.Reachable e) : rxSystem.Reachable e.rx := by
  have hinit : ∀ e, entitySystem.Init e → rxSystem.Reachable e.rx := fun e hinit => .init hinit.2
  refine h.invariant (fun e => rxSystem.Reachable e.rx) hinit ?_
  intro e a e' hreach hstep
  rcases step_cases hstep with ⟨heq, -⟩ | ⟨-, action, haction⟩ |
    ⟨rxLocked, nofBytes, -, hfault, rfl⟩
  · rw [heq]
    exact hreach
  · exact hreach.step haction
  · rw [rx_readPdu]
    split
    · refine hreach.step (a := .getStatusPdu nofBytes) ?_
      simp [rxSystem, Rx.step, hfault]
    · exact hreach

/-! ## Requests for a status report -/

/-- The only status PDU that is too large is an empty one, for a grant of less than two bytes, when
the PDU at the lower edge of the window is missing. -/
theorem fillStatus_too_large {s : Rx} (h : s.WindowInv) (nofBytes : ℕ) :
    (∃ status, s.fillStatus nofBytes = some status ∧ nofBytes < status.packedLength) ↔
      nofBytes < 2 ∧ s.Nacked 0 := by
  obtain ⟨e, hbefore, hend⟩ := h.fillStatus_cases nofBytes
  -- with such a grant, the first round is the last one
  have hsmall : nofBytes < 2 → e = 0 := by
    intro hlt
    by_contra hpos
    have hfirst := (hbefore 0 (Nat.pos_of_ne_zero hpos)).2
    have htwo := StatusPdu.two_le_packedLength (s.report (0 + 1))
    omega
  have hgo : s.Continues 0 := ⟨Nat.zero_le _, by rw [Nat.count_zero]; decide⟩
  have hnacks : (s.report 1).nacks.length = if s.Nacked 0 then 1 else 0 := by
    rw [Rx.length_nacks_report, Nat.count_succ, Nat.count_zero, zero_add]
  have hempty : ({ ackSn := s.vrR, nacks := [] } : StatusPdu).packedLength = 2 := by
    simp [StatusPdu.packedLength]
  constructor
  · rintro ⟨status, hstatus, hlarge⟩
    rcases hend with ⟨hfill, hstop⟩ | ⟨-, hfit, hfill⟩
    · obtain rfl := some.inj (hfill.symm.trans hstatus)
      cases e with
      | zero => exact absurd hgo hstop
      | succ e => exact absurd (hbefore e (Nat.lt_succ_self e)).2 (Nat.not_le.mpr hlarge)
    · rw [hfill, Rx.outgrown, ite_none_right_eq_some] at hstatus
      have hnacked := Rx.nacked_of_outgrown hbefore hfit hstatus.1.1
      rw [Rx.cutStatus_of_nacked hnacked] at hstatus
      obtain rfl := some.inj hstatus.2
      cases e with
      | zero =>
        refine ⟨?_, hnacked⟩
        rw [Rx.report, ite_self, hempty] at hlarge
        exact hlarge
      | succ e =>
        have hprev := (hbefore e (Nat.lt_succ_self e)).2
        split at hlarge
        · omega
        omega
  · rintro ⟨hlt, hnacked⟩
    obtain rfl := hsmall hlt
    rcases hend with ⟨-, hstop⟩ | ⟨-, -, hfill⟩
    · exact absurd hgo hstop
    · rw [Rx.outgrown, hnacks, if_pos hnacked, if_pos ⟨Nat.le_refl 1, by decide⟩] at hfill
      exact ⟨_, hfill, hlt.trans_le (StatusPdu.two_le_packedLength _)⟩

/-- The condition under which a request survives: `read_pdu` does not ask the receiver, the grant
has room for an empty report, or the PDU at the lower edge is not to be reported as missing. -/
def KeepsRequest (e : Entity) (rxLocked : Bool) (nofBytes : ℕ) : Prop :=
  e.tx.tx.txEnabled = false ∨ e.tx.tx.statusProhibitTimer = .running ∨ rxLocked = true ∨
    2 ≤ nofBytes ∨ e.rx.rxWindow.contains e.rx.vrR = true ∨ e.rx.vrR = e.rx.vrMs

theorem getsStatus_iff {rxLocked : Bool} :
    e.getsStatus rxLocked ↔ e.tx.tx.txEnabled ∧ e.rx.doStatus ∧
      e.tx.tx.statusProhibitTimer ≠ .running ∧ rxLocked = false := by
  simp [getsStatus, and_assoc]

theorem buildStatusPdu_status_iff (s : Tx) (view : Tx.RxView) (nofBytes : ℕ) :
    (∃ n, (s.buildStatusPdu view nofBytes).2 = .status n) ↔
      0 < view.pduLen ∧ view.pduLen ≤ nofBytes := by
  unfold Tx.buildStatusPdu
  split
  · next hsent => exact ⟨fun _ => hsent, fun _ => ⟨_, rfl⟩⟩
  · next hkept => exact ⟨fun ⟨n, hn⟩ => absurd hn (by simp), fun hsent => absurd hsent hkept⟩

/-- `read_pdu` hands out the receiver's status PDU if it fits. -/
theorem readPdu_status_iff {rxLocked : Bool} (hgets : e.getsStatus rxLocked) (nofBytes : ℕ) :
    (∃ n, (e.readPdu rxLocked nofBytes).2 = .status n) ↔
      ∃ status, e.rx.fillStatus nofBytes = some status ∧ status.packedLength ≤ nofBytes := by
  obtain ⟨henabled, hstatus, hprohibit, rfl⟩ := getsStatus_iff.mp hgets
  have hout : (e.readPdu false nofBytes).2 =
      (e.tx.tx.buildStatusPdu (e.rxView false nofBytes) nofBytes).2 := by
    have hdue : ((e.rxView false nofBytes).doStatus &&
        e.tx.tx.statusProhibitTimer != .running) := by
      simp [rxView, hstatus, hprohibit]
    unfold readPdu Tx.readPdu
    rw [henabled, hdue]
    rfl
  obtain ⟨poll, flag, hget⟩ := e.rx.getStatusPdu_eq nofBytes
  have hlen : (e.rxView false nofBytes).pduLen = statusLength (e.rx.fillStatus nofBytes) := by
    rw [rxView, hget]
    rfl
  rw [hout, buildStatusPdu_status_iff, hlen]
  cases e.rx.fillStatus nofBytes with
  | none => simp [statusLength]
  | some status =>
    have htwo := StatusPdu.two_le_packedLength status
    simp [statusLength]
    omega

/-- An unanswered request for a status report stays, exactly under the condition. -/
theorem status_request_kept_iff (he : entitySystem.Reachable e) (hstatus : e.rx.doStatus = true)
    (rxLocked : Bool) (nofBytes : ℕ) :
    ((∀ n, (e.readPdu rxLocked nofBytes).2 ≠ .status n) →
      (e.readPdu rxLocked nofBytes).1.rx.doStatus = e.rx.doStatus ∧
        (e.readPdu rxLocked nofBytes).1.rx.pollReceived = e.rx.pollReceived) ↔
      e.KeepsRequest rxLocked nofBytes := by
  have h := Rx.windowInv (reachable_rx he)
  by_cases hgets : e.getsStatus rxLocked
  · have hlarge := fillStatus_too_large h nofBytes
    have hout := readPdu_status_iff hgets nofBytes
    obtain ⟨henabled, -, hprohibit, rfl⟩ := getsStatus_iff.mp hgets
    have hkeeps : e.KeepsRequest false nofBytes ↔ ¬ (nofBytes < 2 ∧ e.rx.Nacked 0) := by
      have hzero : e.rx.snAt 0 = e.rx.vrR := Nat.mod_eq_of_lt h.vrR_lt
      rw [Rx.Nacked, hzero, not_and_or, not_and_or, not_lt, Bool.not_eq_false, ne_eq, not_not]
      simp [KeepsRequest, henabled, hprohibit]
    rw [hkeeps, ← hlarge, rx_readPdu, if_pos hgets]
    cases hfill : e.rx.fillStatus nofBytes with
    | none =>
      have hsame : e.rx.getStatusPdu nofBytes = (e.rx, none) := by rw [Rx.getStatusPdu, hfill]
      rw [hsame]
      simp
    | some status =>
      have hreset : e.rx.getStatusPdu nofBytes = (e.rx.resetStatus, some status) := by
        rw [Rx.getStatusPdu, hfill]
      rw [hfill] at hout
      rw [hreset]
      constructor
      · rintro hkept ⟨status', heq, hlt⟩
        cases heq
        have hnothing : ∀ n, (e.readPdu false nofBytes).2 ≠ .status n := fun n hn => by
          obtain ⟨status', heq, hle⟩ := hout.mp ⟨n, hn⟩
          rw [← some.inj heq] at hle
          omega
        exact absurd ((hkept hnothing).1.trans hstatus) (by simp [Rx.resetStatus])
      · intro hfits hnothing
        obtain ⟨n, hn⟩ := hout.mpr ⟨status, rfl, Nat.not_lt.mp fun hlt =>
          hfits ⟨status, rfl, hlt⟩⟩
        exact absurd hn (hnothing n)
  · have hkeeps : e.KeepsRequest rxLocked nofBytes := by
      by_contra hnot
      rw [KeepsRequest, not_or, not_or, not_or] at hnot
      refine hgets (getsStatus_iff.mpr ⟨?_, hstatus, hnot.2.1, ?_⟩)
      · exact Bool.eq_true_of_not_eq_false hnot.1
      · exact Bool.eq_false_of_not_eq_true hnot.2.2.1
    rw [rx_readPdu, if_neg hgets]
    exact ⟨fun _ => hkeeps, fun _ _ => ⟨rfl, rfl⟩⟩

/-- An entity polled by the PDU 1, before the PDU 0 arrived. -/
def polledWithGap : List EntityAction :=
  [.rx (.writePdu [0xA0, 0x01, 7]), .rx .timerExpired]

/-- The entity before its first event. -/
def exampleEntity : Entity := { tx := { tx := { cfg := exampleTxCfg } } }

theorem entitySystem_init : entitySystem.Init exampleEntity := ⟨⟨exampleTxCfg, rfl⟩, rfl⟩

/-- A grant of three bytes does not lose the request. -/
theorem status_request_kept_of_three_bytes : ∃ e, entitySystem.Reachable e ∧ e.rx.doStatus = true ∧
      ((∀ n, (e.readPdu false 3).2 ≠ .status n) → (e.readPdu false 3).1.rx.doStatus = true) := by
  have hrun : ∃ e, entitySystem.Reachable e ∧ e.rx.doStatus :=
    System.exists_reachable_of_run entitySystem_init polledWithGap (by rfl)
  obtain ⟨e, he, hstatus⟩ := hrun
  have hkept := (status_request_kept_iff he hstatus false 3).mpr
    (.inr (.inr (.inr (.inl (by decide)))))
  exact ⟨e, he, hstatus, fun hnothing => (hkept hnothing).1.trans hstatus⟩

/-- A grant of one byte sends nothing and loses the request. -/
theorem status_request_lost :
    ∃ e, entitySystem.Reachable e ∧ e.rx.doStatus = true ∧ (e.readPdu false 1).2 = .nothing ∧
      (e.readPdu false 1).1.rx.doStatus = false :=
  System.exists_reachable_of_run entitySystem_init polledWithGap (by rfl)

end Entity

end MbmsTx.Rlc.Am
