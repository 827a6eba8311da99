import MbmsTx.Lib.CircularMap
import MbmsTx.Rlc.Am.RxSegments
import MbmsTx.Rlc.Am.Status

/-!
# The receiver of an acknowledged-mode entity

In `rlc_am_lte_rx` data PDUs wait in the receive window until those before them have arrived, and
their SDUs are put together and handed to PDCP in order. Segments are collected until they make up a
PDU, which is then handled like one that arrived whole.

The SDUs handed to PDCP are kept in a log. Where the source would use a null pointer or an element
of an empty list, the receiver stops and the state records the fault.
-/

namespace MbmsTx.Rlc.Am

/-! ## State -/

/-- The receiver stops when `rx_sdu` is used while it is null, or the last of an empty list of
segments is taken. -/
inductive RxFault
  | nullSdu
  | emptySegments
deriving DecidableEq

/-- `rlc_am_lte_rx`, with the log of the SDUs for PDCP. -/
structure Rx where
  vrR : ℕ := 0
  vrMr : ℕ := windowSize
  vrX : ℕ := 0
  vrMs : ℕ := 0
  vrH : ℕ := 0
  pollReceived : Bool := false
  doStatus : Bool := false
  reorderingRunning : Bool := false
  rxWindow : CircularMap windowSize AmdPdu := .empty windowSize AmdPdu
  rxSegments : ℕ → Option (List AmdPdu) := fun _ => none
  rxSdu : Option (List UInt8) := none
  delivered : List (List UInt8) := []
  fault : Option RxFault := none

namespace Rx

/-- `RX_MOD_BASE`, with a difference of `uint32_t` values. -/
def modBase (s : Rx) (x : ℕ) : ℕ := sub32 x s.vrR % 1024

def insideRxWindow (s : Rx) (sn : ℕ) : Bool :=
  decide (s.modBase s.vrR ≤ s.modBase sn) && decide (s.modBase sn < s.modBase s.vrMr)

/-- The store with the list of one SN set or erased. -/
def setSegments (s : Rx) (sn : ℕ) (segments : Option (List AmdPdu)) : Rx :=
  { s with rxSegments := fun i => if i = sn then segments else s.rxSegments i }

/-! ## Reassembly of SDUs -/

/-- What the reassembly of a PDU leaves: the SDU under construction, null if it was dropped, the
rest of the PDU, and the SDUs handed to PDCP. -/
structure Assembled where
  rxSdu : Option (List UInt8)
  msg : List UInt8
  sdus : List (List UInt8)
deriving DecidableEq

/-- The loop over the length indicators of a PDU of which `read` bytes were read and `msg` is left.
A zero ends it, and an SDU that does not fit the buffer is dropped. -/
def takeLis : List ℕ → ℕ → List UInt8 → List UInt8 → Assembled
  | [], _, rxSdu, msg => { rxSdu := some rxSdu, msg := msg, sdus := [] }
  | len :: lis, read, rxSdu, msg =>
    if len = 0 then { rxSdu := some rxSdu, msg := msg, sdus := [] }
    else if tailroom rxSdu.length < len ∨ maxBufferSizeBytes ≤ bufferHeaderOffset + read + len ∨
        msg.length < len then { rxSdu := none, msg := msg, sdus := [] }
    else
      let rest := takeLis lis (read + len) [] (msg.drop len)
      { rest with sdus := (rxSdu ++ msg.take len) :: rest.sdus }

/-- The last part of a PDU, which completes an SDU if it ends there. -/
def takeLast (fi : Fi) (rxSdu msg : List UInt8) : Assembled :=
  if tailroom rxSdu.length < msg.length then { rxSdu := none, msg := msg, sdus := [] }
  else if fi.endAligned then { rxSdu := some [], msg := [], sdus := [rxSdu ++ msg] }
  else { rxSdu := some (rxSdu ++ msg), msg := [], sdus := [] }

/-- One round of `reassemble_rx_sdus` over a PDU. -/
def takePdu (rxSdu : List UInt8) (pdu : AmdPdu) : Assembled :=
  let first := takeLis pdu.1.li 0 rxSdu pdu.2
  match first.rxSdu with
  | none => first
  | some rxSdu =>
    let last := takeLast pdu.1.fi rxSdu first.msg
    { last with sdus := first.sdus ++ last.sdus }

/-- Move the window past the PDU at its lower edge. Its list of segments is cleared, but stays in
the store. -/
def moveWindow (s : Rx) : Rx :=
  { s with
      rxSegments := fun i => if i = s.vrR then (s.rxSegments i).map fun _ => [] else s.rxSegments i
      rxWindow := s.rxWindow.erase s.vrR
      vrR := (s.vrR + 1) % snMod
      vrMr := (s.vrMr + 1) % snMod }

/-- The loop of `reassemble_rx_sdus`, which removes a PDU in every round. -/
def reassembleLoop : ℕ → Rx → Rx
  | 0, s => s
  | fuel + 1, s =>
    match s.rxWindow.get? s.vrR with
    | none => s
    | some pdu =>
      match s.rxSdu with
      | none => { s with fault := some .nullSdu }
      | some rxSdu =>
        let taken := takePdu rxSdu pdu
        reassembleLoop fuel
          { s with rxSdu := taken.rxSdu, delivered := s.delivered ++ taken.sdus }.moveWindow

def reassembleRxSdus (s : Rx) : Rx :=
  reassembleLoop (windowSize + 1) { s with rxSdu := some (s.rxSdu.getD []) }

/-! ## Data PDUs -/

/-- The loop that moves a state variable past the PDUs in the window. -/
def skipReceived (window : CircularMap windowSize AmdPdu) : ℕ → ℕ → ℕ
  | 0, sn => sn
  | fuel + 1, sn =>
    if window.contains sn then skipReceived window fuel ((sn + 1) % snMod) else sn

/-- Advance the highest receive state behind an SN. -/
def updateVrH (s : Rx) (sn : ℕ) : Rx :=
  if s.modBase s.vrH ≤ s.modBase sn then { s with vrH := (sn + 1) % snMod } else s

/-- The poll bit of a new PDU: the status report is delayed by the reordering timer if PDUs may
still be missing before it. -/
def checkPoll (s : Rx) (p : Bool) (sn : ℕ) : Rx :=
  if p then
    { s with
        pollReceived := true
        doStatus := s.doStatus || decide (s.modBase sn < s.modBase s.vrMs) ||
          decide (s.modBase s.vrMr ≤ s.modBase sn) }
  else s

/-- The reordering timer at the end of `handle_data_pdu`. -/
def updateReordering (s : Rx) : Rx :=
  let stop := s.reorderingRunning &&
    (decide (s.vrX = s.vrR) || (!s.insideRxWindow s.vrX && decide (s.vrX ≠ s.vrMr)))
  if (stop || !s.reorderingRunning) && decide (s.modBase s.vrR < s.modBase s.vrH) then
    { s with reorderingRunning := true, vrX := s.vrH }
  else { s with reorderingRunning := s.reorderingRunning && !stop }

/-- Put a PDU into the window, advance the state and deliver SDUs. -/
def receivePdu (s : Rx) (pdu : AmdPdu) : Rx :=
  let sn := pdu.1.sn
  let s := { s with rxWindow := s.rxWindow.overwrite sn pdu }
  let s := s.updateVrH sn
  let s := { s with vrMs := skipReceived s.rxWindow (windowSize + 1) s.vrMs }
  let s := (s.checkPoll pdu.1.p sn).reassembleRxSdus
  if s.fault.isSome then s else s.updateReordering

/-- `handle_data_pdu`. For a PDU that does not fit a buffer the window gets an empty one with a
default header. -/
def handleDataPdu (s : Rx) (pdu : AmdPdu) : Rx :=
  let sn := pdu.1.sn
  if pdu.2.length < pdu.1.li.sum then s
  else if !s.insideRxWindow sn || s.rxWindow.contains sn then
    { s with doStatus := s.doStatus || pdu.1.p }
  else if tailroom 0 < pdu.2.length then
    { s with rxWindow := s.rxWindow.overwrite sn ({}, []) }
  else s.receivePdu pdu

/-! ## Segments -/

/-- The first segment in `handle_data_pdu_segment` starts the list, even if it is the whole PDU. -/
def startSegments (s : Rx) (segment : AmdPdu) : Rx :=
  let sn := segment.1.sn
  ((s.setSegments sn (some [segment])).updateVrH sn).checkPoll segment.1.p sn

/-- `handle_data_pdu_segment`, with the PDU for `handle_data_pdu`. Its list is erased after that
call. -/
def handleDataPduSegment (s : Rx) (segment : AmdPdu) : Rx × Option AmdPdu :=
  let sn := segment.1.sn
  if !s.insideRxWindow sn then ({ s with doStatus := s.doStatus || segment.1.p }, none)
  else if tailroom 0 < segment.2.length then (s, none)
  else
    match s.rxSegments sn with
    | none => (s.startSegments segment, none)
    | some segments =>
      let s := { s with doStatus := s.doStatus || segment.1.p }
      match RxSegments.addSegmentAndCheck segments segment with
      | (segments, .incomplete) => (s.setSegments sn (some segments), none)
      | (segments, .emptyList) =>
        ({ s.setSegments sn (some segments) with fault := some .emptySegments }, none)
      | (segments, .complete pdu) =>
        (((s.setSegments sn (some segments)).handleDataPdu pdu).setSegments sn none, some pdu)

/-- `write_pdu` for a data PDU or a segment of one. -/
def writePdu (s : Rx) (pdu : AmdPdu) : Rx :=
  if pdu.1.rf then (s.handleDataPduSegment pdu).1 else s.handleDataPdu pdu

/-- `timer_expired` for the reordering timer. -/
def timerExpired (s : Rx) : Rx :=
  let s := { s with
    reorderingRunning := false
    vrMs := skipReceived s.rxWindow (windowSize + 1) s.vrX
    doStatus := s.doStatus || s.pollReceived }
  if s.modBase s.vrMs < s.modBase s.vrH then { s with reorderingRunning := true, vrX := s.vrH }
  else s

/-! ## Status reports -/

def resetStatus (s : Rx) : Rx := { s with doStatus := false, pollReceived := false }

/-- A round of `get_status_pdu`: `ack_sn` moves to an SN that was received or is the last one to
report, every other SN is NACKed. -/
def reportSn (s : Rx) (i : ℕ) (status : StatusPdu) : StatusPdu :=
  if s.rxWindow.contains i || decide (i = s.vrMs) then { status with ackSn := i }
  else { status with nacks := status.nacks ++ [{ nackSn := i }] }

/-- The status PDU without its last NACK, or an empty one if that is not valid. -/
def cutStatus (s : Rx) (status : StatusPdu) : StatusPdu :=
  let status := { status with nacks := status.nacks.dropLast }
  if status.isValid s.vrR then status else { ackSn := s.vrR, nacks := [] }

/-- The loop of `get_status_pdu`; `none` when it returns zero. -/
def statusLoop (s : Rx) (maxPduSize : ℕ) : ℕ → ℕ → StatusPdu → Option StatusPdu
  | 0, _, status => some status
  | fuel + 1, i, status =>
    if s.modBase i ≤ s.modBase s.vrMs ∧ status.nacks.length < windowSize then
      let status := s.reportSn i status
      if maxPduSize < status.packedLength then
        if 1 ≤ status.nacks.length ∧ status.nacks.length < windowSize then
          some (s.cutStatus status)
        else none
      else statusLoop s maxPduSize fuel ((i + 1) % snMod) status
    else some status

/-- The status PDU that `get_status_pdu` fills. The loop goes through the sequence numbers once, and
again if it did not stop at `vr_ms`. -/
def fillStatus (s : Rx) (maxPduSize : ℕ) : Option StatusPdu :=
  statusLoop s maxPduSize (2 * snMod) s.vrR { ackSn := s.vrR, nacks := [] }

/-- `get_status_pdu`, with the lock of the receiver. -/
def getStatusPdu (s : Rx) (maxPduSize : ℕ) : Rx × Option StatusPdu :=
  match s.fillStatus maxPduSize with
  | none => (s, none)
  | some status => (s.resetStatus, some status)

/-! ## What the small updates change -/

theorem skipReceived_lt {window : CircularMap windowSize AmdPdu} {sn : ℕ} (fuel : ℕ)
    (hsn : sn < snMod) : skipReceived window fuel sn < snMod := by
  induction fuel generalizing sn with
  | zero => exact hsn
  | succ fuel ih =>
    rw [skipReceived]
    split
    · exact ih (Nat.mod_lt _ (by decide))
    · exact hsn

variable (s : Rx)

theorem updateVrH_eq (sn : ℕ) :
    ∃ vrH, (s.vrH < snMod → vrH < snMod) ∧ s.updateVrH sn = { s with vrH := vrH } := by
  unfold updateVrH
  split
  · exact ⟨_, fun _ => Nat.mod_lt _ (by decide), rfl⟩
  · exact ⟨s.vrH, id, rfl⟩

theorem checkPoll_eq (p : Bool) (sn : ℕ) :
    ∃ poll status, s.checkPoll p sn = { s with pollReceived := poll, doStatus := status } := by
  cases p with
  | false => exact ⟨s.pollReceived, s.doStatus, rfl⟩
  | true => exact ⟨_, _, rfl⟩

theorem updateReordering_eq : ∃ running vrX, (s.vrX < snMod → s.vrH < snMod → vrX < snMod) ∧
      s.updateReordering = { s with reorderingRunning := running, vrX := vrX } := by
  unfold updateReordering
  dsimp only
  split
  · simp
  · exact ⟨_, s.vrX, fun hvrX _ => hvrX, rfl⟩

theorem timerExpired_eq : ∃ running vrX vrMs status, (s.vrX < snMod → s.vrH < snMod → vrX < snMod) ∧
      (s.vrX < snMod → vrMs < snMod) ∧ s.timerExpired =
        { s with reorderingRunning := running, vrX := vrX, vrMs := vrMs, doStatus := status } := by
  unfold timerExpired
  dsimp only
  split
  · exact ⟨_, _, _, _, fun _ hvrH => hvrH, skipReceived_lt _, rfl⟩
  · exact ⟨_, s.vrX, _, _, fun hvrX _ => hvrX, skipReceived_lt _, rfl⟩

/-- A new PDU is put into the window before the SDUs are reassembled. -/
theorem receivePdu_eq (pdu : AmdPdu) :
    ∃ vrH vrMs poll status running vrX, (s.vrH < snMod → vrH < snMod) ∧
      (s.vrMs < snMod → vrMs < snMod) ∧
      let t := reassembleLoop (windowSize + 1)
        { s with
            rxWindow := s.rxWindow.overwrite pdu.1.sn pdu
            vrH := vrH
            vrMs := vrMs
            pollReceived := poll
            doStatus := status
            rxSdu := some (s.rxSdu.getD []) }
      (t.vrX < snMod → t.vrH < snMod → vrX < snMod) ∧
        s.receivePdu pdu = { t with reorderingRunning := running, vrX := vrX } := by
  obtain ⟨vrH, hlt, hvrH⟩ :=
    updateVrH_eq { s with rxWindow := s.rxWindow.overwrite pdu.1.sn pdu } pdu.1.sn
  have hms : s.vrMs < snMod →
      skipReceived (s.rxWindow.overwrite pdu.1.sn pdu) (windowSize + 1) s.vrMs < snMod :=
    skipReceived_lt _
  unfold receivePdu
  dsimp only
  rw [hvrH]
  generalize skipReceived _ _ _ = vrMs at hms ⊢
  obtain ⟨poll, status, hpoll⟩ := checkPoll_eq
    { s with rxWindow := s.rxWindow.overwrite pdu.1.sn pdu, vrH := vrH, vrMs := vrMs }
    pdu.1.p pdu.1.sn
  rw [hpoll, reassembleRxSdus]
  refine ⟨vrH, vrMs, poll, status, ?_⟩
  generalize reassembleLoop _ _ = u
  obtain ⟨running, vrX, hvrX, hreorder⟩ := u.updateReordering_eq
  split
  · exact ⟨u.reorderingRunning, u.vrX, hlt, hms, fun h _ => h, rfl⟩
  · exact ⟨running, vrX, hlt, hms, hvrX, hreorder⟩

theorem startSegments_eq (segment : AmdPdu) :
    ∃ vrH poll status, (s.vrH < snMod → vrH < snMod) ∧ s.startSegments segment =
      { s.setSegments segment.1.sn (some [segment]) with
          vrH := vrH
          pollReceived := poll
          doStatus := status } := by
  obtain ⟨vrH, hlt, hvrH⟩ := updateVrH_eq (s.setSegments segment.1.sn (some [segment])) segment.1.sn
  obtain ⟨poll, status, hpoll⟩ := checkPoll_eq
    { s.setSegments segment.1.sn (some [segment]) with vrH := vrH } segment.1.p segment.1.sn
  exact ⟨vrH, poll, status, hlt, by rw [startSegments, hvrH, hpoll]⟩

end Rx

end MbmsTx.Rlc.Am
