import MbmsTx.Lib.CircularMap
import MbmsTx.Rlc.Am.Segment
import MbmsTx.Rlc.Am.SegmentPool
import MbmsTx.Rlc.Am.Status

/-!
# The transmitter of an acknowledged-mode entity

In `rlc_am_lte_tx` SDUs wait in a queue, `read_pdu` turns a grant of the MAC into a status PDU, a
retransmission or a new data PDU, and a status PDU of the peer removes acknowledged PDUs from the
transmit window and schedules the others for retransmission.

`handle_control_pdu` takes the lock at its start and then again for every NACK and every
acknowledged PDU, so a `read_pdu` of another thread can come in between: it is modelled by its
critical sections, `controlStart` and one `controlStep` after the other.
-/

namespace MbmsTx.Rlc.Am

/-! ## State -/

/-- The fields of `rlc_am_config_t` and `rlc_config_t` that the transmitter reads, and whether a
callback for buffer status reports is set. -/
structure TxCfg where
  pollPdu : ℤ
  pollByte : ℤ
  tStatusProhibit : ℤ
  txQueueLength : ℕ
  bsrCallback : Bool

/-- A configuration that polls every sixteen PDUs. -/
def exampleTxCfg : TxCfg where
  pollPdu := 16
  pollByte := 0
  tStatusProhibit := 0
  txQueueLength := 256
  bsrCallback := true

/-- An SDU: what is left of it, and its PDCP SN. -/
structure Sdu where
  msg : List UInt8
  pdcpSn : ℕ
deriving DecidableEq

/-- `rlc_amd_tx_pdu`. -/
structure TxPdu where
  rlcSn : ℕ
  retxCount : ℕ := 0
  header : AmdHeader := {}
  buf : List UInt8 := []
  list : List ℕ := []
deriving DecidableEq

/-- `rlc_amd_retx_t`. -/
structure Retx where
  sn : ℕ
  isSegment : Bool
  soStart : ℕ
  soEnd : ℕ
deriving DecidableEq

/-- The state of a timer. -/
inductive Timer
  | stopped
  | running
  | expired
deriving DecidableEq

/-- `rlc_am_lte_tx`. The SDU queue holds null pointers for discarded SDUs. -/
structure Tx where
  cfg : TxCfg
  txEnabled : Bool := true
  txSduQueue : List (Option Sdu) := []
  txSdu : Option Sdu := none
  vtA : ℕ := 0
  vtMs : ℕ := windowSize
  vtS : ℕ := 0
  pollSn : ℕ := 0
  pduWithoutPoll : ℕ := 0
  byteWithoutPoll : ℕ := 0
  pollRetxTimer : Timer := .stopped
  statusProhibitTimer : Timer := .stopped
  tracking : SegmentTracking := .init
  txWindow : CircularMap windowSize TxPdu := .empty windowSize TxPdu
  retxQueue : List Retx := []
  notifyInfoVec : List ℕ := []

namespace Tx

/-- `TX_MOD_BASE`. -/
def modBase (s : Tx) (x : ℕ) : ℕ := sub32 x s.vtA % 1024

/-- `tx_sdu_queue.get_n_sdus`: the SDUs that were not discarded. -/
def nSdus (queue : List (Option Sdu)) : ℕ := queue.countP Option.isSome

/-- `pdu_retx_queue::push`. The queue is a ring of as many places as the window; with the last one
filled, the positions for reading and writing coincide and it counts as empty. -/
def pushRetx (queue : List Retx) (retx : Retx) : List Retx :=
  if queue.length + 1 = windowSize then [] else queue ++ [retx]

/-- `write_sdu` of a non-null SDU, dropped when the queue is full. -/
def writeSdu (s : Tx) (sdu : Sdu) : Tx :=
  if s.txEnabled && decide (s.txSduQueue.length < s.cfg.txQueueLength) then
    { s with txSduQueue := s.txSduQueue ++ [some sdu] }
  else s

def discardSdu (s : Tx) (discardSn : ℕ) : Tx :=
  if s.txEnabled then
    { s with
        txSduQueue := s.txSduQueue.map fun entry =>
          entry.filter fun sdu => sdu.pdcpSn ≠ discardSn }
  else s

/-! ## Retransmissions -/

def retransmitPdu (s : Tx) (sn : ℕ) : Tx :=
  match s.txWindow.get? sn with
  | none => s
  | some pdu =>
    { s with
        txWindow := s.txWindow.modify sn fun pdu => { pdu with retxCount := pdu.retxCount + 1 }
        retxQueue := pushRetx s.retxQueue
          { isSegment := false, soStart := 0, soEnd := pdu.buf.length, sn := pdu.rlcSn } }

def pollRequired (s : Tx) : Bool :=
  (decide (0 < s.cfg.pollPdu) && decide (s.cfg.pollPdu.toNat < s.pduWithoutPoll)) ||
  (decide (0 < s.cfg.pollByte) && decide (s.cfg.pollByte.toNat < s.byteWithoutPoll)) ||
  s.pollRetxTimer == .expired ||
  decide (windowSize ≤ s.txWindow.count) ||
  (s.txSduQueue.isEmpty && s.retxQueue.isEmpty) ||
  (s.cfg.pollPdu == 0 && s.cfg.pollByte == 0 && s.vtS % 8 == 0)

/-- Count a PDU of `nofBytes` bytes as sent without poll. -/
def countPoll (s : Tx) (nofBytes : ℕ) : Tx :=
  { s with
      pduWithoutPoll := (s.pduWithoutPoll + 1) % 2 ^ 32
      byteWithoutPoll := (s.byteWithoutPoll + nofBytes) % 2 ^ 32 }

/-- Restart the counters and the timer when a PDU carries the poll bit. -/
def restartPoll (s : Tx) (p : Bool) : Tx :=
  if p then { s with pduWithoutPoll := 0, byteWithoutPoll := 0, pollRetxTimer := .running } else s

/-- The `int` that a `uint32_t` value is converted to. -/
def toInt32 (n : ℕ) : ℤ :=
  if n % 2 ^ 32 < 2 ^ 31 then ((n % 2 ^ 32 : ℕ) : ℤ) else ((n % 2 ^ 32 : ℕ) : ℤ) - 2 ^ 32

/-- `required_buffer_size` of an entry whose SN is in the window. -/
def requiredBufferSize (pdu : TxPdu) (retx : Retx) : ℤ :=
  if retx.isSegment then
    toInt32 (packedLengthOf true (neededLis retx.soStart retx.soEnd 0 pdu.header.li) +
      sub32 retx.soEnd retx.soStart)
  else toInt32 (pdu.header.packedLength + pdu.buf.length)

/-- The range of bytes for `build_segment`: all `nBytes` of the PDU for an entry that is not a
segment. -/
def retxRange (retx : Retx) (nBytes : ℕ) : ℕ × ℕ :=
  if retx.isSegment then (retx.soStart, retx.soEnd) else (0, nBytes)

/-- `build_segment` for the front of the retransmission queue. -/
def buildSegment (s : Tx) (nofBytes : ℕ) (pdu : TxPdu) (retx : Retx) : Tx × Option AmdPdu :=
  let range := retxRange retx pdu.buf.length
  -- the header is still the default one, of two bytes, when it is counted
  let s := s.countPoll (pdu.buf.length + AmdHeader.packedLength {})
  let p := s.pollRequired
  let s := s.restartPoll p
  match segmentOf pdu.header pdu.buf.length nofBytes range.1 range.2 p with
  | none => (s, none)
  | some (header, soEnd) =>
    let queue :=
      if header.lsf || decide (retx.soEnd = soEnd) then s.retxQueue.tail
      else { retx with isSegment := true, soStart := soEnd } :: s.retxQueue.tail
    ({ s with retxQueue := queue },
      some (header, (pdu.buf.drop range.1).take (sub32 soEnd range.1)))

/-- The retransmission queue after entries at its front whose SN is not in the window are dropped;
when none is left, the PDU at the lower edge is scheduled. -/
def dropMissing (s : Tx) : Tx :=
  let s := { s with retxQueue := s.retxQueue.dropWhile fun retx => !s.txWindow.contains retx.sn }
  if s.retxQueue.isEmpty && s.txWindow.contains s.vtA then s.retransmitPdu s.vtA else s

/-- `build_retx_pdu`. Results that are not positive are no PDU. -/
def buildRetxPdu (s : Tx) (nofBytes : ℕ) : Tx × Option AmdPdu :=
  let s := if s.retxQueue.isEmpty then s else s.dropMissing
  match s.retxQueue with
  | [] => (s, none)
  | retx :: queue =>
    match s.txWindow.get? retx.sn with
    | none => ({ s with retxQueue := queue }, none)
    | some pdu =>
      if requiredBufferSize pdu retx < 0 then ({ s with retxQueue := queue }, none)
      else if retx.isSegment || decide ((nofBytes : ℤ) < requiredBufferSize pdu retx) then
        s.buildSegment nofBytes pdu retx
      else
        let s := s.countPoll (pdu.buf.length + pdu.header.packedLength)
        let p := s.pollRequired
        let s := s.restartPoll p
        ({ s with retxQueue := queue }, some ({ pdu.header with p := p }, pdu.buf))

/-! ## New data PDUs -/

/-- `RLC_AM_MIN_DATA_PDU_SIZE`. -/
def minDataPduSize : ℕ := 3

def maxSdusPerPdu : ℕ := 128

/-- `tx_sdu_queue.read`, repeated over null pointers. -/
def readQueue : List (Option Sdu) → Option Sdu × List (Option Sdu)
  | [] => (none, [])
  | some sdu :: queue => (some sdu, queue)
  | none :: queue => readQueue queue

/-- The variables of `build_data_pdu` while it fills the PDU. -/
structure Fill where
  txSdu : Option Sdu
  txSduQueue : List (Option Sdu)
  tracking : SegmentTracking
  li : List ℕ := []
  data : List UInt8 := []
  list : List ℕ := []
  headLen : ℕ
  pduSpace : ℕ
  lastLi : ℕ := 0

/-- The bytes of an SDU that go into the PDU. -/
def toMove (f : Fill) (sdu : Sdu) : ℕ :=
  if sdu.msg.length ≤ f.pduSpace - f.headLen then sdu.msg.length else f.pduSpace - f.headLen

/-- An SDU after its first `n` bytes; a complete one is reset. -/
def sduRest (sdu : Sdu) (n : ℕ) : Option Sdu :=
  if sdu.msg.length = n then none else some { sdu with msg := sdu.msg.drop n }

/-- Add the rest of the SDU of the previous PDU. -/
def Fill.addSegment (f : Fill) (sn : ℕ) (sdu : Sdu) : Fill :=
  let n := toMove f sdu
  let data := f.data ++ sdu.msg.take n
  let (tracking, list) :=
    if f.tracking.hasPdcpSn sdu.pdcpSn then
      let (tracking, list) := f.tracking.makeSegment sn sdu.pdcpSn f.list
      (tracking.markFullyTxed sdu.pdcpSn (sdu.msg.length - n), list)
    else (f.tracking, f.list)
  { f with
      txSdu := sduRest sdu n
      tracking := tracking
      list := list
      data := data
      pduSpace := if n < f.pduSpace then f.pduSpace - min n (tailroom data.length) else 0
      lastLi := n }

/-- Add an SDU that was read from the queue. -/
def Fill.addSdu (f : Fill) (sn : ℕ) (sdu : Sdu) : Fill :=
  let n := toMove f sdu
  let tracking :=
    if f.tracking.hasPdcpSn sdu.pdcpSn then f.tracking else f.tracking.addPdcpSdu sdu.pdcpSn
  let (tracking, list) := tracking.makeSegment sn sdu.pdcpSn f.list
  { f with
      txSdu := sduRest sdu n
      tracking := tracking.markFullyTxed sdu.pdcpSn (sdu.msg.length - n)
      list := list
      data := f.data ++ sdu.msg.take n
      pduSpace := if n < f.pduSpace then f.pduSpace - n else 0
      lastLi := n }

/-- The loop of `build_data_pdu` that pulls SDUs from the queue, whose length bounds the rounds. It
is an error when the segment resources are used up before the first byte. -/
def Fill.pull (sn : ℕ) : ℕ → Fill → Except Fill Fill
  | 0, f => .ok f
  | fuel + 1, f =>
    if f.headLen < f.pduSpace ∧ 0 < nSdus f.txSduQueue ∧ f.li.length < maxSdusPerPdu then
      if f.tracking.hasSegments then
        let li := if 0 < f.lastLi then f.li ++ [f.lastLi] else f.li
        let headLen := packedLengthOf false li.length
        if f.pduSpace ≤ headLen then .ok { f with li := li.dropLast, headLen := headLen }
        else
          match readQueue f.txSduQueue with
          | (none, queue) =>
            .ok { f with
              txSdu := none, txSduQueue := queue, li := li.dropLast, headLen := headLen }
          | (some sdu, queue) =>
            Fill.pull sn fuel
              (Fill.addSdu { f with txSduQueue := queue, li := li, headLen := headLen } sn sdu)
      else if f.data.isEmpty then .error f else .ok f
    else .ok f

/-- Why `build_data_pdu` refuses: there is nothing to send, the window is full (only asked when no
SDU is being sent), the grant is too small, or the segment resources are used up. -/
def refusesData (s : Tx) (nofBytes : ℕ) : Bool :=
  (s.txSdu.isNone && s.txSduQueue.isEmpty) ||
  (s.txSdu.isNone && decide (windowSize ≤ s.txWindow.count)) ||
  decide (nofBytes < minDataPduSize) ||
  !s.tracking.hasSegments

/-- `tx_window.add_pdu`: the PDU in the slot is destroyed. -/
def addPdu (s : Tx) (sn : ℕ) : Tx :=
  { s with
      tracking :=
        match s.txWindow.evicted sn with
        | some (_, pdu) => s.tracking.releasePdu pdu.list
        | none => s.tracking
      txWindow := s.txWindow.overwrite sn { rlcSn := sn } }

/-- `tx_window.remove_pdu`. -/
def removePdu (s : Tx) (sn : ℕ) : Tx :=
  match s.txWindow.get? sn with
  | some pdu =>
    { s with
        tracking := s.tracking.releasePdu pdu.list
        txWindow := s.txWindow.erase sn }
  | none => s

/-- The variables of `build_data_pdu` for an empty PDU. -/
def fillEmpty (s : Tx) (nofBytes : ℕ) : Fill where
  txSdu := s.txSdu
  txSduQueue := s.txSduQueue
  tracking := s.tracking
  headLen := packedLengthOf false 0
  pduSpace := min nofBytes (tailroom 0)

/-- `build_data_pdu` before the loop: the SDU that is being sent comes first. -/
def fillInit (s : Tx) (nofBytes : ℕ) : Fill :=
  match s.txSdu with
  | some sdu => (s.fillEmpty nofBytes).addSegment s.vtS sdu
  | none => s.fillEmpty nofBytes

/-- The end of `build_data_pdu`: framing info, poll bit, state and window. -/
def finishData (s : Tx) (startedSdu : Bool) (f : Fill) : Tx × Option AmdPdu :=
  let s := { s with txSdu := f.txSdu, txSduQueue := f.txSduQueue, tracking := f.tracking }
  let s := s.countPoll (f.data.length + f.headLen)
  let p := s.pollRequired
  let s := { s.restartPoll p with pollSn := if p then s.vtS else s.pollSn }
  let header : AmdHeader :=
    { p := p, fi := ⟨startedSdu, f.txSdu.isSome⟩, sn := s.vtS, li := f.li }
  let window := s.txWindow.modify s.vtS fun pdu =>
    { pdu with header := header, buf := f.data, list := f.list }
  ({ s with vtS := (s.vtS + 1) % snMod, txWindow := window }, some (header, f.data))

/-- The way out of `build_data_pdu` when nothing could be added: the PDU leaves the window and the
send state stays. -/
def abortData (s : Tx) (f : Fill) : Tx :=
  { s with
      txSdu := f.txSdu
      txSduQueue := f.txSduQueue
      tracking := f.tracking.releasePdu f.list
      txWindow := s.txWindow.erase s.vtS }

def buildDataPdu (s : Tx) (nofBytes : ℕ) : Tx × Option AmdPdu :=
  if s.refusesData nofBytes then (s, none)
  else
    let t := s.addPdu s.vtS
    match Fill.pull s.vtS s.txSduQueue.length (t.fillInit nofBytes) with
    | .ok f => t.finishData s.txSdu.isSome f
    | .error f => (t.abortData f, none)

/-! ## Grants and timers -/

/-- What the receiver tells the transmitter: whether a status report is due, and the result of
`get_status_pdu`, `-1` when its lock could not be acquired. -/
structure RxView where
  doStatus : Bool
  pduLen : ℤ
deriving DecidableEq

/-- What `read_pdu` hands to the MAC. -/
inductive TxOut
  | nothing
  | status (nofBytes : ℕ)
  | data (pdu : AmdPdu)
deriving DecidableEq

/-- What the MAC gets for a data PDU, if there is one. -/
def TxOut.ofPdu : Option AmdPdu → TxOut
  | some pdu => .data pdu
  | none => .nothing

def buildStatusPdu (s : Tx) (rx : RxView) (nofBytes : ℕ) : Tx × TxOut :=
  if 0 < rx.pduLen ∧ rx.pduLen ≤ nofBytes then
    (if 0 < s.cfg.tStatusProhibit then { s with statusProhibitTimer := .running } else s,
      .status rx.pduLen.toNat)
  else (s, .nothing)

/-- `read_pdu` after the status report: a retransmission if one fits, else a new data PDU. When the
window is full and nothing is scheduled, the PDU at its lower edge is. -/
def readData (s : Tx) (nofBytes : ℕ) : Tx × Option AmdPdu :=
  let s :=
    if decide (windowSize ≤ s.txWindow.count) && s.retxQueue.isEmpty then s.retransmitPdu s.vtA
    else s
  if s.retxQueue.isEmpty then s.buildDataPdu nofBytes
  else
    match s.buildRetxPdu nofBytes with
    | (s, some pdu) => (s, some pdu)
    | (s, none) => s.buildDataPdu nofBytes

def readPdu (s : Tx) (rx : RxView) (nofBytes : ℕ) : Tx × TxOut :=
  if !s.txEnabled then (s, .nothing)
  else if rx.doStatus && s.statusProhibitTimer != .running then s.buildStatusPdu rx nofBytes
  else ((s.readData nofBytes).1, TxOut.ofPdu (s.readData nofBytes).2)

/-- `get_buffer_state` removes an entry of negative size at the front of the retransmission queue.
-/
def dropInvalidRetx (s : Tx) : Tx :=
  match s.retxQueue with
  | [] => s
  | retx :: queue =>
    match s.txWindow.get? retx.sn with
    | none => s
    | some pdu => if requiredBufferSize pdu retx < 0 then { s with retxQueue := queue } else s

/-- The timers of the transmitter. -/
inductive TxTimer
  | pollRetx
  | statusProhibit
deriving DecidableEq

def timerExpired (s : Tx) (timer : TxTimer) : Tx :=
  let s :=
    match timer with
    | .pollRetx =>
      let s := { s with pollRetxTimer := .expired }
      if (s.retxQueue.isEmpty && s.txSduQueue.isEmpty) ||
          decide (windowSize ≤ s.txWindow.count) then s.retransmitPdu s.vtA
      else s
    | .statusProhibit => { s with statusProhibitTimer := .expired }
  if s.cfg.bsrCallback then s.dropInvalidRetx else s

end Tx

/-! ## Status PDUs of the peer -/

/-- Where a call of `handle_control_pdu` is: at the head of its loop, or among the NACKs, with those
still to be looked at in this round and whether one was found. -/
inductive ControlPhase
  | head
  | nacks (todo : List Nack) (nack : Bool)
deriving DecidableEq

/-- The local variables of a call of `handle_control_pdu`. -/
structure ControlRun where
  status : StatusPdu
  i : ℕ
  vtSLocal : ℕ
  updateVtA : Bool := true
  phase : ControlPhase := .head
deriving DecidableEq

namespace Tx

/-- The start of `handle_control_pdu`: a status PDU whose `ack_sn` is not in the window is dropped.
-/
def controlStart (s : Tx) (status : StatusPdu) : Tx × Option ControlRun :=
  if !s.txEnabled then (s, none)
  else if windowSize < (snMod + status.ackSn - s.vtA) % snMod ∨
      windowSize < (snMod + s.vtS - status.ackSn) % snMod then (s, none)
  else
    ({ s with
        pollRetxTimer :=
          if s.modBase s.pollSn < s.modBase status.ackSn then .stopped else s.pollRetxTimer
        retxQueue := if status.nacks.isEmpty then s.retxQueue else [] },
      some { status := status, i := s.vtA, vtSLocal := s.vtS })

/-- The entry for a NACK in the retransmission queue, for a PDU of `nBytes` bytes. -/
def retxOfNack (nBytes i : ℕ) (nack : Nack) : Retx :=
  if nack.hasSo then
    let soStart := if nBytes ≤ nack.soStart then 0 else nack.soStart
    let soEnd := if nack.soEnd = 0x7FFF then nBytes else nack.soEnd
    let retxSoEnd := if nack.soEnd = 0x7FFF then nBytes else nack.soEnd + 1
    if soStart < nBytes ∧ soEnd ≤ nBytes then
      { sn := i, isSegment := true, soStart := soStart, soEnd := retxSoEnd }
    else { sn := i, isSegment := false, soStart := 0, soEnd := retxSoEnd }
  else { sn := i, isSegment := false, soStart := 0, soEnd := nBytes }

/-- A NACK for the SN of the round, if the PDU is in the window and not yet scheduled. -/
def nackPdu (s : Tx) (i : ℕ) (nack : Nack) : Tx :=
  match s.txWindow.get? i with
  | none => s
  | some pdu =>
    if s.retxQueue.any fun retx => retx.sn = i then s
    else
      { s with
          txWindow := s.txWindow.modify i fun pdu => { pdu with retxCount := pdu.retxCount + 1 }
          retxQueue := pushRetx s.retxQueue (retxOfNack pdu.buf.length i nack) }

def maxSdusToNotify : ℕ := 4096

/-- A positive acknowledgement: PDCP is notified about complete SDUs, and the PDU leaves the window.
-/
def ackPdu (s : Tx) (i : ℕ) : Tx :=
  match s.txWindow.get? i with
  | none => s
  | some pdu =>
    let st := SegmentTracking.updateNotificationAckInfo maxSdusToNotify pdu.list
      (s.tracking, s.notifyInfoVec)
    Tx.removePdu { s with tracking := st.1, notifyInfoVec := st.2 } i

/-- Advance the lower edge of the window. -/
def advanceVtA (s : Tx) : Tx :=
  { s with
      vtA := (s.vtA + 1) % snMod
      vtMs := (s.vtMs + 1) % snMod }

/-- The condition of the loop of `handle_control_pdu`. -/
def controlGoesOn (s : Tx) (run : ControlRun) : Bool :=
  decide (s.modBase run.i < s.modBase run.status.ackSn) &&
    decide (s.modBase run.i < s.modBase run.vtSLocal)

/-- A critical section of the loop of `handle_control_pdu`, or its end. -/
def controlStep (s : Tx) (run : ControlRun) : Tx × Option ControlRun :=
  match run.phase with
  | .head =>
    if s.controlGoesOn run then (s, some { run with phase := .nacks run.status.nacks false })
    else ({ s with notifyInfoVec := [] }, none)
  | .nacks (nack :: todo) found =>
    if nack.nackSn = run.i then
      (s.nackPdu run.i nack, some { run with updateVtA := false, phase := .nacks todo true })
    else (s, some { run with phase := .nacks todo found })
  | .nacks [] true => (s, some { run with i := (run.i + 1) % snMod, phase := .head })
  | .nacks [] false =>
    let s := s.ackPdu run.i
    (if run.updateVtA then s.advanceVtA else s,
      some { run with i := (run.i + 1) % snMod, phase := .head })

end Tx

end MbmsTx.Rlc.Am
