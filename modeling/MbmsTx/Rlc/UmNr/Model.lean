import MbmsTx.Common.ByteBuffer
import MbmsTx.Rlc.UmNr.Header

/-!
# The UM transmitter and receiver of NR

`build_data_pdu` sends a whole SDU if it fits the grant and segments otherwise. The segmentation
info is chosen before the length of the header is known, with lengths from `configure`, and a new
SDU is taken from the queue before it is known whether anything of it can be sent. The receiver
collects the segments of a sequence number in the buffer of its first segment.
-/

namespace MbmsTx.Rlc.UmNr

open MbmsTx.Rlc.Am (sub32)

/-! ## Transmitter -/

/-- `rlc_um_nr_tx`. -/
structure Tx where
  snSize : SnSize
  txNext : ℕ := 0
  nextSo : ℕ := 0
  txSdu : Option (List UInt8) := none
  txSduQueue : List (List UInt8) := []

namespace Tx

def headLenFull : ℕ := 1

/-- `head_len_segment`, as `configure` computes it: the SN length is that of a header that was not
initialised. -/
def headLenSegment : ℕ := Header.packedLength { si := .firstSegment, so := 1 }

/-- The SDU of the next PDU and its segmentation info. A new SDU leaves the queue. -/
def selectSdu (s : Tx) (pduSpace : ℕ) : Option (Tx × List UInt8 × Si) :=
  match s.txSdu, s.txSduQueue with
  | none, [] => none
  | none, sdu :: queue =>
    some ({ s with txSdu := some sdu, txSduQueue := queue, nextSo := 0 }, sdu,
      if sdu.length ≤ sub32 pduSpace headLenFull then .fullSdu else .firstSegment)
  | some sdu, _ =>
    some (s, sdu,
      if sdu.length ≤ sub32 pduSpace headLenSegment then .lastSegment
      else .neitherFirstNorLastSegment)

/-- How many bytes of the SDU fit behind the header. -/
def toMove (pduSpace headLen : ℕ) (sdu : List UInt8) : ℕ :=
  if sdu.length ≤ pduSpace - headLen then sdu.length else pduSpace - headLen

/-- `build_data_pdu`: the bytes of the PDU, or nothing. -/
def buildDataPdu (s : Tx) (nofBytes : ℕ) : Tx × Option (List UInt8) :=
  if s.txSdu.isNone && s.txSduQueue.isEmpty then (s, none)
  else if nofBytes < 2 then (s, none)
  else
    let pduSpace := min nofBytes ByteBuffer.emptyTailroom
    match s.selectSdu pduSpace with
    | none => (s, none)
    | some (s, sdu, si) =>
      let header : Header :=
        { si := si, snSize := s.snSize, sn := s.txNext, so := s.nextSo % 2 ^ 16 }
      if pduSpace ≤ header.packedLength + 1 then (s, none)
      else
        let toMove := toMove pduSpace header.packedLength sdu
        ({ s with
            txSdu := if sdu.length - toMove = 0 then none else some (sdu.drop toMove)
            nextSo := if si = .lastSegment then 0 else s.nextSo + toMove
            txNext := if si = .lastSegment then (s.txNext + 1) % s.snSize.mod else s.txNext },
          some (header.write ++ sdu.take toMove))

/-- `write_sdu`, for an SDU that the queue has room for. -/
def writeSdu (s : Tx) (sdu : List UInt8) : Tx := { s with txSduQueue := s.txSduQueue ++ [sdu] }

/-- What is left to be sent. -/
def pending (s : Tx) : List (List UInt8) := s.txSdu.toList ++ s.txSduQueue

end Tx

/-! ## Receiver -/

/-- A buffer with `stripped` bytes of header removed. -/
structure Buf where
  stripped : ℕ
  bytes : List UInt8
deriving DecidableEq

/-- `get_tailroom`. -/
def Buf.tailroom (buf : Buf) : ℕ :=
  sub32 (sub32 ByteBuffer.emptyTailroom buf.stripped) buf.bytes.length

/-- `rlc_umd_pdu_nr_t`. -/
structure Pdu where
  header : Header
  buf : Buf
deriving DecidableEq

/-- `rlc_umd_pdu_segments_nr_t`. The map of segments is a list by offset. -/
structure PduSegments where
  segments : List (ℕ × Pdu) := []
  sdu : Option Buf := none
  nextExpectedSo : ℕ := 0
  totalSduLength : ℕ := 0
deriving DecidableEq

/-- `std::map::emplace` keeps an entry that is there. -/
def emplace {β : Type} (key : ℕ) (value : β) : List (ℕ × β) → List (ℕ × β)
  | [] => [(key, value)]
  | entry :: entries =>
    if key < entry.1 then (key, value) :: entry :: entries
    else if key = entry.1 then entry :: entries
    else entry :: emplace key value entries

/-- `operator[]` of a map, as the target of an assignment. -/
def assign {β : Type} (key : ℕ) (value : β) (entries : List (ℕ × β)) : List (ℕ × β) :=
  emplace key value (entries.filter (·.1 ≠ key))

/-- `rlc_um_nr_rx`, the SDUs handed to PDCP, and whether a log message has read the pointer
`rx_sdu`, which is null in NR. -/
structure Rx where
  snSize : SnSize
  rxNextReassembly : ℕ := 0
  rxTimerTrigger : ℕ := 0
  rxNextHighest : ℕ := 0
  rxWindow : List (ℕ × PduSegments) := []
  reassemblyTimer : Bool := false
  delivered : List (List UInt8) := []
  nullRead : Bool := false

namespace Rx

/-- `RX_MOD_NR_BASE`. -/
def rxModBase (s : Rx) (x : ℕ) : ℕ :=
  sub32 (sub32 x s.rxNextHighest) s.snSize.window % s.snSize.mod

def snInReassemblyWindow (s : Rx) (sn : ℕ) : Bool :=
  decide (s.rxModBase (sub32 s.rxNextHighest s.snSize.window) ≤ s.rxModBase sn) &&
    decide (s.rxModBase sn < s.rxModBase s.rxNextHighest)

def snInvalidForRxBuffer (s : Rx) (sn : ℕ) : Bool :=
  decide (s.rxModBase (sub32 s.rxNextHighest s.snSize.window) ≤ s.rxModBase sn) &&
    decide (s.rxModBase sn < s.rxModBase s.rxNextReassembly)

def hasMissingByteSegment (s : Rx) (sn : ℕ) : Bool := (s.rxWindow.lookup sn).isSome

/-- `rx_window.erase`. -/
def erase (s : Rx) (sn : ℕ) : Rx := { s with rxWindow := s.rxWindow.filter (·.1 ≠ sn) }

/-- How the loop over the segments ends: something is missing, the SDU does not fit its buffer, or
it is complete. -/
inductive Assembled
  | waits (pdu : PduSegments)
  | dropped
  | complete (sdu : List UInt8)

/-- The loop over the segments. `none` is a loop that does not end: a segment with offset zero is
found again while an empty one was taken for the start of the SDU. -/
def assemble : List (ℕ × Pdu) → List (ℕ × Pdu) → PduSegments → Option Assembled
  | [], kept, pdu => some (.waits { pdu with segments := kept })
  | (so, seg) :: segments, kept, pdu =>
    if seg.header.so = pdu.nextExpectedSo then
      match pdu.sdu with
      | none =>
        if pdu.nextExpectedSo = 0 then
          assemble segments kept
            { pdu with sdu := some seg.buf, nextExpectedSo := seg.buf.bytes.length }
        else none
      | some sdu =>
        if pdu.nextExpectedSo = 0 then none
        else if sdu.tailroom < seg.buf.bytes.length then some .dropped
        else
          let sdu : Buf := { sdu with bytes := sdu.bytes ++ seg.buf.bytes }
          let next := pdu.nextExpectedSo + seg.buf.bytes.length
          if next = pdu.totalSduLength then some (.complete sdu.bytes)
          else assemble segments kept { pdu with sdu := some sdu, nextExpectedSo := next }
    else assemble segments (kept ++ [(so, seg)]) pdu

/-- The loop that finds the next SDU to be reassembled. -/
def advanceNextReassembly : ℕ → Rx → Rx
  | 0, s => s
  | fuel + 1, s =>
    if s.rxModBase s.rxNextReassembly < s.rxModBase s.rxNextHighest then
      advanceNextReassembly fuel
        { s with rxNextReassembly := (s.rxNextReassembly + 1) % s.snSize.mod }
    else s

/-- A complete SDU is handed to PDCP. -/
def deliver (s : Rx) (sn : ℕ) (sdu : List UInt8) : Rx :=
  let s := { s with delivered := s.delivered ++ [sdu] }
  let s :=
    if sn = s.rxNextReassembly then
      advanceNextReassembly s.snSize.mod
        { s with rxNextReassembly := (s.rxNextReassembly + 1) % s.snSize.mod }
    else s
  s.erase sn

/-- The timer after the upper edge of the window has moved. -/
def updateTimer (s : Rx) (sn : ℕ) : Rx :=
  let s :=
    if s.reassemblyTimer &&
        (decide (s.rxTimerTrigger ≤ s.rxNextReassembly) ||
          (!s.snInReassemblyWindow s.rxTimerTrigger &&
            decide (s.rxTimerTrigger ≠ s.rxNextHighest)) ||
          (decide (s.rxNextHighest = s.rxNextReassembly + 1) && !s.hasMissingByteSegment sn)) then
      { s with reassemblyTimer := false }
    else s
  if !s.reassemblyTimer && s.hasMissingByteSegment sn &&
      decide (s.rxNextReassembly + 1 < s.rxNextHighest) then
    { s with reassemblyTimer := true, rxTimerTrigger := s.rxNextHighest }
  else s

/-- The window moves so that `sn` is its highest number. -/
def raiseWindow (s : Rx) (sn : ℕ) : Rx :=
  let s := { s with rxNextHighest := sn + 1 }
  let s := { s with rxWindow := s.rxWindow.filter fun entry => s.snInReassemblyWindow entry.1 }
  let s :=
    if s.snInReassemblyWindow s.rxNextReassembly then s
    else
      match s.rxWindow.find? fun entry =>
          decide (s.rxModBase (sub32 s.rxNextHighest s.snSize.window) ≤ entry.1) with
      | some entry => { s with rxNextReassembly := entry.1 }
      | none => s
  s.updateTimer sn

def handleRxBufferUpdate (s : Rx) (sn : ℕ) : Option Rx :=
  match s.rxWindow.lookup sn with
  | none => some s
  | some pdu =>
    (assemble pdu.segments [] pdu).map fun
      | .complete sdu => s.deliver sn sdu
      | .dropped => { s.erase sn with nullRead := true }
      | .waits pdu =>
        let s := { s with rxWindow := assign sn pdu s.rxWindow }
        if s.snInReassemblyWindow sn then s else s.raiseWindow sn

def updateTotalSduLength (segs : PduSegments) (pdu : Pdu) : PduSegments :=
  if pdu.header.si = .lastSegment then
    { segs with totalSduLength := pdu.header.so + pdu.buf.bytes.length }
  else segs

/-- `handle_data_pdu` after the header was read. -/
def handlePdu (s : Rx) (pdu : Pdu) : Option Rx :=
  if pdu.header.si = .fullSdu then some { s with delivered := s.delivered ++ [pdu.buf.bytes] }
  else if s.snInvalidForRxBuffer pdu.header.sn then some s
  else
    let segs := updateTotalSduLength ((s.rxWindow.lookup pdu.header.sn).getD {}) pdu
    let segs := { segs with segments := emplace pdu.header.so pdu segs.segments }
    handleRxBufferUpdate { s with rxWindow := assign pdu.header.sn segs s.rxWindow } pdu.header.sn

/-- `handle_data_pdu`; `none` if it does not return. -/
def handleDataPdu (s : Rx) (payload : List UInt8) : Option Rx :=
  match Header.read s.snSize payload with
  | none => some s
  | some header =>
    s.handlePdu
      { header := header
        buf := ⟨header.packedLength, payload.drop header.packedLength⟩ }

/-- `timer_expired` for the reassembly timer. -/
def timerExpired (s : Rx) : Rx :=
  let s := { s with rxNextReassembly := s.rxTimerTrigger, reassemblyTimer := false }
  let s := advanceNextReassembly s.snSize.mod s
  let s := { s with rxWindow := s.rxWindow.filter fun entry => s.rxNextReassembly ≤ entry.1 }
  if s.rxModBase (s.rxNextReassembly + 1) < s.rxModBase s.rxNextHighest ∨
      s.rxModBase s.rxNextHighest = s.rxModBase (s.rxNextReassembly + 1) ∧
        s.hasMissingByteSegment s.rxNextReassembly = true then
    { s with reassemblyTimer := true, rxTimerTrigger := s.rxNextHighest }
  else s

end Rx

end MbmsTx.Rlc.UmNr
