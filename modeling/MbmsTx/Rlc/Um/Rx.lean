import MbmsTx.Rlc.Am.Rx
import MbmsTx.Rlc.Um.Header

/-!
# The UM receiver

The receiver keeps PDUs in a reordering window. `reassemble_rx_sdus` gives up everything below the
window, with its own handling of segments, and then goes on as long as the next PDU is there. Both
loops add the segments of a PDU to the SDU that is being reassembled and hand complete SDUs to PDCP.
When the reordering timer expires, the missing PDUs are skipped.
-/

namespace MbmsTx.Rlc.Um

open MbmsTx.Rlc.Am (Fi sub32)
open MbmsTx.Rlc.Am (tailroom)

/-- `rlc_umd_pdu_t`, without its header bytes. -/
structure UmdPdu where
  header : UmdHeader
  buf : List UInt8
deriving DecidableEq

/-- `rlc_um_lte_rx`, and the SDUs handed to PDCP. The map `rx_window` is a list of its entries; a
missing SDU buffer is empty. -/
structure Rx where
  cfg : UmConfig
  rxWindow : List (ℕ × UmdPdu) := []
  vrUr : ℕ := 0
  vrUx : ℕ := 0
  vrUh : ℕ := 0
  vrUrInRxSdu : ℕ := 0
  pduLost : Bool := false
  rxSdu : List UInt8 := []
  reorderingTimer : Bool := false
  delivered : List (List UInt8) := []

namespace Rx

def rxModBase (s : Rx) (x : ℕ) : ℕ := sub32 (sub32 x s.vrUh) s.cfg.rxWindowSize % s.cfg.rxMod

/-- `rx_window.find`. -/
def find (s : Rx) (sn : ℕ) : Option UmdPdu := s.rxWindow.lookup sn

/-- `rx_window.erase`. -/
def erase (s : Rx) (sn : ℕ) : Rx := { s with rxWindow := s.rxWindow.filter (·.1 ≠ sn) }

def insideReorderingWindow (s : Rx) (sn : ℕ) : Bool :=
  if s.cfg.rxWindowSize = 0 ∨ s.rxWindow = [] then true
  else decide (s.rxModBase (sub32 s.vrUh s.cfg.rxWindowSize) ≤ s.rxModBase sn) &&
    decide (s.rxModBase sn < s.rxModBase s.vrUh)

def pduBelongsToRxSdu (s : Rx) : Bool :=
  decide ((s.vrUrInRxSdu + 1) % s.cfg.rxMod = s.vrUr) || decide (s.vrUr = s.vrUrInRxSdu)

/-- Hand the SDU to PDCP and start a new one. -/
def deliver (s : Rx) : Rx := { s with delivered := s.delivered ++ [s.rxSdu], rxSdu := [] }

/-- Append bytes to the SDU. -/
def copy (s : Rx) (bytes : List UInt8) : Rx := { s with rxSdu := s.rxSdu ++ bytes }

/-- `rx_sdu->clear`. -/
def clearSdu (s : Rx) : Rx := { s with rxSdu := [] }

/-! ## Below the reordering window -/

/-- The loop over the length indicators of a PDU below the window, from index `i` on: what is left
of the PDU. -/
def lowerEdgeLis (fi : Fi) : ℕ → List ℕ → List UInt8 → Rx → Rx × List UInt8
  | _, [], buf, s => (s, buf)
  | i, len :: lis, buf, s =>
    if s.rxSdu.length = 0 ∧ i = 0 ∧ fi.startAligned = false then (s.clearSdu, buf.drop len)
    else
      let s := s.copy (buf.take len)
      let s :=
        if (s.pduLost && !fi.startAligned) ||
            decide (s.vrUr ≠ (s.vrUrInRxSdu + 1) % s.cfg.rxMod) then s.clearSdu
        else s.deliver
      lowerEdgeLis fi (i + 1) lis (buf.drop len) { s with pduLost := false }

/-- The last segment of a PDU below the window. -/
def lowerEdgeLast (fi : Fi) (buf : List UInt8) (s : Rx) : Rx :=
  if 0 < s.rxSdu.length ∨ fi.startAligned = true then
    let s := { s.copy buf with vrUrInRxSdu := s.vrUr }
    if fi.endAligned then
      { (if s.pduLost && !fi.startAligned then s.clearSdu else s.deliver) with pduLost := false }
    else s
  else s

/-- One round of catching up with the lower edge. -/
def lowerEdgeRound (s : Rx) : Rx :=
  let s :=
    match s.find s.vrUr with
    | none => s.clearSdu
    | some pdu =>
      let (s, buf) := lowerEdgeLis pdu.header.fi 0 pdu.header.li pdu.buf s
      (lowerEdgeLast pdu.header.fi buf s).erase s.vrUr
  { s with vrUr := (s.vrUr + 1) % s.cfg.rxMod }

/-- The loop that catches up with the lower edge. -/
def lowerEdgeLoop : ℕ → Rx → Rx
  | 0, s => s
  | fuel + 1, s =>
    if s.insideReorderingWindow s.vrUr then s else lowerEdgeLoop fuel s.lowerEdgeRound

/-! ## In sequence -/

/-- The loop over the length indicators of the next PDU in sequence. `none` is the jump to
`clean_up_rx_window`. -/
def updateLis (fi : Fi) : ℕ → List ℕ → List UInt8 → Rx → Rx × Option (List UInt8)
  | _, [], buf, s => (s, some buf)
  | i, len :: lis, buf, s =>
    if s.rxSdu.length = 0 ∧ i = 0 ∧ fi.startAligned = false then
      if buf.length < len then (s, none)
      else updateLis fi (i + 1) lis (buf.drop len) { s.clearSdu with pduLost := false }
    else if tailroom s.rxSdu.length < len then (s.clearSdu, none)
    else
      let s := if s.pduBelongsToRxSdu then s else { s with vrUrInRxSdu := s.vrUr }
      let s := { s.copy (buf.take len) with vrUrInRxSdu := s.vrUr }
      let buf := buf.drop len
      if s.pduBelongsToRxSdu then
        updateLis fi (i + 1) lis buf { s.deliver with pduLost := false }
      else updateLis fi (i + 1) lis (buf.drop len) { s with pduLost := false }

/-- The last segment of the next PDU in sequence. -/
def updateLast (header : UmdHeader) (buf : List UInt8) (s : Rx) : Rx :=
  if s.rxSdu.length = 0 ∧ header.li.length = 0 ∧ header.fi.startAligned = false then s.clearSdu
  else
    let s :=
      if s.rxSdu.length < maxBufferSizeBytes ∧ buf.length < maxBufferSizeBytes ∧
          buf.length + s.rxSdu.length < maxBufferSizeBytes then s.copy buf
      else s
    let s := { s with vrUrInRxSdu := s.vrUr }
    if header.fi.endAligned then
      { (if s.pduLost && !header.fi.startAligned then s.clearSdu else s.deliver) with
          pduLost := false }
    else s

/-- One round of the loop that takes the PDUs in sequence. -/
def updateRound (pdu : UmdPdu) (s : Rx) : Rx :=
  let s := if s.pduBelongsToRxSdu then s else { s.clearSdu with pduLost := false }
  let s :=
    match updateLis pdu.header.fi 0 pdu.header.li pdu.buf s with
    | (s, some buf) => updateLast pdu.header buf s
    | (s, none) => s
  { s.erase s.vrUr with vrUr := (s.vrUr + 1) % s.cfg.rxMod }

/-- The loop that takes the PDUs in sequence. -/
def updateLoop : ℕ → Rx → Rx
  | 0, s => s
  | fuel + 1, s =>
    match s.find s.vrUr with
    | none => s
    | some pdu => updateLoop fuel (s.updateRound pdu)

/-- `reassemble_rx_sdus`. The lower edge is at most all SNs away, and the second loop removes a PDU
in every round. -/
def reassembleRxSdus (s : Rx) : Rx :=
  let s := s.lowerEdgeLoop s.cfg.rxMod
  s.updateLoop s.rxWindow.length

/-! ## Events -/

/-- The reordering timer at the end of `handle_data_pdu`. -/
def updateTimer (s : Rx) : Rx :=
  let s :=
    if s.reorderingTimer && (decide (s.rxModBase s.vrUx ≤ s.rxModBase s.vrUr) ||
        (!s.insideReorderingWindow s.vrUx && decide (s.vrUx ≠ s.vrUh))) then
      { s with reorderingTimer := false }
    else s
  if !s.reorderingTimer && decide (s.rxModBase s.vrUr < s.rxModBase s.vrUh) then
    { s with reorderingTimer := true, vrUx := s.vrUh }
  else s

/-- `handle_data_pdu` after the header was read. -/
def handlePdu (s : Rx) (pdu : UmdPdu) : Rx :=
  let sn := pdu.header.sn
  if s.rxModBase (sub32 s.vrUh s.cfg.rxWindowSize) ≤ s.rxModBase sn ∧
      s.rxModBase sn < s.rxModBase s.vrUr then s
  else if (s.find sn).isSome then s
  else
    let s := { s with rxWindow := (sn, pdu) :: s.rxWindow }
    let s := if s.insideReorderingWindow sn then s else { s with vrUh := (sn + 1) % s.cfg.rxMod }
    s.reassembleRxSdus.updateTimer

def handleDataPdu (s : Rx) (payload : List UInt8) : Rx :=
  match readDataPduHeader s.cfg.rxSnFieldLength payload with
  | none => s
  | some header => s.handlePdu ⟨header, payload.drop header.packedLength⟩

/-- The loop of `timer_expired`. -/
def expiryLoop : ℕ → Rx → Rx
  | 0, s => s
  | fuel + 1, s =>
    if s.rxModBase s.vrUr < s.rxModBase s.vrUx then
      expiryLoop fuel (reassembleRxSdus { s with vrUr := (s.vrUr + 1) % s.cfg.rxMod })
    else s

/-- `timer_expired` for the reordering timer. -/
def timerExpired (s : Rx) : Rx :=
  let s := { s.clearSdu with pduLost := true, reorderingTimer := false }
  let s := s.expiryLoop s.cfg.rxMod
  if s.rxModBase s.vrUr < s.rxModBase s.vrUh then
    { s with reorderingTimer := true, vrUx := s.vrUh }
  else s

end Rx

end MbmsTx.Rlc.Um
