import Mathlib.Data.List.Sort
import MbmsTx.Common.ByteBuffer
import MbmsTx.Pdcp.Base
import MbmsTx.Pdcp.Undelivered

/-!
# The LTE PDCP entity

`write_sdu` takes an SDU from the upper layers, `write_pdu` a PDU from the RLC. Signalling bearers,
data bearers over RLC UM and those over RLC AM find the COUNT of a PDU each in their own way, from
its sequence number and the state of the receiver.

The PDU of `write_sdu` has no header: the call that writes it is commented out. The bytes of a
header are left out of the ciphering all the same, and the receiver takes them off.
-/

namespace MbmsTx.Pdcp

/-- The configuration of a bearer; `rbIsUm` is asked of the RLC. -/
structure Config where
  snLen : SnLen
  rbType : RbType
  rbIsUm : Bool
  statusReportRequired : Bool
  deriving DecidableEq

namespace Config

def checkValidConfig (cfg : Config) : Bool :=
  if cfg.snLen ≠ .len5 ∧ cfg.snLen ≠ .len7 ∧ cfg.snLen ≠ .len12 ∧ cfg.snLen ≠ .len18 then false
  else if cfg.snLen = .len5 ∧ cfg.rbType = .drb then false
  else if cfg.snLen = .len7 ∧ (cfg.rbType = .srb ∨ cfg.rbIsUm = false) then false
  else if cfg.snLen = .len12 ∧ cfg.rbType = .srb then false
  else true

def maximumPdcpSn (cfg : Config) : ℕ := 2 ^ cfg.snLen.bits - 1

def reorderingWindow (cfg : Config) : ℕ :=
  match cfg.rbType with
  | .srb => 0
  | .drb => 2048

def maximumAllocatedSnsWindow (cfg : Config) : ℕ := 2 ^ cfg.snLen.bits / 2

/-- A data bearer over RLC AM. -/
def isAmDrb (cfg : Config) : Bool := cfg.rbType = .drb && !cfg.rbIsUm

end Config

/-- `pdcp_lte_state_t`. -/
structure LteState where
  nextPdcpTxSn : ℕ
  txHfn : ℕ
  rxHfn : ℕ
  nextPdcpRxSn : ℕ
  lastSubmittedPdcpRxSn : ℕ
  deriving DecidableEq

/-- `pdcp_entity_lte`. The COUNTs of `rx_counts_info` are listed from the smallest, the back, on. -/
structure LteEntity where
  st : LteState
  active : Bool
  integrityDirection : Direction
  encryptionDirection : Direction
  enableSecurityTxSn : Option ℕ
  enableSecurityRxSn : Option ℕ
  undeliveredSdus : UndeliveredSdus (List UInt8)
  fmc : ℕ
  largestRxCount : ℕ
  rxCountsInfo : List ℕ

/-- An entity that was just configured. -/
def LteEntity.init (cfg : Config) : LteEntity :=
  { st :=
      { nextPdcpTxSn := 0
        txHfn := 0
        rxHfn := 0
        nextPdcpRxSn := 0
        lastSubmittedPdcpRxSn := cfg.maximumPdcpSn }
    active := true
    integrityDirection := .none
    encryptionDirection := .none
    enableSecurityTxSn := none
    enableSecurityRxSn := none
    undeliveredSdus := .init
    fmc := 0
    largestRxCount := 0
    rxCountsInfo := [] }

/-! ## Transmitting -/

/-- `st.next_pdcp_tx_sn` and `st.tx_hfn` after an SDU. -/
def LteState.advanceTx (cfg : Config) (st : LteState) : LteState :=
  if cfg.maximumPdcpSn < st.nextPdcpTxSn + 1 then
    { st with
        nextPdcpTxSn := 0
        txHfn := st.txHfn + 1 }
  else { st with nextPdcpTxSn := st.nextPdcpTxSn + 1 }

namespace LteEntity

/-- A pending security configuration in transmit direction. -/
def checkSecurityTx (e : LteEntity) (txCount : ℕ) : LteEntity :=
  if e.enableSecurityTxSn = some txCount then
    { e with
        integrityDirection := e.integrityDirection.enable .tx
        encryptionDirection := e.encryptionDirection.enable .tx
        enableSecurityTxSn := none }
  else e

/-- The PDU of an SDU with a given COUNT. No header is written. -/
def buildPdu (e : LteEntity) (cfg : Config) (sec : Security) (sdu : ByteBuffer) (txCount : ℕ) :
    List UInt8 :=
  let mac :=
    if e.integrityDirection.hasTx && cfg.rbType = .srb then
      sec.integrityGenerate txCount sdu.contents
    else List.replicate 4 0
  let msg := if cfg.rbType = .srb then appendMac sdu.tailroom sdu.contents mac else sdu.contents
  if e.encryptionDirection.hasTx then
    msg.take cfg.snLen.hdrLenBytes ++ sec.cipher txCount (msg.drop cfg.snLen.hdrLenBytes)
  else msg

/-- `write_sdu` of an active entity, when the RLC is not suspended and its queue not full; `upperSn`
is a sequence number of the upper layers. The PDU goes to the RLC. -/
def writeSdu (e : LteEntity) (cfg : Config) (sec : Security) (sdu : ByteBuffer)
    (upperSn : Option ℕ) : LteEntity × Option (List UInt8) :=
  let usedSn := upperSn.getD e.st.nextPdcpTxSn
  let txCount := count cfg.snLen e.st.txHfn usedSn
  let stored :=
    if cfg.isAmDrb then
      e.undeliveredSdus.storeSdu cfg.maximumAllocatedSnsWindow usedSn sdu.contents
    else some e.undeliveredSdus
  match stored with
  | none => (e, none)
  | some queue =>
    let e := { e with undeliveredSdus := queue }.checkSecurityTx txCount
    let pdu := e.buildPdu cfg sec sdu txCount
    let st := if upperSn = none then e.st.advanceTx cfg else e.st
    ({ e with st := st }, some pdu)

/-! ## Receiving -/

/-- A pending security configuration in receive direction. -/
def checkSecurityRx (e : LteEntity) (sn : ℕ) : LteEntity :=
  if e.enableSecurityRxSn = some sn then
    { e with
        integrityDirection := e.integrityDirection.enable .rx
        encryptionDirection := e.encryptionDirection.enable .rx
        enableSecurityRxSn := none }
  else e

end LteEntity

/-- `st.next_pdcp_rx_sn` and `st.rx_hfn` after `sn` in the current HFN. -/
def LteState.advanceRx (cfg : Config) (st : LteState) (sn : ℕ) : LteState :=
  if cfg.maximumPdcpSn < sn + 1 then
    { st with
        nextPdcpRxSn := 0
        rxHfn := st.rxHfn + 1 }
  else { st with nextPdcpRxSn := sn + 1 }

/-- The HFN is incremented if the sequence number has wrapped around. -/
def LteState.wrapRx (st : LteState) (sn : ℕ) : LteState :=
  if sn < st.nextPdcpRxSn then { st with rxHfn := st.rxHfn + 1 } else st

/-- The HFN before, which wraps at 32 bits. -/
def hfnBefore (hfn : ℕ) : ℕ := if hfn = 0 then 2 ^ 32 - 1 else hfn - 1

/-- How `handle_am_drb_pdu` finds the COUNT of a sequence number: the new state and the COUNT, or
`none` if the PDU is discarded. -/
def LteState.amRxCount (cfg : Config) (st : LteState) (sn : ℕ) : Option (LteState × ℕ) :=
  let lastSubmitDiffSn : ℤ := (st.lastSubmittedPdcpRxSn : ℤ) - sn
  let snDiffLastSubmit : ℤ := (sn : ℤ) - st.lastSubmittedPdcpRxSn
  let snDiffNextPdcpRxSn : ℤ := (sn : ℤ) - st.nextPdcpRxSn
  let window : ℤ := cfg.reorderingWindow
  if (0 ≤ snDiffLastSubmit ∧ window < snDiffLastSubmit) ∨
      (0 ≤ lastSubmitDiffSn ∧ lastSubmitDiffSn < window) then none
  else if window < (st.nextPdcpRxSn : ℤ) - sn then
    some
      ({ st with
          rxHfn := st.rxHfn + 1
          nextPdcpRxSn := sn + 1 }, count cfg.snLen (st.rxHfn + 1) sn)
  else if window ≤ snDiffNextPdcpRxSn then some (st, count cfg.snLen (hfnBefore st.rxHfn) sn)
  else if st.nextPdcpRxSn ≤ sn then some (st.advanceRx cfg sn, count cfg.snLen st.rxHfn sn)
  else some (st, count cfg.snLen st.rxHfn sn)

/-- The loop that takes consecutive COUNTs. -/
def popConsecutive : (fmc : ℕ) → List ℕ → ℕ × List ℕ
  | fmc, [] => (fmc, [])
  | fmc, rxCount :: info =>
    if rxCount = fmc then popConsecutive ((fmc + 1) % 2 ^ 32) info else (fmc, rxCount :: info)

namespace LteEntity

def updateRxCountsQueue (e : LteEntity) (cfg : Config) (rxCount : ℕ) : LteEntity :=
  if rxCount < e.fmc then e
  else
    let largest := if e.largestRxCount < rxCount then rxCount else e.largestRxCount
    let (fmc, info) :=
      if rxCount = e.fmc then popConsecutive ((e.fmc + 1) % 2 ^ 32) e.rxCountsInfo
      else (e.fmc, e.rxCountsInfo.orderedInsert (· ≤ ·) rxCount)
    let (fmc, info) :=
      if cfg.reorderingWindow < info.length then popConsecutive (info.headD 0) info else (fmc, info)
    { e with
        largestRxCount := largest
        fmc := fmc
        rxCountsInfo := info }

/-- `handle_srb_pdu`, where `stack` is what the stack holds in the place of the code: the entity and
the SDU for the upper layers. If less than a header is left, taking it off wraps the length around,
and there is no SDU of that length. -/
def handleSrbPdu (e : LteEntity) (cfg : Config) (sec : Security) (stack pdu : List UInt8) :
    LteEntity × Option (List UInt8) :=
  let sn := readDataHeader cfg.snLen pdu
  let count := count cfg.snLen (e.st.wrapRx sn).rxHfn sn
  let pdu :=
    if e.encryptionDirection.hasRx then
      pdu.take cfg.snLen.hdrLenBytes ++ sec.cipher count (pdu.drop cfg.snLen.hdrLenBytes)
    else pdu
  let (pdu, mac) := extractMac stack pdu
  if e.integrityDirection.hasRx && !sec.integrityVerify count pdu mac then (e, none)
  else
    ({ e with st := (e.st.wrapRx sn).advanceRx cfg sn },
      if pdu.length < cfg.snLen.hdrLenBytes then none
      else some (discardDataHeader cfg.snLen pdu))

def handleUmDrbPdu (e : LteEntity) (cfg : Config) (sec : Security) (pdu : List UInt8) :
    LteEntity × Option (List UInt8) :=
  let sn := readDataHeader cfg.snLen pdu
  let pdu := discardDataHeader cfg.snLen pdu
  let st := e.st.wrapRx sn
  let pdu :=
    if e.encryptionDirection.hasRx then sec.cipher (count cfg.snLen st.rxHfn sn) pdu else pdu
  ({ e with st := st.advanceRx cfg sn }, some pdu)

/-- `handle_am_drb_pdu`, which always deciphers. -/
def handleAmDrbPdu (e : LteEntity) (cfg : Config) (sec : Security) (pdu : List UInt8) :
    LteEntity × Option (List UInt8) :=
  let sn := readDataHeader cfg.snLen pdu
  let pdu := discardDataHeader cfg.snLen pdu
  match e.st.amRxCount cfg sn with
  | none => (e, none)
  | some (st, count) =>
    let e := { e with st := { st with lastSubmittedPdcpRxSn := sn } }
    (e.updateRxCountsQueue cfg count, some (sec.cipher count pdu))

/-! ## Status reports -/

/-- The header of a status report: type 0, and the first missing sequence number. -/
def statusReportHeader (len : SnLen) (fms : ℕ) : Option (List UInt8) :=
  match len with
  | .len12 => some [UInt8.ofNat (0x0F &&& (fms >>> 8)), UInt8.ofNat (0xFF &&& fms)]
  | .len18 =>
    some [UInt8.ofNat (0x03 &&& (fms >>> 16)), UInt8.ofNat (0xFF &&& (fms >>> 8)),
      UInt8.ofNat (0xFF &&& fms)]
  | .len5 | .len7 | .len15 => none

/-- Set the bit at an offset, the most significant first. -/
def setBitmap (bitmap : List UInt8) (offset : ℕ) : List UInt8 :=
  bitmap.modify (offset / 8) fun byte => byte ||| UInt8.ofNat (1 <<< (7 - offset % 8))

/-- `send_status_report`: the report, if any. There is none either where the code writes outside of
the buffer, behind its end or, for a COUNT that is not above the first missing one, at an offset
that wraps around. -/
def sendStatusReport (e : LteEntity) (cfg : Config) : Option (List UInt8) :=
  if !cfg.isAmDrb || !cfg.statusReportRequired then none
  else
    (statusReportHeader cfg.snLen (sn cfg.snLen e.fmc)).bind fun header =>
      if e.rxCountsInfo = [] then some header
      else
        let diff : ℤ := (e.largestRxCount : ℤ) - ((e.fmc : ℤ) - 1)
        if diff < 0 ∨ 2 ^ 31 ≤ diff then none
        else
          let bitmapSz := (diff.toNat + 7) / 8
          if (∃ rxCount ∈ e.rxCountsInfo, rxCount ≤ e.fmc) ∨
              ByteBuffer.emptyTailroom < header.length + bitmapSz then none
          else
            some (header ++ e.rxCountsInfo.foldl
              (fun bitmap rxCount => setBitmap bitmap (rxCount - (e.fmc + 1)))
              (List.replicate bitmapSz 0))

/-- The first missing sequence number, and the offset of the bitmap. -/
def readStatusReportHeader (len : SnLen) (pdu : List UInt8) : Option (ℕ × ℕ) :=
  let byte := fun i => (pdu.getD i 0).toNat
  match len with
  | .len12 => some ((byte 0 <<< 8 ||| byte 1) &&& 0x0FFF, 2)
  | .len18 => some ((byte 0 <<< 16 ||| byte 1 <<< 8 ||| byte 2) &&& 0x3FFF, 3)
  | .len5 | .len7 | .len15 => none

/-- The sequence numbers that a byte of the bitmap acknowledges. The bit for `j = 0` is not in the
byte, and never set. -/
def ackedSns (fms i : ℕ) (byte : UInt8) : List ℕ :=
  (List.range 8).filterMap fun j =>
    if byte.toNat.testBit (8 - j) then some (fms + i * 8 + j) else none

def handleStatusReportPdu {α : Type*} (cfg : Config) (queue : UndeliveredSdus α)
    (pdu : List UInt8) : UndeliveredSdus α :=
  if !cfg.isAmDrb then queue
  else
    match readStatusReportHeader cfg.snLen pdu with
    | none => queue
    | some (fms, bitmapOffset) =>
      let queue := (List.range fms).foldl UndeliveredSdus.clearSdu queue
      (((pdu.drop bitmapOffset).mapIdx (ackedSns fms)).flatten).foldl UndeliveredSdus.clearSdu queue

/-- `handle_control_pdu`, for status reports, type 0, only. -/
def handleControlPdu (e : LteEntity) (cfg : Config) (pdu : List UInt8) : LteEntity :=
  if (pdu.getD 0 0 >>> 4) &&& 0x03 = 0 then
    { e with undeliveredSdus := handleStatusReportPdu cfg e.undeliveredSdus pdu }
  else e

/-- `write_pdu`: the entity and the SDU for the upper layers. -/
def writePdu (e : LteEntity) (cfg : Config) (sec : Security) (stack pdu : List UInt8) :
    LteEntity × Option (List UInt8) :=
  if !e.active then (e, none)
  else if cfg.rbType = .drb && isControlPdu pdu then (e.handleControlPdu cfg pdu, none)
  else if pdu.length ≤ cfg.snLen.hdrLenBytes then (e, none)
  else
    let e := e.checkSecurityRx (readDataHeader cfg.snLen pdu)
    match cfg.rbType with
    | .srb => e.handleSrbPdu cfg sec stack pdu
    | .drb => if cfg.rbIsUm then e.handleUmDrbPdu cfg sec pdu else e.handleAmDrbPdu cfg sec pdu

end LteEntity

end MbmsTx.Pdcp
