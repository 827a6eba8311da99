import Mathlib.Algebra.Order.Group.Nat
import MbmsTx.Common.ByteBuffer

/-!
# GTP-U input from the multicast backhaul

Datagrams from the M1-U multicast socket carry the data of the transmitter behind a GTP-U header.
`gtpuReadHeader` strips the header from the buffer; `M1uHandler.handleRxPacket` passes what remains
to PDCP.

The parser looks neither at the received length nor at the length of an extension header, and the
handler ignores whether the parser accepted the header. So the payload reaches PDCP as it should
exactly for the datagrams with a complete header of a supported kind (`GtpuWellFormed`); for all
others something else is passed on.
-/

namespace MbmsTx.Upper

open ByteBuffer

/-! ## The header -/

/-- `gtpu_header_t`. -/
structure GtpuHeader where
  flags : UInt8 := 0
  messageType : UInt8 := 0
  length : ℕ := 0
  teid : ℕ := 0
  seqNumber : ℕ := 0
  nPdu : UInt8 := 0
  nextExtHdrType : UInt8 := 0
  extBuffer : List UInt8 := []
  deriving DecidableEq

def gtpuBaseHeaderLen : ℕ := 8

def gtpuExtendedHeaderLen : ℕ := 12

def gtpuExtHeaderPdcpPduNumber : UInt8 := 0xC0

def headerPdcpPduNumberSize : ℕ := 4

def gtpuExtHeaderPduSessionContainer : UInt8 := 0x85

def gtpuExtHeaderPduSessionContainerLen : ℕ := 4

/-- `gtpu_supported_flags_check`: version 1, the GTP protocol, no packet number. -/
def gtpuSupportedFlagsCheck (flags : UInt8) : Bool :=
  flags &&& 0xE0 = 0x20 && flags &&& 0x10 ≠ 0 && flags &&& 0x01 = 0

/-- `gtpu_supported_msg_type_check`: data PDU, echo, error indication and end marker. -/
def gtpuSupportedMsgTypeCheck (messageType : UInt8) : Bool :=
  messageType = 255 || messageType = 1 || messageType = 2 || messageType = 26 || messageType = 254

/-- `GTPU_FLAGS_EXTENDED_HDR`, `GTPU_FLAGS_SEQUENCE` or `GTPU_FLAGS_PACKET_NUM` is set. -/
def hasOptionalFields (flags : UInt8) : Bool := flags &&& 0x07 ≠ 0

/-- An extension header follows the optional fields. -/
def hasExtHeader (flags nextExtHdrType : UInt8) : Bool :=
  flags &&& 0x04 ≠ 0 && nextExtHdrType ≠ 0

/-- `uint8_to_uint16` at offset `i` of the message. -/
def readUint16 (pdu : ByteBuffer) (i : ℕ) : ℕ :=
  (pdu.byte i).toNat <<< 8 ||| (pdu.byte (i + 1)).toNat

/-- `uint8_to_uint32` at offset `i` of the message. -/
def readUint32 (pdu : ByteBuffer) (i : ℕ) : ℕ :=
  (pdu.byte i).toNat <<< 24 ||| (pdu.byte (i + 1)).toNat <<< 16 |||
    (pdu.byte (i + 2)).toNat <<< 8 ||| (pdu.byte (i + 3)).toNat

/-- The result of parsing, the header, the buffer as the parser leaves it, and the number of bytes
read from the start of the message (the final `ptr`). -/
structure GtpuReadResult where
  accepted : Bool
  header : GtpuHeader
  pdu : ByteBuffer
  ptr : ℕ

/-- `gtpu_read_ext_header`; `ptr` counts from the start of the message `original`. -/
def gtpuReadExtHeader (original pdu : ByteBuffer) (ptr : ℕ) (header : GtpuHeader) :
    GtpuReadResult :=
  if ¬ hasExtHeader header.flags header.nextExtHdrType then
    { accepted := true, header := header, pdu := pdu, ptr := ptr }
  else if header.nextExtHdrType = gtpuExtHeaderPdcpPduNumber then
    { accepted := true
      header :=
        { header with
            extBuffer := (List.range headerPdcpPduNumberSize).map fun i => original.byte (ptr + i) }
      pdu := pdu.skip headerPdcpPduNumberSize
      ptr := ptr + headerPdcpPduNumberSize }
  else if header.nextExtHdrType = gtpuExtHeaderPduSessionContainer then
    -- skipped without being read
    { accepted := true
      header := header
      pdu := pdu.skip gtpuExtHeaderPduSessionContainerLen
      ptr := ptr }
  else { accepted := false, header := header, pdu := pdu, ptr := ptr }

def gtpuReadHeader (pdu : ByteBuffer) : GtpuReadResult :=
  let header : GtpuHeader :=
    { flags := pdu.byte 0
      messageType := pdu.byte 1
      length := readUint16 pdu 2
      teid := readUint32 pdu 4 }
  if ¬ gtpuSupportedFlagsCheck header.flags then
    { accepted := false, header := header, pdu := pdu, ptr := 8 }
  else if ¬ gtpuSupportedMsgTypeCheck header.messageType then
    { accepted := false, header := header, pdu := pdu, ptr := 8 }
  else if hasOptionalFields header.flags then
    gtpuReadExtHeader pdu (pdu.skip gtpuExtendedHeaderLen) 12
      { header with
          seqNumber := readUint16 pdu 8
          nPdu := pdu.byte 10
          nextExtHdrType := pdu.byte 11 }
  else
    { accepted := true, header := header, pdu := pdu.skip gtpuBaseHeaderLen, ptr := 8 }

/-! ## The handler -/

/-- A call of `pdcp->write_sdu`. -/
structure PdcpWriteSdu where
  rnti : ℕ
  lcid : ℕ
  sdu : ByteBuffer

/-- `SRSRAN_MRNTI`. -/
def mrnti : ℕ := 0xFFFD

/-- `m1u_handler`; `init` sets the counter to 1. -/
structure M1uHandler where
  bearerCounter : ℕ := 1
  deriving DecidableEq

/-- `m1u_handler::handle_rx_packet`: the calls it makes to PDCP. -/
def M1uHandler.handleRxPacket (m1u : M1uHandler) (pdu : ByteBuffer) : List PdcpWriteSdu :=
  -- the result of the parser is ignored
  let result := gtpuReadHeader pdu
  [{ rnti := mrnti, lcid := m1u.bearerCounter, sdu := result.pdu }]

/-! ## What the handler is for -/

/-- What follows the extension headers: the first octet of each is its length in units of four
bytes, the last one the type of the next. -/
def dropExtHeaders (next : UInt8) (rest : List UInt8) : Option (List UInt8) :=
  if next = 0 then some rest
  else
    let len := 4 * (rest.getD 0 0).toNat
    if 0 < len ∧ len ≤ rest.length then dropExtHeaders (rest.getD (len - 1) 0) (rest.drop len)
    else none
termination_by rest.length
decreasing_by
  rw [List.length_drop]
  omega

/-- The datagram without its base header, optional fields and extension headers; nothing if they are
not complete. -/
def gtpuPayload (received : List UInt8) : Option (List UInt8) :=
  if hasOptionalFields (received.getD 0 0) then
    if received.length < 12 then none
    else if hasExtHeader (received.getD 0 0) (received.getD 11 0) then
      dropExtHeaders (received.getD 11 0) (received.drop 12)
    else some (received.drop 12)
  else if received.length < 8 then none
  else some (received.drop 8)

/-- The handler did right by the datagram `received`: the header fields come from received bytes,
PDCP gets exactly the payload of an accepted datagram, and nothing of a rejected one. -/
structure DeliversPayload (received : List UInt8) (result : GtpuReadResult)
    (calls : List PdcpWriteSdu) : Prop where
  fields_inside : result.ptr ≤ received.length
  payload : ∀ call ∈ calls, result.accepted = true ∧
    gtpuPayload received = some call.sdu.contents ∧ call.sdu.nBytes ≤ received.length
  rejected : result.accepted = false → calls = []

/-- The number of bytes that the parser takes for the header. -/
def gtpuHeaderLen (flags nextExtHdrType : UInt8) : ℕ :=
  if hasOptionalFields flags then
    if hasExtHeader flags nextExtHdrType then 16 else 12
  else 8

/-- A datagram with a complete GTP-U header of a supported kind. An extension header is the only
one, and has four bytes. -/
structure GtpuWellFormed (received : List UInt8) : Prop where
  flags : gtpuSupportedFlagsCheck (received.getD 0 0) = true
  messageType : gtpuSupportedMsgTypeCheck (received.getD 1 0) = true
  extHeader : hasExtHeader (received.getD 0 0) (received.getD 11 0) = true →
    (received.getD 11 0 = gtpuExtHeaderPdcpPduNumber ∨
      received.getD 11 0 = gtpuExtHeaderPduSessionContainer) ∧
    received.getD 12 0 = 1 ∧ received.getD 15 0 = 0
  complete : gtpuHeaderLen (received.getD 0 0) (received.getD 11 0) ≤ received.length

/-! ## The extension headers -/

theorem hasOptionalFields_of_hasExtHeader {flags next : UInt8}
    (hext : hasExtHeader flags next) : hasOptionalFields flags := by
  simp only [hasExtHeader, Bool.and_eq_true, decide_eq_true_eq] at hext
  simp only [hasOptionalFields, decide_eq_true_eq]
  intro hzero
  have hand : flags &&& 0x04 = (flags &&& 0x07) &&& 0x04 := by rw [UInt8.and_assoc]; rfl
  rw [hzero] at hand
  exact hext.1 (by rw [hand]; rfl)

theorem length_le_of_dropExtHeaders {next : UInt8} {rest payload : List UInt8}
    (h : dropExtHeaders next rest = some payload) :
    payload.length ≤ rest.length ∧ (next ≠ 0 → payload.length + 4 ≤ rest.length) := by
  fun_induction dropExtHeaders next rest with
  | case1 rest =>
    cases h
    simp
  | case2 next rest hnext len hlen ih =>
    have hle := (ih h).1
    rw [List.length_drop] at hle
    omega
  | case3 => cases h

/-- An extension header of four bytes, and no other. -/
theorem dropExtHeaders_eq_drop_iff {next : UInt8} {rest : List UInt8} (hnext : next ≠ 0)
    (hlen : 4 ≤ rest.length) :
    dropExtHeaders next rest = some (rest.drop 4) ↔
      rest.getD 0 0 = 1 ∧ rest.getD 3 0 = 0 := by
  rw [dropExtHeaders, if_neg hnext]
  constructor
  · intro h
    dsimp only at h
    split at h
    · next hin =>
      obtain ⟨hle, hmore⟩ := length_le_of_dropExtHeaders h
      rw [List.length_drop, List.length_drop] at hle hmore
      have hone : (rest.getD 0 0).toNat = 1 := by omega
      rw [hone] at hmore
      refine ⟨UInt8.toNat_inj.mp hone, not_not.mp fun hzero => ?_⟩
      have hcontra := hmore hzero
      omega
    · cases h
  · rintro ⟨hone, hzero⟩
    have hdone : dropExtHeaders 0 (rest.drop 4) = some (rest.drop 4) := by
      rw [dropExtHeaders, if_pos rfl]
    simp only [hone]
    rw [if_pos ⟨by decide, hlen⟩]
    change dropExtHeaders (rest.getD 3 0) (rest.drop 4) = _
    rw [hzero, hdone]

/-- The parser drops the right number of bytes. -/
theorem gtpuPayload_eq_drop_iff {received : List UInt8}
    (hle : gtpuHeaderLen (received.getD 0 0) (received.getD 11 0) ≤ received.length) :
    gtpuPayload received =
        some (received.drop (gtpuHeaderLen (received.getD 0 0) (received.getD 11 0))) ↔
      (hasExtHeader (received.getD 0 0) (received.getD 11 0) = true →
        received.getD 12 0 = 1 ∧ received.getD 15 0 = 0) := by
  unfold gtpuHeaderLen at hle ⊢
  unfold gtpuPayload
  by_cases hopt : hasOptionalFields (received.getD 0 0)
  case neg =>
    have hext : hasExtHeader (received.getD 0 0) (received.getD 11 0) ≠ true :=
      mt hasOptionalFields_of_hasExtHeader hopt
    rw [if_neg hopt] at hle
    simp only [hopt, hext, Nat.not_lt.mpr hle, Bool.false_eq_true, if_false, false_imp_iff]
  by_cases hext : hasExtHeader (received.getD 0 0) (received.getD 11 0)
  case neg =>
    rw [if_pos hopt, if_neg hext] at hle
    simp only [hopt, hext, Nat.not_lt.mpr hle, Bool.false_eq_true, if_true, if_false, false_imp_iff]
  rw [if_pos hopt, if_pos hext] at hle
  have hnext : received.getD 11 0 ≠ 0 := by
    simp only [hasExtHeader, Bool.and_eq_true, decide_eq_true_eq] at hext
    exact hext.2
  have hdrop : received.drop 16 = (received.drop 12).drop 4 := by rw [List.drop_drop]
  simp only [hopt, hext, show ¬ received.length < 12 by omega, if_true, if_false, true_imp_iff]
  rw [hdrop, dropExtHeaders_eq_drop_iff hnext (by rw [List.length_drop]; omega)]
  simp [List.getD_eq_getElem?_getD, List.getElem?_drop]

/-! ## What the parser does -/

/-- What `gtpuReadHeader` accepts. -/
def GtpuAccepts (flags messageType next : UInt8) : Prop :=
  gtpuSupportedFlagsCheck flags = true ∧ gtpuSupportedMsgTypeCheck messageType = true ∧
    (hasExtHeader flags next = true →
      next = gtpuExtHeaderPdcpPduNumber ∨ next = gtpuExtHeaderPduSessionContainer)

theorem gtpuReadHeader_spec (pdu : ByteBuffer) : ((gtpuReadHeader pdu).accepted ↔
      GtpuAccepts (pdu.byte 0) (pdu.byte 1) (pdu.byte 11)) ∧
    ((gtpuReadHeader pdu).accepted →
      (gtpuReadHeader pdu).pdu = pdu.skip (gtpuHeaderLen (pdu.byte 0) (pdu.byte 11)) ∧
      (gtpuReadHeader pdu).ptr ≤ gtpuHeaderLen (pdu.byte 0) (pdu.byte 11)) := by
  by_cases hflags : gtpuSupportedFlagsCheck (pdu.byte 0)
  case neg => simp [gtpuReadHeader, GtpuAccepts, hflags]
  by_cases htype : gtpuSupportedMsgTypeCheck (pdu.byte 1)
  case neg => simp [gtpuReadHeader, GtpuAccepts, hflags, htype]
  by_cases hopt : hasOptionalFields (pdu.byte 0)
  case neg =>
    have hext : hasExtHeader (pdu.byte 0) (pdu.byte 11) ≠ true :=
      mt hasOptionalFields_of_hasExtHeader hopt
    simp [gtpuReadHeader, GtpuAccepts, hflags, htype, hopt, hext, gtpuHeaderLen, gtpuBaseHeaderLen]
  by_cases hext : hasExtHeader (pdu.byte 0) (pdu.byte 11)
  case neg =>
    simp [gtpuReadHeader, gtpuReadExtHeader, GtpuAccepts, hflags, htype, hopt, hext, gtpuHeaderLen,
      gtpuExtendedHeaderLen]
  have hskip : (pdu.skip 12).skip 4 = pdu.skip 16 := pdu.skip_skip (by decide) (by decide)
  by_cases hpdcp : pdu.byte 11 = gtpuExtHeaderPdcpPduNumber
  · rw [hpdcp] at hext ⊢
    simp [gtpuReadHeader, gtpuReadExtHeader, GtpuAccepts, hflags, htype, hopt, hext, hpdcp,
      gtpuHeaderLen, gtpuExtendedHeaderLen, headerPdcpPduNumberSize, hskip]
  by_cases hsess : pdu.byte 11 = gtpuExtHeaderPduSessionContainer
  · rw [hsess] at hext hpdcp ⊢
    simp [gtpuReadHeader, gtpuReadExtHeader, GtpuAccepts, hflags, htype, hopt, hext, hpdcp, hsess,
      gtpuHeaderLen, gtpuExtendedHeaderLen, gtpuExtHeaderPduSessionContainerLen, hskip]
  · simp [gtpuReadHeader, gtpuReadExtHeader, GtpuAccepts, hflags, htype, hopt, hext, hpdcp, hsess]

theorem le_gtpuHeaderLen (flags next : UInt8) : 8 ≤ gtpuHeaderLen flags next := by
  unfold gtpuHeaderLen
  split_ifs <;> decide

theorem gtpuHeaderLen_le (flags next : UInt8) : gtpuHeaderLen flags next ≤ 16 := by
  unfold gtpuHeaderLen
  split_ifs <;> decide

/-- The extension header type only matters with the optional fields, and is then inside a complete
header. -/
theorem nextExtHdrType_eq_of_complete {flags next next' : UInt8} {len : ℕ}
    (hnext : 12 ≤ len → next = next') (hle : gtpuHeaderLen flags next ≤ len) :
    gtpuHeaderLen flags next = gtpuHeaderLen flags next' ∧
      hasExtHeader flags next = hasExtHeader flags next' ∧
      (hasExtHeader flags next → next = next') := by
  by_cases hopt : hasOptionalFields flags
  · have h12 : 12 ≤ gtpuHeaderLen flags next := by
      unfold gtpuHeaderLen
      rw [if_pos hopt]
      split_ifs <;> decide
    obtain rfl := hnext (h12.trans hle)
    simp
  · have hno : ∀ next, hasExtHeader flags next = false := fun next =>
      Bool.eq_false_iff.mpr (mt hasOptionalFields_of_hasExtHeader hopt)
    simp [gtpuHeaderLen, hopt, hno]

/-! ## Correctness of the handler -/

/-- The handler calls PDCP for every datagram, and only a complete header leaves a length that did
not wrap around. -/
theorem delivers_iff_parsed (m1u : M1uHandler) (stale : ℕ → UInt8) {received : List UInt8}
    (hlen : received.length ≤ emptyTailroom) {headerLen : ℕ}
    (hheader : headerLen =
      gtpuHeaderLen ((ofReceived stale received).byte 0) ((ofReceived stale received).byte 11)) :
    DeliversPayload received (gtpuReadHeader (.ofReceived stale received))
        (m1u.handleRxPacket (.ofReceived stale received)) ↔
      (gtpuReadHeader (.ofReceived stale received)).accepted ∧ headerLen ≤ received.length ∧
        gtpuPayload received = some (received.drop headerLen) := by
  have htail : received.length ≤ 12237 := hlen
  have hle16 : headerLen ≤ 16 := hheader ▸ gtpuHeaderLen_le _ _
  have hspec := (gtpuReadHeader_spec (.ofReceived stale received)).2
  rw [← hheader] at hspec
  constructor
  · intro hdelivers
    obtain ⟨haccepted, hcontents, hle⟩ := hdelivers.payload _ (List.mem_singleton.mpr rfl)
    obtain ⟨hpdu, -⟩ := hspec haccepted
    simp only [hpdu] at hcontents hle
    have hbytes := (ofReceived stale received).skip_nBytes
      (n := headerLen) (by omega) (by rw [ofReceived_nBytes]; omega)
    rw [ofReceived_nBytes] at hbytes
    have hcomplete : headerLen ≤ received.length := by
      by_contra hlt
      rw [hbytes, if_neg hlt] at hle
      omega
    rw [contents_skip_ofReceived stale (by omega) hcomplete] at hcontents
    exact ⟨haccepted, hcomplete, hcontents⟩
  · rintro ⟨haccepted, hcomplete, hpayload⟩
    obtain ⟨hpdu, hptr⟩ := hspec haccepted
    have hcontents := contents_skip_ofReceived stale (by omega) hcomplete
    refine ⟨hptr.trans hcomplete, fun call hcall => ?_, fun hrej => ?_⟩
    · rw [M1uHandler.handleRxPacket, List.mem_singleton] at hcall
      subst hcall
      have hbytes := congrArg List.length hcontents
      rw [length_contents, List.length_drop] at hbytes
      simp only [hpdu, hcontents, hbytes]
      exact ⟨haccepted, hpayload, by omega⟩
    · rw [haccepted] at hrej
      cases hrej

/-- For every datagram and whatever the buffer held before, the handler passes exactly the payload
to PDCP if and only if the datagram starts with a complete header of a supported kind. -/
theorem handleRxPacket_delivers_iff (m1u : M1uHandler) (stale : ℕ → UInt8) (received : List UInt8)
    (hlen : received.length ≤ ByteBuffer.emptyTailroom) :
    DeliversPayload received (gtpuReadHeader (.ofReceived stale received))
        (m1u.handleRxPacket (.ofReceived stale received)) ↔
      GtpuWellFormed received := by
  have hbyte : ∀ i, i < received.length →
      (ofReceived stale received).byte i = received.getD i 0 := fun i =>
    byte_ofReceived stale
  rw [delivers_iff_parsed m1u stale hlen rfl, (gtpuReadHeader_spec _).1]
  constructor
  · rintro ⟨⟨hflags, htype, hext⟩, hle, hpayload⟩
    have h8 : 8 ≤ received.length := (le_gtpuHeaderLen _ _).trans hle
    rw [hbyte 0 (by omega)] at hflags hext hle hpayload
    rw [hbyte 1 (by omega)] at htype
    obtain ⟨hlenEq, hextEq, hnextEq⟩ := nextExtHdrType_eq_of_complete (hbyte 11) hle
    rw [hlenEq] at hle hpayload
    refine ⟨hflags, htype, fun hext' => ⟨?_, (gtpuPayload_eq_drop_iff hle).mp hpayload hext'⟩, hle⟩
    rw [← hextEq] at hext'
    rw [← hnextEq hext']
    exact hext hext'
  · intro hwf
    have hle := hwf.complete
    have h8 : 8 ≤ received.length := (le_gtpuHeaderLen _ _).trans hle
    obtain ⟨hlenEq, hextEq, hnextEq⟩ :=
      nextExtHdrType_eq_of_complete (fun h => (hbyte 11 h).symm) hle
    rw [hbyte 0 (by omega), hbyte 1 (by omega), ← hlenEq]
    refine ⟨⟨hwf.flags, hwf.messageType, fun hext => ?_⟩, hle,
      (gtpuPayload_eq_drop_iff hle).mpr fun hext => (hwf.extHeader hext).2⟩
    rw [← hextEq] at hext
    rw [← hnextEq hext]
    exact (hwf.extHeader hext).1

/-- A data PDU with a PDCP number and a payload of three bytes. -/
theorem handleRxPacket_delivers_data_pdu :
    DeliversPayload [0x34, 255, 0, 11, 0, 0, 0, 1, 0, 0, 0, 0xC0, 1, 0, 5, 0, 10, 20, 30]
      (gtpuReadHeader (.ofReceived (fun _ => 0)
        [0x34, 255, 0, 11, 0, 0, 0, 1, 0, 0, 0, 0xC0, 1, 0, 5, 0, 10, 20, 30]))
      (({} : M1uHandler).handleRxPacket (.ofReceived (fun _ => 0)
        [0x34, 255, 0, 11, 0, 0, 0, 1, 0, 0, 0, 0xC0, 1, 0, 5, 0, 10, 20, 30])) :=
  (handleRxPacket_delivers_iff {} (fun _ => 0) _ (by decide)).2
    ⟨by decide, by decide, by decide, by decide⟩

/-- A GTP' datagram is rejected, but handed to PDCP with its header; of a header of four bytes, PDCP
gets a buffer of almost `2 ^ 32` bytes; of an extension header of eight bytes, it gets the rest with
the payload. -/
theorem handleRxPacket_rejected_or_truncated :
    ((gtpuReadHeader
        (.ofReceived (fun _ => 0) [0x20, 255, 0, 1, 0, 0, 0, 1, 10])).accepted = false ∧
      (({} : M1uHandler).handleRxPacket
          (.ofReceived (fun _ => 0) [0x20, 255, 0, 1, 0, 0, 0, 1, 10])).map (·.sdu.contents) =
        [[0x20, 255, 0, 1, 0, 0, 0, 1, 10]]) ∧
    (({} : M1uHandler).handleRxPacket
        (.ofReceived (fun _ => 0) [0x30, 255, 0, 0])).map (·.sdu.nBytes) = [2 ^ 32 - 4] ∧
    (({} : M1uHandler).handleRxPacket (.ofReceived (fun _ => 0)
        [0x34, 255, 0, 13, 0, 0, 0, 1, 0, 0, 0, 0x85, 2, 1, 2, 3, 4, 5, 6, 0, 0x45])).map
          (·.sdu.contents) = [[4, 5, 6, 0, 0x45]] ∧
      gtpuPayload [0x34, 255, 0, 13, 0, 0, 0, 1, 0, 0, 0, 0x85, 2, 1, 2, 3, 4, 5, 6, 0, 0x45] =
        some [0x45] := by
  have hext : dropExtHeaders 0x85 [2, 1, 2, 3, 4, 5, 6, 0, 0x45] = some [0x45] := by
    simp [dropExtHeaders]
  exact ⟨by decide, by decide, by decide, hext⟩

end MbmsTx.Upper
