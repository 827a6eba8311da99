import MbmsTx.Upper.Gtpu

/-!
# GTP-U output

`gtpuWriteHeader` puts a header in front of a message, which `gtpuReadHeader` reads back.

The room in front of the message is tested for the optional fields, but not for the extension header
behind them: with 12 to 15 bytes of room the message pointer leaves the buffer. Room is made if the
extension header has a type, but it is written if its flag is set. The function also adds the
optional fields to the length that its caller gives; Echo Response and Error Indication count them a
second time.
-/

namespace MbmsTx.Upper

open List Nat ByteBuffer
open UInt8 (ofNat toNat_ofNat')

/-! ## Writing the header -/

/-- `uint16_to_uint8`. -/
def uint16Bytes (n : ℕ) : List UInt8 := [ofNat (n >>> 8), ofNat n]

/-- `uint32_to_uint8`. -/
def uint32Bytes (n : ℕ) : List UInt8 :=
  [ofNat (n >>> 24), ofNat (n >>> 16), ofNat (n >>> 8), ofNat n]

/-- The bytes that `gtpu_write_header` writes. -/
def GtpuHeader.bytes (header : GtpuHeader) : List UInt8 :=
  header.flags :: header.messageType :: (uint16Bytes header.length ++ (uint32Bytes header.teid ++
    if hasOptionalFields header.flags then
      uint16Bytes (if header.flags &&& 0x02 ≠ 0 then header.seqNumber else 0) ++
        (if header.flags &&& 0x01 ≠ 0 then header.nPdu else 0) ::
          if header.flags &&& 0x04 ≠ 0 then header.nextExtHdrType :: header.extBuffer else [0]
    else []))

/-- `gtpu_write_header` returned false, or true with the header and the buffer as it leaves them, or
moved the message pointer before the start of the array. -/
inductive GtpuWriteResult
  | refused (pdu : ByteBuffer)
  | written (header : GtpuHeader) (pdu : ByteBuffer)
  | beforeBuffer

/-- Make room for `n` bytes in front of the message, and write the header there. -/
def putHeader (pdu : ByteBuffer) (n : ℕ) (header : GtpuHeader) : GtpuWriteResult :=
  if pdu.headroom < n then .beforeBuffer
  else .written header ((pdu.rewind n).write (pdu.rewind n).msg header.bytes)

def gtpuWriteHeader (header : GtpuHeader) (pdu : ByteBuffer) : GtpuWriteResult :=
  if ¬ gtpuSupportedFlagsCheck header.flags then .refused pdu
  else if ¬ gtpuSupportedMsgTypeCheck header.messageType then .refused pdu
  else if hasOptionalFields header.flags then
    if pdu.headroom < gtpuExtendedHeaderLen then .refused pdu
    else
      -- no test of the room for the extension header
      let extLen := if header.nextExtHdrType > 0 then header.extBuffer.length else 0
      putHeader pdu (gtpuExtendedHeaderLen + extLen)
        { header with
            length :=
              (header.length + (gtpuExtendedHeaderLen - gtpuBaseHeaderLen) + extLen) % 2 ^ 16
            nPdu := if header.flags &&& 0x01 ≠ 0 then header.nPdu else 0 }
  else if pdu.headroom < gtpuBaseHeaderLen then .refused pdu
  else putHeader pdu gtpuBaseHeaderLen header

/-! ## The senders -/

/-- `gtpu::send_pdu_to_tunnel`: the datagram that is sent. -/
def sendPduToTunnel (teidOut : ℕ) (pdu : ByteBuffer) (pdcpSn : ℤ) : Option (List UInt8) :=
  let version := pdu.byte 0 >>> 4
  if version ≠ 4 ∧ version ≠ 6 then none
  else
    let header : GtpuHeader :=
      { flags := 0x30
        messageType := 255
        length := pdu.nBytes % 2 ^ 16
        teid := teidOut }
    let header :=
      if 0 ≤ pdcpSn then
        { header with
            flags := 0x34
            nextExtHdrType := gtpuExtHeaderPdcpPduNumber
            extBuffer := [0x01, ofNat (pdcpSn.toNat >>> 8), ofNat pdcpSn.toNat, 0] }
      else header
    match gtpuWriteHeader header pdu with
    | .written _ pdu => some pdu.contents
    | _ => none

/-- Write a header to a new buffer and send `n` bytes, or all of the message, whatever
`gtpu_write_header` returned. -/
def sendHeader (stale : ℕ → UInt8) (header : GtpuHeader) (n : Option ℕ) : Option (List UInt8) :=
  match gtpuWriteHeader header (.ofReceived stale []) with
  | .refused pdu | .written _ pdu => some ((List.range (n.getD pdu.nBytes)).map pdu.byte)
  | .beforeBuffer => none

/-- `gtpu::error_indication`. -/
def errorIndication (stale : ℕ → UInt8) (txSeq errTeid : ℕ) : Option (List UInt8) :=
  sendHeader stale
    { flags := 0x32, messageType := 26, teid := errTeid, length := 4, seqNumber := txSeq % 2 ^ 16 }
    (some 12)

/-- `gtpu::echo_response`. -/
def echoResponse (stale : ℕ → UInt8) (seq : ℕ) : Option (List UInt8) :=
  sendHeader stale { flags := 0x32, messageType := 2, length := 4, seqNumber := seq } (some 12)

/-- `gtpu::send_end_marker`. -/
def sendEndMarker (stale : ℕ → UInt8) (teidOut : ℕ) : Option (List UInt8) :=
  sendHeader stale { flags := 0x30, messageType := 254, teid := teidOut } none

/-- A message of the GTP-U layer of the base station. -/
inductive GtpuMessage
  | dataPdu (teidOut : ℕ) (pdu : ByteBuffer) (pdcpSn : ℤ)
  | endMarker (teidOut : ℕ)
  | echoResponse (seq : ℕ)
  | errorIndication (txSeq errTeid : ℕ)

/-- The datagram sent for a message; `stale` is what a new buffer holds. -/
def GtpuMessage.sent (stale : ℕ → UInt8) : GtpuMessage → Option (List UInt8)
  | dataPdu teidOut pdu pdcpSn => sendPduToTunnel teidOut pdu pdcpSn
  | endMarker teidOut => sendEndMarker stale teidOut
  | echoResponse seq => Upper.echoResponse stale seq
  | errorIndication txSeq errTeid => Upper.errorIndication stale txSeq errTeid

/-! ## What the codec is for -/

/-- A header in the range of its fields; an extension header is a PDCP number. -/
structure GtpuHeader.Valid (header : GtpuHeader) : Prop where
  length_lt : header.length < 2 ^ 16
  teid_lt : header.teid < 2 ^ 32
  seqNumber_lt : header.seqNumber < 2 ^ 16
  ext : hasExtHeader header.flags header.nextExtHdrType = true →
    header.nextExtHdrType = gtpuExtHeaderPdcpPduNumber ∧
      header.extBuffer.length = headerPdcpPduNumberSize

/-- The fields that the flags enable. -/
def GtpuHeader.enabled (header : GtpuHeader) : GtpuHeader :=
  { header with
      seqNumber := if header.flags &&& 0x02 ≠ 0 then header.seqNumber else 0
      nPdu := if header.flags &&& 0x01 ≠ 0 then header.nPdu else 0
      nextExtHdrType := if header.flags &&& 0x04 ≠ 0 then header.nextExtHdrType else 0
      extBuffer := if header.flags &&& 0x04 ≠ 0 then header.extBuffer else [] }

/-- The message of a buffer lies inside the array. -/
def InBuffer (pdu : ByteBuffer) : Prop := pdu.msg + pdu.nBytes ≤ maxBufferSizeBytes

/-- The header in front of `pdu` lies inside the buffer `pdu'`, and is read back with the payload.
-/
structure ReadBack (header : GtpuHeader) (pdu pdu' : ByteBuffer) : Prop where
  start : pdu'.msg + header.bytes.length = pdu.msg
  nBytes : pdu'.nBytes = header.bytes.length + pdu.nBytes
  accepted : (gtpuReadHeader pdu').accepted = true
  header_eq : (gtpuReadHeader pdu').header = header.enabled
  payload : (gtpuReadHeader pdu').pdu.contents = pdu.contents

/-- `gtpu_write_header` leaves the buffer as it was, or writes a header that is read back. It
changes the length and the N-PDU number in the caller's header. -/
def WriteSound (header : GtpuHeader) (pdu : ByteBuffer) : Prop :=
  match gtpuWriteHeader header pdu with
  | .refused pdu' => pdu' = pdu
  | .written header' pdu' =>
    (∃ length nPdu, header' = { header with length := length, nPdu := nPdu }) ∧
      ReadBack header' pdu pdu'
  | .beforeBuffer => False

/-- The length field counts the bytes behind the mandatory ones. -/
def LengthMatches (datagram : List UInt8) : Prop :=
  ((datagram.getD 2 0).toNat <<< 8 ||| (datagram.getD 3 0).toNat) + 8 = datagram.length

/-! ## The bytes of a header -/

theorem shiftLeft_or_ofNat (high n : ℕ) :
    high <<< 8 ||| (ofNat n).toNat = high * 256 + n % 256 := by
  rw [toNat_ofNat', ← shiftLeft_add_eq_or_of_lt (Nat.mod_lt n (by decide)), shiftLeft_eq]

theorem toNat_uint16Bytes {n : ℕ} (hn : n < 2 ^ 16) :
    (ofNat (n >>> 8)).toNat <<< 8 ||| (ofNat n).toNat = n := by
  rw [shiftLeft_or_ofNat, toNat_ofNat', shiftRight_eq_div_pow]
  omega

theorem toNat_uint32Bytes {n : ℕ} (hn : n < 2 ^ 32) :
    (ofNat (n >>> 24)).toNat <<< 24 ||| (ofNat (n >>> 16)).toNat <<< 16 |||
      (ofNat (n >>> 8)).toNat <<< 8 ||| (ofNat n).toNat = n := by
  have hshift : ∀ k a, a <<< (k + 8) = (a <<< k) <<< 8 := fun k a => shiftLeft_add a k 8
  rw [hshift 16, hshift 8 (ofNat (n >>> 16)).toNat, ← shiftLeft_or_distrib,
    ← shiftLeft_or_distrib, hshift 8, ← shiftLeft_or_distrib, shiftLeft_or_ofNat,
    shiftLeft_or_ofNat, shiftLeft_or_ofNat, toNat_ofNat']
  omega

variable {header : GtpuHeader}

theorem GtpuHeader.bytes_eq (hopt : hasOptionalFields header.flags) :
    header.bytes = header.flags :: header.messageType :: (uint16Bytes header.length ++
      (uint32Bytes header.teid ++ (uint16Bytes header.enabled.seqNumber ++
        header.enabled.nPdu :: header.enabled.nextExtHdrType :: header.enabled.extBuffer))) := by
  rw [bytes, if_pos hopt]
  unfold enabled
  split_ifs <;> rfl

theorem GtpuHeader.length_bytes (header : GtpuHeader) : header.bytes.length =
    if hasOptionalFields header.flags then 12 + header.enabled.extBuffer.length else 8 := by
  split_ifs with hopt
  · rw [bytes_eq hopt]
    simp [uint16Bytes, uint32Bytes]
    omega
  · simp [bytes, hopt, uint16Bytes, uint32Bytes]

/-- Room is made for an extension header with a type, but it is written with the flag. -/
def GtpuHeader.ExtMismatch (header : GtpuHeader) : Prop :=
  hasOptionalFields header.flags = true ∧ header.extBuffer ≠ [] ∧
    (header.flags &&& 0x04 ≠ 0 ↔ header.nextExtHdrType = 0)

theorem GtpuHeader.extLen_eq_iff (hopt : hasOptionalFields header.flags) :
    (if header.nextExtHdrType > 0 then header.extBuffer.length else 0) =
      header.enabled.extBuffer.length ↔ ¬ header.ExtMismatch := by
  have hpos : header.nextExtHdrType > 0 ↔ header.nextExtHdrType ≠ 0 := UInt8.pos_iff_ne_zero
  by_cases hflag : header.flags &&& 0x04 = 0
  · by_cases hnext : header.nextExtHdrType = 0
    · simp [enabled, ExtMismatch, hflag, hnext]
    · simp [enabled, ExtMismatch, hopt, hpos, hflag, hnext]
  · by_cases hnext : header.nextExtHdrType = 0
    · simp [enabled, ExtMismatch, hopt, hflag, hnext, eq_comm]
    · simp [enabled, ExtMismatch, hpos, hflag, hnext]

theorem GtpuHeader.enabled_of_not_hasExtHeader (hopt : hasOptionalFields header.flags)
    (hmatch : ¬ header.ExtMismatch) (hext : ¬ hasExtHeader header.flags header.nextExtHdrType) :
    header.enabled.nextExtHdrType = 0 ∧ header.enabled.extBuffer = [] := by
  simp only [hasExtHeader, Bool.and_eq_true, decide_eq_true_eq, not_and, not_not] at hext
  unfold enabled
  dsimp only
  split_ifs with hflag
  · have hnext := hext hflag
    exact ⟨hnext, not_not.1 fun hne => hmatch ⟨hopt, hne, iff_of_true hflag hnext⟩⟩
  · exact ⟨rfl, rfl⟩

theorem lengthMatches_append (hlen : header.length < 2 ^ 16) (payload : List UInt8) :
    LengthMatches (header.bytes ++ payload) ↔
      header.length + 8 = header.bytes.length + payload.length := by
  have hfield : (((header.bytes ++ payload).getD 2 0).toNat <<< 8 |||
      ((header.bytes ++ payload).getD 3 0).toNat) = header.length := by
    simpa [GtpuHeader.bytes, uint16Bytes] using toNat_uint16Bytes hlen
  rw [LengthMatches, hfield, length_append]

/-! ## Reading back -/

section ReadBack

variable {header : GtpuHeader} {pdu : ByteBuffer}

section

variable (hvalid : header.Valid)
  (hbyte : ∀ i < header.bytes.length, pdu.byte i = header.bytes.getD i 0)
include hvalid hbyte

theorem GtpuHeader.Valid.mandatory : pdu.byte 0 = header.flags ∧ pdu.byte 1 = header.messageType ∧
      readUint16 pdu 2 = header.length ∧ readUint32 pdu 4 = header.teid := by
  have h8 : 8 ≤ header.bytes.length := by
    rw [header.length_bytes]
    split_ifs <;> omega
  have hget : ∀ i < 8, pdu.byte i = header.bytes.getD i 0 := fun i hi => hbyte i (by omega)
  rw [readUint16, readUint32, hget 0 (by decide), hget 1 (by decide), hget 2 (by decide),
    hget (2 + 1) (by decide), hget 4 (by decide), hget (4 + 1) (by decide),
    hget (4 + 2) (by decide), hget (4 + 3) (by decide)]
  exact ⟨rfl, rfl, toNat_uint16Bytes hvalid.length_lt, toNat_uint32Bytes hvalid.teid_lt⟩

theorem GtpuHeader.Valid.optional (hopt : hasOptionalFields header.flags) :
    readUint16 pdu 8 = header.enabled.seqNumber ∧ pdu.byte 10 = header.enabled.nPdu ∧
      pdu.byte 11 = header.enabled.nextExtHdrType ∧
      (List.range header.enabled.extBuffer.length).map (fun i => pdu.byte (12 + i)) =
        header.enabled.extBuffer := by
  have hbytes := bytes_eq hopt
  have hlen := header.length_bytes
  rw [if_pos hopt] at hlen
  have hseq : header.enabled.seqNumber < 2 ^ 16 := by
    unfold enabled
    dsimp only
    split_ifs
    · exact hvalid.seqNumber_lt
    · decide
  have hget : ∀ i < 12 + header.enabled.extBuffer.length, pdu.byte i = header.bytes.getD i 0 :=
    fun i hi => hbyte i (hlen ▸ hi)
  rw [readUint16, hget 8 (by omega), hget (8 + 1) (by omega), hget 10 (by omega),
    hget 11 (by omega), hbytes]
  refine ⟨toNat_uint16Bytes hseq, rfl, rfl, ?_⟩
  refine ext_getElem (by simp) fun i hi hi' => ?_
  rw [getElem_map, getElem_range, hget (12 + i) (by omega), hbytes, add_comm]
  simp [uint16Bytes, uint32Bytes, hi']

theorem GtpuHeader.Valid.gtpuReadHeader_eq (hmatch : ¬ header.ExtMismatch)
    (hflags : gtpuSupportedFlagsCheck header.flags)
    (htype : gtpuSupportedMsgTypeCheck header.messageType) :
    (gtpuReadHeader pdu).accepted ∧ (gtpuReadHeader pdu).pdu = pdu.skip header.bytes.length ∧
      (gtpuReadHeader pdu).header = header.enabled := by
  obtain ⟨h0, h1, hlength, hteid⟩ := hvalid.mandatory hbyte
  rw [header.length_bytes]
  by_cases hopt : hasOptionalFields header.flags
  case neg =>
    have hzero : header.flags &&& 0x07 = 0 := by simpa [hasOptionalFields] using hopt
    have hclear : ∀ mask : UInt8, 0x07 &&& mask = mask → header.flags &&& mask = 0 := by
      intro mask hmask
      rw [← hmask, ← UInt8.and_assoc, hzero, UInt8.zero_and]
    simp [gtpuReadHeader, h0, h1, hlength, hteid, hflags, htype, hopt, enabled,
      hclear 0x02 rfl, hclear 0x01 rfl, hclear 0x04 rfl, gtpuBaseHeaderLen]
  obtain ⟨hseq, h10, h11, hextBytes⟩ := hvalid.optional hbyte hopt
  by_cases hext : hasExtHeader header.flags header.nextExtHdrType
  case neg =>
    obtain ⟨hnext, hbuf⟩ := enabled_of_not_hasExtHeader hopt hmatch hext
    have hno : hasExtHeader header.flags 0 = false := by simp [hasExtHeader]
    rw [hnext] at h11
    simp [gtpuReadHeader, gtpuReadExtHeader, h0, h1, hlength, hteid, hflags, htype, hopt, hseq, h10,
      h11, hno, hbuf, gtpuExtendedHeaderLen]
    rw [← hnext, ← hbuf]
    rfl
  obtain ⟨hnext, hbuf⟩ := hvalid.ext hext
  have hflag : header.flags &&& 0x04 ≠ 0 := by
    simp only [hasExtHeader, Bool.and_eq_true, decide_eq_true_eq] at hext
    exact hext.1
  have hnext' : header.enabled.nextExtHdrType = gtpuExtHeaderPdcpPduNumber :=
    (if_pos hflag).trans hnext
  have hbuf' : header.enabled.extBuffer.length = 4 := by
    rw [← show header.extBuffer = header.enabled.extBuffer from (if_pos hflag).symm]
    exact hbuf
  have hskip : (pdu.skip 12).skip 4 = pdu.skip 16 := pdu.skip_skip (by decide) (by decide)
  rw [hnext'] at h11
  rw [hnext] at hext
  rw [hbuf'] at hextBytes
  simp [gtpuReadHeader, gtpuReadExtHeader, h0, h1, hlength, hteid, hflags, htype, hopt, hseq, h10,
    h11, hext, hskip, hbuf', hextBytes, gtpuExtendedHeaderLen, headerPdcpPduNumberSize]
  rw [← hnext']
  rfl

end

theorem readBack_of_valid (hvalid : header.Valid) (hmatch : ¬ header.ExtMismatch)
    (hpdu : InBuffer pdu) (hflags : gtpuSupportedFlagsCheck header.flags)
    (htype : gtpuSupportedMsgTypeCheck header.messageType)
    (hroom : header.bytes.length ≤ pdu.msg) :
    ReadBack header pdu
      ((pdu.rewind header.bytes.length).write (pdu.rewind header.bytes.length).msg
        header.bytes) := by
  set pdu' := (pdu.rewind header.bytes.length).write (pdu.rewind header.bytes.length).msg
    header.bytes with hpdu'
  have hcontents : pdu'.contents = header.bytes ++ pdu.contents := by
    simpa using pdu.contents_rewind_write hroom (Nat.le_refl header.bytes.length)
  have hbyte : ∀ i < header.bytes.length, pdu'.byte i = header.bytes.getD i 0 := by
    intro i hi
    simp [hpdu', byte, write, hi]
  have hmax : maxBufferSizeBytes = 13257 := rfl
  have hbytes : pdu'.nBytes = pdu.nBytes + header.bytes.length := rfl
  have hsize : pdu.msg + pdu.nBytes ≤ maxBufferSizeBytes := hpdu
  obtain ⟨haccepted, hrest, hheader⟩ := hvalid.gtpuReadHeader_eq hbyte hmatch hflags htype
  refine ⟨Nat.sub_add_cancel hroom, hbytes.trans (add_comm _ _), haccepted, hheader, ?_⟩
  rw [hrest, pdu'.contents_skip (by omega) (by omega), hcontents, drop_left]

/-! ## The room in front of the message -/

/-- A header that is not read back: there is room for the optional fields, but not for an extension
header, or its flag does not agree with its type. -/
structure ExtHeaderLost (header : GtpuHeader) (pdu : ByteBuffer) : Prop where
  flags : gtpuSupportedFlagsCheck header.flags = true
  messageType : gtpuSupportedMsgTypeCheck header.messageType = true
  tested : 12 ≤ pdu.headroom
  lost : header.ExtMismatch ∨
    hasExtHeader header.flags header.nextExtHdrType = true ∧ pdu.headroom < 16

/-- The caller's header goes `n` bytes in front of the message, with the optional fields and the
extension header added to the length. -/
structure PutInFront (header : GtpuHeader) (pdu : ByteBuffer) (n : ℕ) (header' : GtpuHeader) :
    Prop where
  flags : gtpuSupportedFlagsCheck header.flags = true
  messageType : gtpuSupportedMsgTypeCheck header.messageType = true
  same : ∃ nPdu, header' =
    { header with length := (header.length + (n - 8)) % 2 ^ 16, nPdu := nPdu }
  optional : hasOptionalFields header.flags = true → 12 ≤ pdu.headroom ∧
    n = 12 + if header.nextExtHdrType > 0 then header.extBuffer.length else 0
  mandatory : hasOptionalFields header.flags = false → 8 ≤ pdu.headroom ∧ n = 8

theorem ExtHeaderLost.optional (h : ExtHeaderLost header pdu) : hasOptionalFields header.flags :=
  h.lost.elim (·.1) fun hext => hasOptionalFields_of_hasExtHeader hext.1

theorem gtpuWriteHeader_cases (hvalid : header.Valid) (pdu : ByteBuffer) :
    gtpuWriteHeader header pdu = .refused pdu ∧ ¬ ExtHeaderLost header pdu ∨
      ∃ n header', PutInFront header pdu n header' ∧
        gtpuWriteHeader header pdu = putHeader pdu n header' := by
  unfold gtpuWriteHeader
  by_cases hflags : gtpuSupportedFlagsCheck header.flags
  case neg => exact .inl ⟨if_pos hflags, fun hlost => hflags hlost.flags⟩
  by_cases htype : gtpuSupportedMsgTypeCheck header.messageType
  case neg => exact .inl ⟨by simp [hflags, htype], fun hlost => htype hlost.messageType⟩
  rw [if_neg (not_not.2 hflags), if_neg (not_not.2 htype)]
  by_cases hopt : hasOptionalFields header.flags
  · rw [if_pos hopt]
    by_cases h12 : pdu.headroom < gtpuExtendedHeaderLen
    · exact .inl ⟨if_pos h12, fun hlost => absurd hlost.tested (Nat.not_le.2 h12)⟩
    rw [if_neg h12]
    refine .inr ⟨_, _, ⟨hflags, htype, ⟨if header.flags &&& 0x01 ≠ 0 then header.nPdu else 0, ?_⟩,
      fun _ => ⟨Nat.le_of_not_lt h12, rfl⟩, by simp [hopt]⟩, rfl⟩
    rw [gtpuExtendedHeaderLen, gtpuBaseHeaderLen, add_assoc, Nat.sub_add_comm (by decide)]
  · rw [if_neg hopt]
    by_cases h8 : pdu.headroom < gtpuBaseHeaderLen
    · exact .inl ⟨if_pos h8, fun hlost => hopt hlost.optional⟩
    rw [if_neg h8]
    refine .inr ⟨_, header, ⟨hflags, htype, ⟨header.nPdu, ?_⟩, by simp [hopt], fun _ =>
      ⟨Nat.le_of_not_lt h8, rfl⟩⟩, rfl⟩
    rw [Nat.sub_self, add_zero, mod_eq_of_lt hvalid.length_lt]

section

variable {n : ℕ} {header' : GtpuHeader} (h : PutInFront header pdu n header')
include h

theorem PutInFront.valid (hvalid : header.Valid) : header'.Valid := by
  obtain ⟨nPdu, hsame⟩ := h.same
  rw [hsame]
  exact ⟨Nat.mod_lt _ (by decide), hvalid.teid_lt, hvalid.seqNumber_lt, hvalid.ext⟩

/-- The header has as many bytes as there was room made for it. -/
theorem PutInFront.eq_length_iff : n = header'.bytes.length ↔ ¬ header.ExtMismatch := by
  obtain ⟨nPdu, hsame⟩ := h.same
  have hlen : header'.bytes.length = if hasOptionalFields header.flags then
      12 + header.enabled.extBuffer.length else 8 := by
    rw [header'.length_bytes, hsame]
    rfl
  rw [hlen]
  by_cases hopt : hasOptionalFields header.flags
  · rw [(h.optional hopt).2, if_pos hopt, Nat.add_left_cancel_iff, GtpuHeader.extLen_eq_iff hopt]
  · rw [(h.mandatory (Bool.eq_false_iff.2 hopt)).2, if_neg hopt]
    exact iff_of_true rfl fun hmis => hopt hmis.1

theorem PutInFront.eq_gtpuHeaderLen (hvalid : header.Valid) (hmatch : ¬ header.ExtMismatch) :
    n = gtpuHeaderLen header.flags header.nextExtHdrType := by
  unfold gtpuHeaderLen
  split_ifs with hopt hext
  · have hnext : header.nextExtHdrType > 0 := by
      rw [(hvalid.ext hext).1]
      decide
    rw [(h.optional hopt).2, if_pos hnext, (hvalid.ext hext).2, headerPdcpPduNumberSize]
  · rw [(h.optional hopt).2, (GtpuHeader.extLen_eq_iff hopt).2 hmatch,
      (GtpuHeader.enabled_of_not_hasExtHeader hopt hmatch hext).2, length_nil]
  · exact (h.mandatory (Bool.eq_false_iff.2 hopt)).2

end

theorem writeSound_iff (hvalid : header.Valid) (hpdu : InBuffer pdu) :
    WriteSound header pdu ↔ ¬ ExtHeaderLost header pdu := by
  unfold WriteSound
  obtain ⟨heq, hkept⟩ | ⟨n, header', hput, heq⟩ := gtpuWriteHeader_cases hvalid pdu
  · simp [heq, hkept]
  rw [heq, putHeader]
  have hroom : pdu.headroom = pdu.msg := rfl
  by_cases hmis : header.ExtMismatch
  · refine iff_of_false ?_ (not_not.2 ⟨hput.flags, hput.messageType, (hput.optional hmis.1).1,
      .inl hmis⟩)
    split_ifs with hlt
    · exact id
    · rintro ⟨-, hback⟩
      have hstart : pdu.msg - n + header'.bytes.length = pdu.msg := hback.start
      exact hput.eq_length_iff.1 (by omega) hmis
  have hn := hput.eq_gtpuHeaderLen hvalid hmis
  by_cases hlt : pdu.headroom < n
  · -- the pointer leaves the array
    rw [if_pos hlt]
    rw [hn, gtpuHeaderLen] at hlt
    split_ifs at hlt with hopt hext
    · exact iff_of_false id (not_not.2 ⟨hput.flags, hput.messageType, (hput.optional hopt).1,
        .inr ⟨hext, hlt⟩⟩)
    · exact absurd (hput.optional hopt).1 (Nat.not_le.2 hlt)
    · exact absurd (hput.mandatory (Bool.eq_false_iff.2 hopt)).1 (Nat.not_le.2 hlt)
  rw [if_neg hlt]
  have hlen := hput.eq_length_iff.2 hmis
  have hvalid' := hput.valid hvalid
  obtain ⟨nPdu, hsame⟩ := hput.same
  refine iff_of_true ⟨⟨_, nPdu, hsame⟩, ?_⟩ fun hlost => ?_
  · rw [hlen]
    refine readBack_of_valid hvalid' ?_ hpdu ?_ ?_ (by omega)
    · rw [hsame]
      exact hmis
    · rw [hsame]
      exact hput.flags
    · rw [hsame]
      exact hput.messageType
  · obtain hmis' | ⟨hext, h16⟩ := hlost.lost
    · exact hmis hmis'
    · rw [hn, gtpuHeaderLen, if_pos hlost.optional, if_pos hext] at hlt
      exact hlt h16

end ReadBack

/-! ## The length field -/

/-- A message in the range of its parameters. -/
def GtpuMessage.Valid : GtpuMessage → Prop
  | dataPdu teidOut pdu _ => teidOut < 2 ^ 32 ∧ InBuffer pdu
  | endMarker teidOut => teidOut < 2 ^ 32
  | echoResponse seq => seq < 2 ^ 16
  | errorIndication _ errTeid => errTeid < 2 ^ 32

/-- A message whose sender leaves out the optional fields. -/
def GtpuMessage.LeavesLength : GtpuMessage → Prop
  | dataPdu _ _ _ | endMarker _ => True
  | echoResponse _ | errorIndication _ _ => False

theorem lengthMatches_written {header' : GtpuHeader} {pdu pdu' : ByteBuffer}
    (hvalid : header.Valid) (hmatch : ¬ header.ExtMismatch)
    (hwrite : gtpuWriteHeader header pdu = .written header' pdu')
    (hfits : header.length + 8 < 2 ^ 16) :
    pdu'.nBytes = gtpuHeaderLen header.flags header.nextExtHdrType + pdu.nBytes ∧
      (LengthMatches pdu'.contents ↔ header.length = pdu.nBytes) := by
  obtain ⟨heq, -⟩ | ⟨n, header'', hput, heq⟩ := gtpuWriteHeader_cases hvalid pdu
  · simp [heq] at hwrite
  rw [heq, putHeader] at hwrite
  split_ifs at hwrite with hroom
  cases hwrite
  obtain ⟨nPdu, hsame⟩ := hput.same
  have hn := hput.eq_gtpuHeaderLen hvalid hmatch
  have hlen := hput.eq_length_iff.2 hmatch
  have hle := gtpuHeaderLen_le header.flags header.nextExtHdrType
  have hge := le_gtpuHeaderLen header.flags header.nextExtHdrType
  have hlength : header'.length = header.length + (n - 8) := by
    rw [hsame]
    exact mod_eq_of_lt (by omega)
  have hcontents := pdu.contents_rewind_write (Nat.le_of_not_lt hroom) (Nat.le_of_eq hlen.symm)
  simp only [← hlen, Nat.sub_self, Memory.slice_zero, append_nil] at hcontents
  refine ⟨hn ▸ add_comm _ _, ?_⟩
  rw [hcontents, lengthMatches_append (hput.valid hvalid).length_lt, length_contents, hlength,
    ← hlen]
  omega

theorem lengthMatches_sendHeader {stale : ℕ → UInt8} {n : Option ℕ} {datagram : List UInt8}
    (hsent : sendHeader stale header n = some datagram) (hlength : header.length ≤ 4)
    (hteid : header.teid < 2 ^ 32) (hseq : header.seqNumber < 2 ^ 16)
    (hflags : gtpuSupportedFlagsCheck header.flags)
    (htype : gtpuSupportedMsgTypeCheck header.messageType) (hnext : header.nextExtHdrType = 0)
    (hext : header.extBuffer = [])
    (hn : n.getD (gtpuHeaderLen header.flags 0) = gtpuHeaderLen header.flags 0) :
    LengthMatches datagram ↔ header.length = 0 := by
  have hvalid : header.Valid :=
    ⟨by omega, hteid, hseq, fun h => by simp [hasExtHeader, hnext] at h⟩
  obtain ⟨header', pdu', hwrite⟩ : ∃ header' pdu',
      gtpuWriteHeader header (.ofReceived stale []) = .written header' pdu' := by
    have hroom : (ofReceived stale []).headroom = 1020 := rfl
    simp only [gtpuWriteHeader, putHeader, hflags, htype, hext, hroom, length_nil, ite_self,
      not_true, if_false]
    split <;> exact ⟨_, _, rfl⟩
  obtain ⟨hbytes, hmatches⟩ :=
    lengthMatches_written hvalid (fun hmis => hmis.2.1 hext) hwrite (by omega)
  rw [hnext, ofReceived_nBytes, length_nil, add_zero] at hbytes
  simp only [sendHeader, hwrite, hbytes, hn, Option.some.injEq] at hsent
  rw [← hsent, ← hbytes]
  exact hmatches

theorem lengthMatches_sent {stale : ℕ → UInt8} {message : GtpuMessage} {datagram : List UInt8}
    (hvalid : message.Valid) (hsent : message.sent stale = some datagram) :
    LengthMatches datagram ↔ message.LeavesLength := by
  have hflags : gtpuSupportedFlagsCheck 0x32 = true := by decide
  have hlen : (some 12).getD (gtpuHeaderLen 0x32 0) = gtpuHeaderLen 0x32 0 := by decide
  cases message with
  | dataPdu teidOut pdu pdcpSn =>
    obtain ⟨hteid, hpdu⟩ := hvalid
    have hsize : pdu.nBytes ≤ 13257 := le_trans (Nat.le_add_left _ _) hpdu
    have hmod : pdu.nBytes % 2 ^ 16 = pdu.nBytes := mod_eq_of_lt (by omega)
    simp only [GtpuMessage.sent, sendPduToTunnel, hmod] at hsent
    split at hsent
    · simp at hsent
    split at hsent
    · next header' pdu' hwrite =>
      cases hsent
      refine (lengthMatches_written ?_ ?_ hwrite ?_).2.trans ?_
      · split
        · exact ⟨by simp only; omega, hteid, by simp, fun _ => ⟨rfl, rfl⟩⟩
        · exact ⟨by simp only; omega, hteid, by simp, fun h => by simp [hasExtHeader] at h⟩
      · split
        · rintro ⟨-, -, hiff⟩
          exact absurd (hiff.1 (show (0x34 : UInt8) &&& 0x04 ≠ 0 by decide))
            (show gtpuExtHeaderPdcpPduNumber ≠ 0 by decide)
        · exact fun hmis => hmis.2.1 rfl
      · split <;> simp only <;> omega
      · split <;> simp [GtpuMessage.LeavesLength]
    · simp at hsent
  | endMarker teidOut =>
    have hmatches := lengthMatches_sendHeader hsent (by simp) hvalid (by simp)
      (show gtpuSupportedFlagsCheck 0x30 = true by decide)
      (show gtpuSupportedMsgTypeCheck 254 = true by decide) rfl rfl rfl
    simpa [GtpuMessage.LeavesLength] using hmatches
  | echoResponse seq =>
    have hmatches := lengthMatches_sendHeader hsent le_rfl (by simp) hvalid hflags
      (show gtpuSupportedMsgTypeCheck 2 = true by decide) rfl rfl hlen
    simpa [GtpuMessage.LeavesLength] using hmatches
  | errorIndication txSeq errTeid =>
    have hmatches := lengthMatches_sendHeader hsent le_rfl hvalid (Nat.mod_lt _ (by decide)) hflags
      (show gtpuSupportedMsgTypeCheck 26 = true by decide) rfl rfl hlen
    simpa [GtpuMessage.LeavesLength] using hmatches

/-- Writing a header is sound exactly if no extension header is lost; the length field of what is
sent is right exactly for data PDUs and end markers. -/
theorem gtpu_headers_iff (header : GtpuHeader) (pdu : ByteBuffer) (stale : ℕ → UInt8)
    (message : GtpuMessage) (datagram : List UInt8) (hheader : GtpuHeader.Valid header)
    (hpdu : InBuffer pdu) (hmessage : GtpuMessage.Valid message)
    (hsent : GtpuMessage.sent stale message = some datagram) :
    (WriteSound header pdu ↔ ¬ ExtHeaderLost header pdu) ∧
      (LengthMatches datagram ↔ message.LeavesLength) :=
  ⟨writeSound_iff hheader hpdu, lengthMatches_sent hmessage hsent⟩

theorem gtpu_headers_data_pdu : WriteSound
        { flags := 0x34, messageType := 255, length := 3, teid := 7
          nextExtHdrType := gtpuExtHeaderPdcpPduNumber, extBuffer := [1, 0, 5, 0] }
        (.ofReceived (fun _ => 0) [0x45, 20, 30]) ∧
      LengthMatches [0x34, 255, 0, 11, 0, 0, 0, 7, 0, 0, 0, 0xC0, 1, 0, 5, 0, 0x45, 20, 30] := by
  have hin : InBuffer (.ofReceived (fun _ => 0) [0x45, 20, 30]) := by
    unfold InBuffer
    decide
  refine And.imp (·.2 ?_) (·.2 trivial) (gtpu_headers_iff _ _ (fun _ => 0)
    (.dataPdu 7 (.ofReceived (fun _ => 0) [0x45, 20, 30]) 5) _
    ⟨by decide, by decide, by decide, by decide⟩ hin ⟨by decide, hin⟩ (by decide))
  rintro ⟨-, -, -, ⟨-, -, hiff⟩ | ⟨-, hlt⟩⟩
  · exact absurd (hiff.1 (by decide)) (by decide)
  · exact absurd hlt (by decide)

/-- With twelve bytes the extension header does not fit; without the flag it is left out, and what
was in its place is read as payload; and the length of an Echo Response is 8, not 4. -/
theorem gtpu_headers_ext_outside_and_echo : (∃ header pdu, GtpuHeader.Valid header ∧ InBuffer pdu ∧
        gtpuWriteHeader header pdu = .beforeBuffer ∧ ¬ WriteSound header pdu) ∧
      (∃ header pdu header' pdu', GtpuHeader.Valid header ∧ InBuffer pdu ∧
        gtpuWriteHeader header pdu = .written header' pdu' ∧ pdu.contents = [0x45, 20, 30] ∧
        (gtpuReadHeader pdu').pdu.contents = [0, 0, 0, 0, 0x45, 20, 30]) ∧
      ∃ datagram, echoResponse (fun _ => 0) 1 = some datagram ∧ datagram.length = 12 ∧
        datagram.getD 3 0 = 8 ∧ ¬ LengthMatches datagram := by
  refine ⟨⟨{ flags := 0x34, messageType := 255, nextExtHdrType := gtpuExtHeaderPdcpPduNumber
             extBuffer := [1, 0, 5, 0] }, ⟨fun _ => 0, 12, 3⟩,
      ⟨by decide, by decide, by decide, by decide⟩, by unfold InBuffer; decide, rfl, id⟩,
    ⟨{ flags := 0x32, messageType := 255, nextExtHdrType := gtpuExtHeaderPdcpPduNumber
       extBuffer := [1, 0, 5, 0] }, .ofReceived (fun _ => 0) [0x45, 20, 30], _, _,
      ⟨by decide, by decide, by decide, by decide⟩, by unfold InBuffer; decide, rfl, by decide,
      by decide⟩,
    [0x32, 2, 0, 8, 0, 0, 0, 0, 0, 1, 0, 0], by decide, rfl, rfl, ?_⟩
  unfold LengthMatches
  decide

end MbmsTx.Upper
