import MbmsTx.Common.ByteBuffer

/-!
# MAC PDUs of NR

A MAC PDU of NR is a sequence of sub-PDUs, each with its own subheader, and padding at the end. SDUs
and control elements are written as they are added, and `pack` adds the padding. The reader decides
by the LCID and the direction whether a subheader has a length field; an F bit says that it has 16
bits.

What was added is read back in order, with at most one padding sub-PDU behind it (`unpack_pack`),
since what `write_subpdu` writes from consistent fields (`SchSubpdu.Written`) is read as the same
sub-PDU by `read_subheader`.
-/

namespace MbmsTx.Mac.Nr

open MbmsTx.Memory List UInt8 ByteBuffer

/-! ## LCIDs -/

/-- `CCCH_SIZE_48`, in the uplink. -/
def ccchSize48 : ℕ := 0b110100

/-- `CCCH_SIZE_64`, in the uplink. -/
def ccchSize64 : ℕ := 0b000000

/-- `SE_PHR`, in the uplink. -/
def sePhr : ℕ := 0b111001

/-- `CRNTI`, in the uplink. -/
def crnti : ℕ := 0b111010

/-- `SHORT_TRUNC_BSR`, in the uplink. -/
def shortTruncBsr : ℕ := 0b111011

/-- `LONG_TRUNC_BSR`, in the uplink. -/
def longTruncBsr : ℕ := 0b111100

/-- `SHORT_BSR`, in the uplink. -/
def shortBsr : ℕ := 0b111101

/-- `LONG_BSR`, in the uplink. -/
def longBsr : ℕ := 0b111110

/-- `TA_CMD`, in the downlink. -/
def taCmd : ℕ := 0b111101

/-- `CON_RES_ID`, in the downlink. -/
def conResId : ℕ := 0b111110

def padding : ℕ := 0b111111

def macSubheaderLenThreshold : ℕ := 256

/-- `sizeof_ce`; the long BSRs have at least one byte. -/
def sizeofCe (lcid : ℕ) (isUl : Bool) : ℕ :=
  if isUl then
    if lcid = ccchSize48 then 6
    else if lcid = ccchSize64 then 8
    else if lcid = crnti then 2
    else if lcid = shortBsr ∨ lcid = shortTruncBsr then 1
    else if lcid = sePhr then 2
    else if lcid = longBsr ∨ lcid = longTruncBsr then 1
    else 0
  else
    if lcid = conResId then 6
    else if lcid = taCmd then 1
    else 0

def isSdu (lcid : ℕ) : Bool := lcid ≤ 32

def isVarLenCe (lcid : ℕ) : Bool := lcid = longTruncBsr || lcid = longBsr

def isUlCcch (ulsch : Bool) (lcid : ℕ) : Bool :=
  ulsch && (lcid = ccchSize48 || lcid = ccchSize64)

def hasLengthField (ulsch : Bool) (lcid : ℕ) : Bool :=
  if isUlCcch ulsch lcid then false else isSdu lcid || isVarLenCe lcid

def isValidLcid (ulsch : Bool) (lcid : ℕ) : Bool :=
  lcid ≤ 63 && ((ulsch && (lcid ≤ 32 || 52 ≤ lcid)) || (lcid ≤ 32 || 47 ≤ lcid))

/-! ## Sub-PDUs -/

/-- `mac_sch_subpdu_nr`. The SDU is the memory from its pointer on; `none` is the null pointer. -/
structure SchSubpdu where
  lcid : ℕ
  headerLength : ℕ
  sduLength : ℕ
  fBit : Bool
  sdu : Option (ℕ → UInt8)

/-- `lcg_bsr_t`. -/
structure LcgBsr where
  lcgId : ℕ
  bufferSize : ℕ
  deriving DecidableEq

namespace SchSubpdu

/-- A new sub-PDU. -/
def init : SchSubpdu := ⟨0, 0, 0, false, none⟩

/-- `get_total_length`. -/
def totalLength (s : SchSubpdu) : ℕ := s.headerLength + s.sduLength

/-- `read_subheader` at `ptr`; `none` for an LCID that is not valid. -/
def readSubheader (ulsch : Bool) (payload : ℕ → UInt8) (ptr : ℕ) : Option SchSubpdu :=
  let s := { init with fBit := (payload ptr &&& 0x40) ≠ 0, lcid := (payload ptr &&& 0x3F).toNat }
  if isValidLcid ulsch s.lcid then
    if hasLengthField ulsch s.lcid then
      if s.fBit then
        some { s with
          headerLength := 3
          sduLength := (payload (ptr + 1)).toNat * 2 ^ 8 + (payload (ptr + 2)).toNat
          sdu := some fun i => payload (ptr + 3 + i) }
      else
        some { s with
          headerLength := 2
          sduLength := (payload (ptr + 1)).toNat
          sdu := some fun i => payload (ptr + 2 + i) }
    else
      some { s with
        headerLength := 1
        sduLength := sizeofCe s.lcid ulsch
        sdu := some fun i => payload (ptr + 1 + i) }
  else none

/-- `set_sdu` of a new sub-PDU. A UL CCCH SDU has the length of its LCID, whatever is asked for. -/
def setSdu (ulsch : Bool) (lcid : ℕ) (payload : ℕ → UInt8) (len : ℕ) : SchSubpdu :=
  let s := { init with lcid := lcid, sdu := some payload }
  let headerLength := if isUlCcch ulsch lcid then 1 else 2
  let sduLength := if isUlCcch ulsch lcid then sizeofCe lcid ulsch else len
  { s with
    sduLength := sduLength
    headerLength := if macSubheaderLenThreshold ≤ sduLength then headerLength + 1 else headerLength
    fBit := macSubheaderLenThreshold ≤ sduLength }

def setPadding (s : SchSubpdu) (len : ℕ) : SchSubpdu :=
  { s with lcid := padding, sduLength := len - 1, headerLength := 1 }

/-- A control element of the uplink in the internal storage. -/
def setCe (lcid : ℕ) (bytes : List UInt8) : SchSubpdu :=
  { init with
    lcid := lcid
    headerLength := 1
    sduLength := sizeofCe lcid true
    sdu := some fun i => bytes.getD i 0 }

/-- `set_c_rnti`, on a little-endian host. -/
def setCRnti (c : ℕ) : SchSubpdu := setCe crnti [ofNat (c / 2 ^ 8), ofNat c]

def setSePhr (phr pcmax : ℕ) : SchSubpdu :=
  setCe sePhr [ofNat phr &&& 0x3F, ofNat pcmax &&& 0x3F]

def setSbsr (bsr : LcgBsr) : SchSubpdu :=
  setCe shortBsr [(ofNat bsr.lcgId &&& 0x07) <<< 5 ||| (ofNat bsr.bufferSize &&& 0x1F)]

/-- The length field, which `write_subpdu` chooses by the header length. -/
def lengthField (s : SchSubpdu) : List UInt8 :=
  if s.headerLength = 3 then [ofNat (s.sduLength / 2 ^ 8), ofNat s.sduLength]
  else if s.headerLength = 2 then [ofNat s.sduLength]
  else []

/-- The payload: a copy of the SDU, or zeros. -/
def payload (s : SchSubpdu) : List UInt8 :=
  match s.sdu with
  | some mem => slice mem 0 s.sduLength
  | none => List.replicate s.sduLength 0

/-- The first byte of the subheader. -/
def flags (s : SchSubpdu) : UInt8 :=
  (if s.fBit then 1 else 0 : UInt8) <<< 6 ||| (ofNat s.lcid &&& 0x3F)

/-- The bytes that `write_subpdu` writes. -/
def writeSubpdu (s : SchSubpdu) : List UInt8 := s.flags :: (s.lengthField ++ s.payload)

/-- The byte at an offset of the SDU pointer. -/
def sduByte (s : SchSubpdu) (i : ℕ) : UInt8 :=
  match s.sdu with
  | some mem => mem i
  | none => 0

def getCRnti (ulsch : Bool) (s : SchSubpdu) : ℕ :=
  if ulsch ∧ s.lcid = crnti then (s.sduByte 0).toNat * 2 ^ 8 + (s.sduByte 1).toNat else 0

def getPhr (ulsch : Bool) (s : SchSubpdu) : ℕ :=
  if ulsch ∧ s.lcid = sePhr then (s.sduByte 0 &&& 0x3F).toNat else 0

def getPcmax (ulsch : Bool) (s : SchSubpdu) : ℕ :=
  if ulsch ∧ s.lcid = sePhr then (s.sduByte 1 &&& 0x3F).toNat else 0

def getSbsr (ulsch : Bool) (s : SchSubpdu) : LcgBsr :=
  if ulsch ∧ (s.lcid = shortBsr ∨ s.lcid = shortTruncBsr) then
    ⟨((s.sduByte 0 &&& 0xE0) >>> 5).toNat, (s.sduByte 0 &&& 0x1F).toNat⟩
  else ⟨0, 0⟩

end SchSubpdu

/-! ## PDUs -/

/-- `mac_sch_pdu_nr`. -/
structure SchPdu where
  ulsch : Bool
  subpdus : List SchSubpdu
  buffer : ByteBuffer
  remainingLen : ℕ

namespace SchPdu

def initTx (buffer : ByteBuffer) (pduLen : ℕ) (ulsch : Bool) : SchPdu := ⟨ulsch, [], buffer, pduLen⟩

def sizeHeaderSdu (pdu : SchPdu) (lcid nbytes : ℕ) : ℕ :=
  if pdu.ulsch ∧ (lcid = ccchSize48 ∨ lcid = ccchSize64) then 1
  else if nbytes < 256 then 2 else 3

/-- Write a sub-PDU behind the message. -/
def put (pdu : SchPdu) (s : SchSubpdu) : SchPdu :=
  { pdu with
    buffer := { pdu.buffer.write (pdu.buffer.msg + pdu.buffer.nBytes) s.writeSubpdu with
      nBytes := pdu.buffer.nBytes + s.totalLength }
    remainingLen := pdu.remainingLen - s.totalLength
    subpdus := pdu.subpdus ++ [s] }

/-- `add_sudpdu`; `none` if there is not enough space. -/
def addSudpdu (pdu : SchPdu) (s : SchSubpdu) : Option SchPdu :=
  if pdu.remainingLen < s.totalLength then none else some (pdu.put s)

def addSdu (pdu : SchPdu) (lcid : ℕ) (payload : ℕ → UInt8) (len : ℕ) : Option SchPdu :=
  if pdu.remainingLen < pdu.sizeHeaderSdu lcid len + len then none
  else pdu.addSudpdu (SchSubpdu.setSdu pdu.ulsch lcid payload len)

def addCrntiCe (pdu : SchPdu) (c : ℕ) : Option SchPdu := pdu.addSudpdu (SchSubpdu.setCRnti c)

def addSePhrCe (pdu : SchPdu) (phr pcmax : ℕ) : Option SchPdu :=
  pdu.addSudpdu (SchSubpdu.setSePhr phr pcmax)

def addSbsrCe (pdu : SchPdu) (bsr : LcgBsr) : Option SchPdu := pdu.addSudpdu (SchSubpdu.setSbsr bsr)

def pack (pdu : SchPdu) : SchPdu :=
  if pdu.remainingLen = 0 then pdu else pdu.put (SchSubpdu.init.setPadding pdu.remainingLen)

end SchPdu

variable {payload mem : ℕ → UInt8} {s : SchSubpdu} {ptr len : ℕ}

/-- The number of octets of the length field. -/
def lengthOctets (ulsch : Bool) (first : UInt8) : ℕ :=
  if hasLengthField ulsch (first &&& 0x3F).toNat then if first &&& 0x40 ≠ 0 then 2 else 1 else 0

/-- The number of octets behind the length field. -/
def bodyLength (ulsch : Bool) (first : UInt8) : List UInt8 → ℕ
  | [] => sizeofCe (first &&& 0x3F).toNat ulsch
  | [octet] => octet.toNat
  | high :: low :: _ => high.toNat * 2 ^ 8 + low.toNat

/-- What the octets at `ptr` say about the sub-PDU. -/
theorem SchSubpdu.lengths_of_read {ulsch : Bool} (h : readSubheader ulsch payload ptr = some s) :
    s.lcid = (payload ptr &&& 0x3F).toNat ∧ isValidLcid ulsch s.lcid = true ∧
      s.totalLength = lengthOctets ulsch (payload ptr) + bodyLength ulsch (payload ptr)
        (slice payload (ptr + 1) (lengthOctets ulsch (payload ptr))) + 1 := by
  unfold readSubheader at h
  unfold lengthOctets
  dsimp only at h
  split at h
  · next hvalid =>
    split at h
    · next hfield =>
      rw [if_pos hfield]
      split at h
      · next hf =>
        obtain rfl := Option.some.inj h
        rw [if_pos (by simpa using hf)]
        exact ⟨rfl, hvalid, Nat.add_right_comm 2 1 _⟩
      · next hf =>
        obtain rfl := Option.some.inj h
        rw [if_neg (by simpa using hf)]
        exact ⟨rfl, hvalid, Nat.add_right_comm 1 1 _⟩
    · next hfield =>
      obtain rfl := Option.some.inj h
      rw [if_neg hfield]
      exact ⟨rfl, hvalid, by simp [totalLength, bodyLength, add_comm]⟩
  · cases h

theorem SchSubpdu.totalLength_pos {ulsch : Bool}
    (h : readSubheader ulsch payload ptr = some s) : 0 < s.totalLength := by
  rw [(lengths_of_read h).2.2]
  exact Nat.succ_pos _

/-- The loop of `unpack`, from an offset on: the sub-PDUs, and whether all is well-formed. -/
def unpackLoop (ulsch : Bool) (payload : ℕ → UInt8) (len offset : ℕ) (subpdus : List SchSubpdu) :
    List SchSubpdu × Bool :=
  if offset < len then
    match h : SchSubpdu.readSubheader ulsch payload offset with
    | none => (subpdus, false)
    | some s =>
      have := s.totalLength_pos h
      let next := offset + s.totalLength
      if s.lcid = padding then
        unpackLoop ulsch payload len len (subpdus ++ [s.setPadding (len - next + 1)])
      else unpackLoop ulsch payload len next (subpdus ++ [s])
  else (subpdus, offset = len)
  termination_by len - offset

/-- `unpack`, after `init_rx`. -/
def unpack (ulsch : Bool) (payload : ℕ → UInt8) (len : ℕ) : List SchSubpdu × Bool :=
  unpackLoop ulsch payload len 0 []

/-! ## What is added -/

/-- A call of one of the `add_*` functions. -/
inductive Element where
  | sdu (lcid : ℕ) (payload : List UInt8)
  | crntiCe (c : ℕ)
  | sePhrCe (phr pcmax : ℕ)
  | sbsrCe (bsr : LcgBsr)

namespace Element

/-- The call. -/
def add (pdu : SchPdu) : Element → Option SchPdu
  | sdu lcid payload => pdu.addSdu lcid (fun i => payload.getD i 0) payload.length
  | crntiCe c => pdu.addCrntiCe c
  | sePhrCe phr pcmax => pdu.addSePhrCe phr pcmax
  | sbsrCe bsr => pdu.addSbsrCe bsr

/-- The calls one after the other; `none` if one of them fails. -/
def addAll (pdu : SchPdu) : List Element → Option SchPdu
  | [] => some pdu
  | e :: es => (e.add pdu).bind fun pdu => addAll pdu es

/-- An SDU of a logical channel, or a UL CCCH SDU of its fixed length; control elements in the
uplink only, with values that fit their fields. -/
def Allowed (ulsch : Bool) : Element → Prop
  | sdu lcid payload =>
    (ulsch = true ∧ (lcid = ccchSize48 ∧ payload.length = 6 ∨
      lcid = ccchSize64 ∧ payload.length = 8)) ∨
    (¬ (ulsch = true ∧ lcid = ccchSize64) ∧ lcid ≤ 32 ∧ 1 ≤ payload.length ∧ payload.length ≤ 65535)
  | crntiCe c => ulsch = true ∧ c < 2 ^ 16
  | sePhrCe phr pcmax => ulsch = true ∧ phr < 2 ^ 6 ∧ pcmax < 2 ^ 6
  | sbsrCe bsr => ulsch = true ∧ bsr.lcgId < 2 ^ 3 ∧ bsr.bufferSize < 2 ^ 5

/-- A sub-PDU has the LCID, the SDU bytes or the contents of what was added. -/
def ShownBy (ulsch : Bool) (s : SchSubpdu) : Element → Prop
  | sdu lcid payload => s.lcid = lcid ∧ s.sduLength = payload.length ∧ s.payload = payload
  | crntiCe c => s.lcid = crnti ∧ s.getCRnti ulsch = c
  | sePhrCe phr pcmax => s.lcid = sePhr ∧ s.getPhr ulsch = phr ∧ s.getPcmax ulsch = pcmax
  | sbsrCe bsr => s.lcid = shortBsr ∧ s.getSbsr ulsch = bsr

end Element

/-! ## One sub-PDU -/

/-- The fields of a sub-PDU before it is written, as `read_subheader` expects them. -/
structure SchSubpdu.Written (ulsch : Bool) (s : SchSubpdu) : Prop where
  valid : isValidLcid ulsch s.lcid = true
  not_padding : s.lcid ≠ padding
  long : hasLengthField ulsch s.lcid = true → s.fBit = true →
    s.headerLength = 3 ∧ s.sduLength < 2 ^ 16
  short : hasLengthField ulsch s.lcid = true → s.fBit = false →
    s.headerLength = 2 ∧ s.sduLength < 2 ^ 8
  fixed : hasLengthField ulsch s.lcid = false →
    s.fBit = false ∧ s.headerLength = 1 ∧ s.sduLength = sizeofCe s.lcid ulsch

namespace SchSubpdu

variable {ulsch : Bool} {s s' : SchSubpdu}

theorem Written.lcid_lt (h : s.Written ulsch) : s.lcid < 64 := by
  have hvalid := h.valid
  simp [isValidLcid] at hvalid
  omega

theorem flags_and_lcid (h : s.lcid < 64) : (s.flags &&& 0x3F).toNat = s.lcid := by
  have hall : ∀ (f : Bool) (l : Fin 64), ((flags ⟨l, 0, 0, f, none⟩) &&& 0x3F).toNat = l := by
    decide
  exact hall s.fBit ⟨s.lcid, h⟩

theorem flags_and_fBit (h : s.lcid < 64) : decide ((s.flags &&& 0x40) ≠ 0) = s.fBit := by
  have hall : ∀ (f : Bool) (l : Fin 64),
      decide (((flags ⟨l, 0, 0, f, none⟩) &&& 0x40) ≠ 0) = f := by
    decide
  exact hall s.fBit ⟨s.lcid, h⟩

theorem payload_eq (s : SchSubpdu) : s.payload = slice s.sduByte 0 s.sduLength := by
  unfold payload
  split
  · next mem hsdu =>
    refine slice_congr ?_
    intro i _
    simp only [sduByte, hsdu]
  · next hsdu =>
    refine ext_getElem (by simp) ?_
    intro i _ _
    simp [slice, sduByte, hsdu]

@[simp] theorem length_payload (s : SchSubpdu) : s.payload.length = s.sduLength := by
  rw [payload_eq, length_slice]

theorem length_writeSubpdu (hlen : s.headerLength = 1 + s.lengthField.length) :
    s.writeSubpdu.length = s.totalLength := by
  rw [writeSubpdu, length_cons, length_append, length_payload, totalLength, hlen]
  omega

theorem Written.headerLength_eq (h : s.Written ulsch) :
    s.headerLength = 1 + s.lengthField.length := by
  unfold lengthField
  cases hfield : hasLengthField ulsch s.lcid with
  | true =>
    cases hf : s.fBit with
    | true => rw [(h.long hfield hf).1]; rfl
    | false => rw [(h.short hfield hf).1]; rfl
  | false => rw [(h.fixed hfield).2.1]; rfl

/-- What was written is read back, with an SDU pointer to the copy. -/
theorem Written.readSubheader_eq (h : s.Written ulsch) (hmem : Holds mem ptr s.writeSubpdu) :
    readSubheader ulsch mem ptr =
      some { s with sdu := some fun i => mem (ptr + s.headerLength + i) } := by
  obtain ⟨hflags, hrest⟩ := holds_cons.mp hmem
  have hlcid : (mem ptr &&& 0x3F).toNat = s.lcid := by rw [hflags, flags_and_lcid h.lcid_lt]
  have hfBit : decide ((mem ptr &&& 0x40) ≠ 0) = s.fBit := by rw [hflags, flags_and_fBit h.lcid_lt]
  unfold readSubheader
  simp only [hlcid, hfBit, h.valid, if_true]
  cases hfield : hasLengthField ulsch s.lcid with
  | true =>
    simp only [if_true]
    cases hf : s.fBit with
    | true =>
      obtain ⟨hlen, hlt⟩ := h.long hfield hf
      rw [lengthField, if_pos hlen, cons_append, holds_cons, cons_append, holds_cons] at hrest
      obtain ⟨hhigh, hlow, -⟩ := hrest
      have hsdu : (mem (ptr + 1)).toNat * 2 ^ 8 + (mem (ptr + 2)).toNat = s.sduLength := by
        rw [hhigh, hlow, toNat_ofNat', toNat_ofNat']
        omega
      simp only [if_true, hsdu, hlen]
    | false =>
      obtain ⟨hlen, hlt⟩ := h.short hfield hf
      rw [lengthField, if_neg (by omega), if_pos hlen, cons_append, holds_cons] at hrest
      have hsdu : (mem (ptr + 1)).toNat = s.sduLength := by
        rw [hrest.1, toNat_ofNat']
        omega
      simp [hsdu, hlen]
  | false =>
    obtain ⟨hf, hlen, hsdu⟩ := h.fixed hfield
    simp [hsdu, hlen, hf]

/-- A sub-PDU with the same LCID and the same SDU bytes. -/
structure Copy (s s' : SchSubpdu) : Prop where
  lcid : s'.lcid = s.lcid
  sduLength : s'.sduLength = s.sduLength
  sduByte : ∀ i < s.sduLength, s'.sduByte i = s.sduByte i

theorem Copy.payload_eq (h : s.Copy s') : s'.payload = s.payload := by
  rw [s'.payload_eq, s.payload_eq, h.sduLength]
  refine slice_congr ?_
  intro i hi
  rw [zero_add]
  exact h.sduByte i hi

theorem Written.read (h : s.Written ulsch) (hmem : Holds mem ptr s.writeSubpdu) :
    ∃ s', readSubheader ulsch mem ptr = some s' ∧ s.Copy s' ∧ s'.totalLength = s.totalLength := by
  refine ⟨_, h.readSubheader_eq hmem, ⟨rfl, rfl, ?_⟩, rfl⟩
  obtain ⟨-, hrest⟩ := holds_cons.mp hmem
  have hcopy := (holds_append.mp hrest).2
  rw [Holds, length_payload, s.payload_eq] at hcopy
  intro i hi
  have hbyte := eq_of_slice_eq hcopy hi
  rw [zero_add] at hbyte
  rw [← hbyte, sduByte, h.headerLength_eq, add_assoc ptr 1]

end SchSubpdu

/-! ## The sub-PDU of an element -/

namespace Element

/-- The sub-PDU that is added. -/
def subpdu (ulsch : Bool) : Element → SchSubpdu
  | sdu lcid payload => SchSubpdu.setSdu ulsch lcid (fun i => payload.getD i 0) payload.length
  | crntiCe c => SchSubpdu.setCRnti c
  | sePhrCe phr pcmax => SchSubpdu.setSePhr phr pcmax
  | sbsrCe bsr => SchSubpdu.setSbsr bsr

variable {ulsch : Bool} {e : Element} {pdu pdu' : SchPdu}

theorem addSudpdu_eq_some (h : pdu.addSudpdu s = some pdu') :
    pdu' = pdu.put s ∧ s.totalLength ≤ pdu.remainingLen := by
  unfold SchPdu.addSudpdu at h
  split at h
  · cases h
  · next hroom => exact ⟨(Option.some.inj h).symm, Nat.le_of_not_lt hroom⟩

theorem add_eq_some (h : e.add pdu = some pdu') :
    pdu' = pdu.put (e.subpdu pdu.ulsch) ∧ (e.subpdu pdu.ulsch).totalLength ≤ pdu.remainingLen := by
  cases e with
  | sdu lcid payload =>
    simp only [add, SchPdu.addSdu] at h
    split at h
    · cases h
    · exact addSudpdu_eq_some h
  | crntiCe c | sePhrCe phr pcmax | sbsrCe bsr => exact addSudpdu_eq_some h

variable {lcid : ℕ}

theorem written_setCe {bytes : List UInt8} (hvalid : isValidLcid true lcid)
    (hpadding : lcid ≠ padding) (hfield : hasLengthField true lcid = false) :
    (SchSubpdu.setCe lcid bytes).Written true := by
  have hnone : ¬ hasLengthField true lcid := by simp [hfield]
  exact ⟨hvalid, hpadding, fun h => absurd h hnone, fun h => absurd h hnone,
    fun _ => ⟨rfl, rfl, rfl⟩⟩

theorem setSdu_ccch (h : isUlCcch ulsch lcid) : SchSubpdu.setSdu ulsch lcid payload len =
      ⟨lcid, 1, sizeofCe lcid ulsch, false, some payload⟩ := by
  have hlt : ¬ macSubheaderLenThreshold ≤ sizeofCe lcid ulsch := by
    unfold sizeofCe
    split_ifs <;> decide
  simp only [SchSubpdu.setSdu, h, if_true, if_neg hlt, decide_eq_false hlt]

theorem setSdu_eq (h : isUlCcch ulsch lcid = false) : SchSubpdu.setSdu ulsch lcid payload len =
      ⟨lcid, if macSubheaderLenThreshold ≤ len then 3 else 2, len,
        macSubheaderLenThreshold ≤ len, some payload⟩ := by
  simp only [SchSubpdu.setSdu, h, Bool.false_eq_true, if_false]

theorem written_setSdu_ccch (h : isUlCcch ulsch lcid) :
    (SchSubpdu.setSdu ulsch lcid payload len).Written ulsch := by
  have hfield : hasLengthField ulsch lcid = false := by rw [hasLengthField, h, if_pos rfl]
  have hlcid : lcid = ccchSize48 ∨ lcid = ccchSize64 := by
    simpa [isUlCcch] using (Bool.and_eq_true_iff.mp h).2
  have hvalid : isValidLcid ulsch lcid := by
    rcases hlcid with rfl | rfl
    · revert ulsch
      decide
    · revert ulsch
      decide
  have hpadding : lcid ≠ padding := by
    rcases hlcid with rfl | rfl
    · decide
    · decide
  rw [setSdu_ccch h]
  refine ⟨hvalid, hpadding, ?_, ?_, fun _ => ⟨rfl, rfl, rfl⟩⟩
  all_goals
    intro h
    exact absurd (hfield.symm.trans h) (by decide)

theorem written_setSdu (h : isUlCcch ulsch lcid = false) (hlcid : lcid ≤ 32)
    (hlen : len ≤ 65535) : (SchSubpdu.setSdu ulsch lcid payload len).Written ulsch := by
  have hfield : hasLengthField ulsch lcid := by
    rw [hasLengthField, h, if_neg (by decide), isSdu, decide_eq_true hlcid, Bool.true_or]
  rw [setSdu_eq h]
  refine ⟨?_, ?_, ?_, ?_, ?_⟩
  · simp [isValidLcid, hlcid]
    omega
  · intro hpadding
    have hpad : padding = 63 := rfl
    have hlcid' : lcid = padding := hpadding
    omega
  · intro _ hf
    have hlong := of_decide_eq_true hf
    exact ⟨if_pos hlong, Nat.lt_succ_of_le hlen⟩
  · intro _ hf
    have hshort := of_decide_eq_false hf
    refine ⟨if_neg hshort, ?_⟩
    exact Nat.lt_of_not_le hshort
  · intro hno
    exact absurd (hfield.symm.trans hno) (by decide)

theorem Allowed.isUlCcch_eq {payload : List UInt8} (h : (sdu lcid payload).Allowed ulsch) :
    (isUlCcch ulsch lcid ∧ sizeofCe lcid ulsch = payload.length) ∨
      (isUlCcch ulsch lcid = false ∧ lcid ≤ 32 ∧ payload.length ≤ 65535) := by
  rcases h with ⟨rfl, ⟨rfl, hlen⟩ | ⟨rfl, hlen⟩⟩ | ⟨hccch, hlcid, -, hlen⟩
  · exact .inl ⟨by decide, by rw [hlen]; decide⟩
  · exact .inl ⟨by decide, by rw [hlen]; decide⟩
  · refine .inr ⟨?_, hlcid, hlen⟩
    cases ulsch with
    | false => rfl
    | true =>
      have h48 : lcid ≠ ccchSize48 := by
        have heq : ccchSize48 = 52 := rfl
        omega
      have h64 : lcid ≠ ccchSize64 := fun heq => hccch ⟨rfl, heq⟩
      simp [isUlCcch, h48, h64]

theorem Allowed.written (h : e.Allowed ulsch) : (e.subpdu ulsch).Written ulsch := by
  cases e with
  | sdu lcid payload =>
    rcases h.isUlCcch_eq with ⟨hccch, -⟩ | ⟨hccch, hlcid, hlen⟩
    · exact written_setSdu_ccch hccch
    · exact written_setSdu hccch hlcid hlen
  | crntiCe c | sePhrCe phr pcmax | sbsrCe bsr =>
    obtain ⟨rfl, -⟩ := h
    exact written_setCe (by decide) (by decide) (by decide)

theorem Allowed.shownBy (h : e.Allowed ulsch) (hcopy : (e.subpdu ulsch).Copy s) :
    e.ShownBy ulsch s := by
  cases e with
  | sdu lcid payload =>
    have hlen : ((sdu lcid payload).subpdu ulsch).sduLength = payload.length := by
      rcases h.isUlCcch_eq with ⟨hccch, hsize⟩ | ⟨hccch, -⟩
      · rw [subpdu, setSdu_ccch hccch]
        exact hsize
      · rw [subpdu, setSdu_eq hccch]
    refine ⟨hcopy.lcid, hcopy.sduLength.trans hlen, hcopy.payload_eq.trans ?_⟩
    have hbytes : ((sdu lcid payload).subpdu ulsch).payload =
        slice (fun i => payload.getD i 0) 0 payload.length := by
      rw [← hlen]
      rfl
    rw [hbytes]
    refine ext_getElem (by simp) ?_
    intro i hi _
    rw [length_slice] at hi
    simp [slice, hi]
  | crntiCe c =>
    obtain ⟨rfl, hc⟩ := h
    have hlcid : s.lcid = crnti := hcopy.lcid
    have hhigh : s.sduByte 0 = ofNat (c / 2 ^ 8) := hcopy.sduByte 0 Nat.zero_lt_two
    have hlow : s.sduByte 1 = ofNat c := hcopy.sduByte 1 Nat.one_lt_two
    refine ⟨hlcid, ?_⟩
    rw [SchSubpdu.getCRnti, if_pos ⟨rfl, hlcid⟩, hhigh, hlow, toNat_ofNat', toNat_ofNat']
    omega
  | sePhrCe phr pcmax =>
    obtain ⟨rfl, hphr, hpcmax⟩ := h
    have hlcid : s.lcid = sePhr := hcopy.lcid
    have hfirst := hcopy.sduByte 0 Nat.zero_lt_two
    have hsecond := hcopy.sduByte 1 Nat.one_lt_two
    have hall : ∀ x : Fin 64, ((ofNat x &&& 0x3F) &&& 0x3F).toNat = x := by decide
    refine ⟨hlcid, ?_, ?_⟩
    · rw [SchSubpdu.getPhr, if_pos ⟨rfl, hlcid⟩, hfirst]
      exact hall ⟨phr, hphr⟩
    · rw [SchSubpdu.getPcmax, if_pos ⟨rfl, hlcid⟩, hsecond]
      exact hall ⟨pcmax, hpcmax⟩
  | sbsrCe bsr =>
    obtain ⟨rfl, hlcg, hsize⟩ := h
    have hlcid : s.lcid = shortBsr := hcopy.lcid
    have hbyte := hcopy.sduByte 0 Nat.one_pos
    have hall : ∀ (x : Fin 8) (y : Fin 32),
        ((((ofNat x &&& 0x07) <<< 5 ||| (ofNat y &&& 0x1F)) &&& 0xE0) >>> 5).toNat = x ∧
        (((ofNat x &&& 0x07) <<< 5 ||| (ofNat y &&& 0x1F)) &&& 0x1F).toNat = y := by
      decide
    obtain ⟨hx, hy⟩ := hall ⟨bsr.lcgId, hlcg⟩ ⟨bsr.bufferSize, hsize⟩
    refine ⟨hlcid, ?_⟩
    rw [SchSubpdu.getSbsr, if_pos ⟨rfl, .inl hlcid⟩, hbyte]
    exact congrArg₂ LcgBsr.mk hx hy

theorem shownBy_of_copies {es : List Element} {subpdus : List SchSubpdu}
    (hallowed : ∀ e ∈ es, e.Allowed ulsch)
    (hcopies : Forall₂ SchSubpdu.Copy (es.map fun e => e.subpdu ulsch) subpdus) :
    Forall₂ (fun e s => ShownBy ulsch s e) es subpdus := by
  induction es generalizing subpdus with
  | nil =>
    cases hcopies
    simp
  | cons e es ih =>
    cases hcopies with
    | cons hcopy hcopies =>
      have he := hallowed e (by simp)
      exact Forall₂.cons (he.shownBy hcopy) (ih (fun e' he' => hallowed e' (by simp [he'])) hcopies)

end Element

/-! ## The whole PDU -/

section

variable {ulsch : Bool} {pduLen offset : ℕ} {es : List Element} {pdu : SchPdu}
  {acc : List SchSubpdu}

/-- What the buffer has after some elements were added. -/
structure Built (ulsch : Bool) (pduLen : ℕ) (es : List Element) (pdu : SchPdu) : Prop where
  direction : pdu.ulsch = ulsch
  contents : pdu.buffer.contents = es.flatMap fun e => (e.subpdu ulsch).writeSubpdu
  remaining : pdu.buffer.nBytes + pdu.remainingLen = pduLen

theorem SchPdu.contents_put (hlen : s.headerLength = 1 + s.lengthField.length) :
    (pdu.put s).buffer.contents = pdu.buffer.contents ++ s.writeSubpdu := by
  rw [← contents_append, append, SchSubpdu.length_writeSubpdu hlen]
  rfl

theorem Built.add {e : Element} {pdu' : SchPdu} (h : Built ulsch pduLen es pdu)
    (hallowed : e.Allowed ulsch) (hadd : e.add pdu = some pdu') :
    Built ulsch pduLen (es ++ [e]) pdu' := by
  obtain ⟨rfl, hroom⟩ := Element.add_eq_some hadd
  rw [h.direction] at hroom ⊢
  refine ⟨h.direction, ?_, ?_⟩
  · rw [SchPdu.contents_put hallowed.written.headerLength_eq, h.contents, flatMap_append]
    simp
  · have hremaining := h.remaining
    change pdu.buffer.nBytes + _ + (pdu.remainingLen - _) = pduLen
    omega

theorem Built.addAll {es' : List Element} {pdu' : SchPdu} (h : Built ulsch pduLen es pdu)
    (hallowed : ∀ e ∈ es', e.Allowed ulsch) (hadd : Element.addAll pdu es' = some pdu') :
    Built ulsch pduLen (es ++ es') pdu' := by
  induction es' generalizing es pdu with
  | nil =>
    rw [append_nil, ← Option.some.inj hadd]
    exact h
  | cons e es' ih =>
    obtain ⟨next, hnext, hrest⟩ := Option.bind_eq_some_iff.mp hadd
    have hadded := h.add (hallowed e (by simp)) hnext
    have hall := ih hadded (fun e' he' => hallowed e' (by simp [he'])) hrest
    rwa [append_assoc] at hall

theorem unpackLoop_of_read
    (hlt : offset < len) (hread : SchSubpdu.readSubheader ulsch mem offset = some s) :
    unpackLoop ulsch mem len offset acc =
      if s.lcid = padding then
        unpackLoop ulsch mem len len (acc ++ [s.setPadding (len - (offset + s.totalLength) + 1)])
      else unpackLoop ulsch mem len (offset + s.totalLength) (acc ++ [s]) := by
  rw [unpackLoop, if_pos hlt]
  split
  · next h => exact absurd (hread.symm.trans h) (by simp)
  rename_i s' h
  have heq : s = s' := Option.some.inj (hread.symm.trans h)
  subst heq
  rfl

theorem unpackLoop_written {ss : List SchSubpdu} {rest : List UInt8}
    (hwritten : ∀ s ∈ ss, s.Written ulsch)
    (hmem : Holds mem offset (ss.flatMap SchSubpdu.writeSubpdu ++ rest))
    (hlen : offset + (ss.flatMap SchSubpdu.writeSubpdu).length ≤ len) :
    ∃ ss', Forall₂ SchSubpdu.Copy ss ss' ∧
      unpackLoop ulsch mem len offset acc =
        unpackLoop ulsch mem len (offset + (ss.flatMap SchSubpdu.writeSubpdu).length)
          (acc ++ ss') := by
  induction ss generalizing offset acc with
  | nil => exact ⟨[], Forall₂.nil, by simp⟩
  | cons s ss ih =>
    have hs := hwritten s (by simp)
    rw [flatMap_cons, append_assoc, holds_append] at hmem
    rw [flatMap_cons, length_append] at hlen
    obtain ⟨s', hread, hcopy, htotal⟩ := hs.read hmem.1
    have hpos := SchSubpdu.totalLength_pos hread
    have hslen := SchSubpdu.length_writeSubpdu hs.headerLength_eq
    obtain ⟨ss', hcopies, hrest⟩ := @ih (offset + s.writeSubpdu.length) (acc ++ [s'])
      (fun t ht => hwritten t (by simp [ht])) hmem.2 (by omega)
    refine ⟨s' :: ss', Forall₂.cons hcopy hcopies, ?_⟩
    rw [unpackLoop_of_read (by omega) hread, if_neg (by rw [hcopy.lcid]; exact hs.not_padding),
      htotal, ← hslen, hrest, flatMap_cons, length_append, add_assoc,
      append_assoc, singleton_append]

/-- The padding sub-PDU: no bytes, if no space is left. -/
def paddingBytes (remaining : ℕ) : List UInt8 :=
  if remaining = 0 then [] else (SchSubpdu.init.setPadding remaining).writeSubpdu

theorem length_paddingBytes (remaining : ℕ) : (paddingBytes remaining).length = remaining := by
  unfold paddingBytes
  split
  · next hzero => rw [hzero, length_nil]
  rename_i hpos
  rw [SchSubpdu.length_writeSubpdu rfl]
  change 1 + (remaining - 1) = remaining
  omega

theorem Built.contents_pack (h : Built ulsch pduLen es pdu) : pdu.pack.buffer.contents =
      (es.flatMap fun e => (e.subpdu ulsch).writeSubpdu) ++ paddingBytes pdu.remainingLen := by
  unfold SchPdu.pack paddingBytes
  split
  · rw [append_nil, h.contents]
  · rw [SchPdu.contents_put rfl, h.contents]

theorem unpackLoop_padding {remaining : ℕ} (hmem : Holds mem offset (paddingBytes remaining)) :
    ∃ pad, (pad = [] ∨ ∃ s, pad = [s] ∧ s.lcid = padding) ∧
      unpackLoop ulsch mem (offset + remaining) offset acc = (acc ++ pad, true) := by
  by_cases hzero : remaining = 0
  · refine ⟨[], .inl rfl, ?_⟩
    rw [hzero, unpackLoop, if_neg (by omega)]
    simp
  rw [paddingBytes, if_neg hzero, SchSubpdu.writeSubpdu, holds_cons] at hmem
  have hflags : mem offset = 0x3F := by
    rw [hmem.1]
    change (if false then 1 else 0 : UInt8) <<< 6 ||| (ofNat padding &&& 0x3F) = 0x3F
    decide
  let s : SchSubpdu := ⟨padding, 1, 0, false, some fun i => mem (offset + 1 + i)⟩
  have hread : SchSubpdu.readSubheader ulsch mem offset = some s := by
    unfold SchSubpdu.readSubheader
    rw [hflags]
    cases ulsch with
    | true => rfl
    | false => rfl
  refine ⟨[s.setPadding (offset + remaining - (offset + s.totalLength) + 1)],
    .inr ⟨_, rfl, rfl⟩, ?_⟩
  rw [unpackLoop_of_read (by omega) hread, if_pos rfl, unpackLoop, if_neg (by omega)]
  simp

end

/-- If every element was added to an empty buffer with success, the packed PDU has its length and is
read as these elements in order, and at most one padding sub-PDU. -/
theorem unpack_pack {ulsch : Bool} {buffer : ByteBuffer} {pduLen : ℕ} {es : List Element}
    {pdu : SchPdu} (hempty : buffer.nBytes = 0) (hallowed : ∀ e ∈ es, e.Allowed ulsch)
    (hadd : Element.addAll (SchPdu.initTx buffer pduLen ulsch) es = some pdu) :
    pdu.pack.buffer.contents.length = pduLen ∧
      ∃ subpdus pad, unpack ulsch pdu.pack.buffer.byte pduLen = (subpdus ++ pad, true) ∧
        List.Forall₂ (fun e s => e.ShownBy ulsch s) es subpdus ∧
        (pad = [] ∨ ∃ s, pad = [s] ∧ s.lcid = padding) := by
  have hinit : Built ulsch pduLen [] (SchPdu.initTx buffer pduLen ulsch) := by
    refine ⟨rfl, ?_, ?_⟩
    · apply eq_nil_of_length_eq_zero
      rw [length_contents]
      exact hempty
    · change buffer.nBytes + pduLen = pduLen
      rw [hempty, zero_add]
  have hbuilt := hinit.addAll hallowed hadd
  rw [nil_append] at hbuilt
  set bytes := es.flatMap fun e => (e.subpdu ulsch).writeSubpdu with hbytes
  have hlen : bytes.length + pdu.remainingLen = pduLen := by
    rw [hbytes, ← hbuilt.contents, length_contents]
    exact hbuilt.remaining
  have hcontents := hbuilt.contents_pack
  rw [← hbytes] at hcontents
  have hholds : Holds pdu.pack.buffer.byte 0 (bytes ++ paddingBytes pdu.remainingLen) := by
    rw [← hcontents, Holds, length_contents]
    simp [slice, contents]
  have hmap : bytes = (es.map fun e => e.subpdu ulsch).flatMap SchSubpdu.writeSubpdu := by
    rw [hbytes, flatMap_map]
  refine ⟨?_, ?_⟩
  · rw [hcontents, length_append, length_paddingBytes, hlen]
  · rw [hmap] at hholds hlen
    obtain ⟨subpdus, hcopies, hloop⟩ := @unpackLoop_written _ pduLen ulsch 0 [] _ _
      (forall_mem_map.mpr fun e he => (hallowed e he).written) hholds
      (by rw [zero_add]; exact Nat.le.intro hlen)
    rw [zero_add, nil_append] at hloop
    rw [holds_append, zero_add] at hholds
    obtain ⟨pad, hpad, hend⟩ := @unpackLoop_padding _ ulsch _ subpdus _ hholds.2
    rw [hlen] at hend
    exact ⟨subpdus, pad, hloop.trans hend, Element.shownBy_of_copies hallowed hcopies, hpad⟩

/-- A C-RNTI and an SDU, with two bytes of padding. -/
theorem unpack_pack_crnti_sdu :
    ∃ pdu, Element.addAll (SchPdu.initTx ⟨fun _ => 0xFF, bufferHeaderOffset, 0⟩ 10 true)
        [.crntiCe 0x4601, .sdu 4 [1, 2, 3]] = some pdu ∧
      ∃ subpdus pad, unpack true pdu.pack.buffer.byte 10 = (subpdus ++ pad, true) ∧
        List.Forall₂ (fun (e : Element) s => e.ShownBy true s)
          [.crntiCe 0x4601, .sdu 4 [1, 2, 3]] subpdus ∧
        (pad = [] ∨ ∃ s, pad = [s] ∧ s.lcid = padding) := by
  refine ⟨_, rfl, (unpack_pack rfl ?_ rfl).2⟩
  intro e he
  simp only [mem_cons, not_mem_nil, or_false] at he
  rcases he with rfl | rfl
  · exact ⟨rfl, by decide⟩
  · exact .inr ⟨by decide, by decide, by decide, by decide⟩

end MbmsTx.Mac.Nr
