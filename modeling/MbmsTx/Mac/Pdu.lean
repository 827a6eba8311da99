import Mathlib.Algebra.BigOperators.Group.List.Basic
import Mathlib.Algebra.Order.Group.Nat
import MbmsTx.Common.ByteBuffer

/-!
# MAC PDUs

A MAC PDU is built from subheaders: control elements (CE) keep their payload in the subheader, the
payload of an SDU is copied into the transmit buffer at once. `remLen` counts the free bytes;
`writePacket` puts the subheaders in front of the payload and fills the rest with padding.

The account has a one-byte header for the last SDU (`headerSz`), which only a padding subheader
behind it makes longer. While it balances (`Balanced`), `writePacket` produces a PDU of the
requested length. `setSdu` reserves the space of an SDU by a second test, when the payload is
already in the buffer: an SDU longer than the tailroom left then stays unaccounted for, and no PDU
is produced.
-/

namespace MbmsTx.Mac

open ByteBuffer List

/-- `subh_type`. -/
inductive SubhType
  | sch
  | mch
  deriving DecidableEq

/-- `mch_lcid::MCH_SCHED_INFO`. -/
def mchSchedInfoLcid : ℕ := 0b11110

/-- `PADDING`, in all LCID tables. -/
def paddingLcid : ℕ := 0b11111

/-- `mch_lcid::MTCH_MAX_LCID`. -/
def mtchMaxLcid : ℕ := 0b11100

def mtchStopEmpty : ℕ := 0b11111111111

/-- `sch_subh`. -/
structure SchSubh where
  type : SubhType
  lcid : ℕ
  nofBytes : ℕ
  nofMchSchedCe : ℕ
  wPayloadCe : List UInt8
  deriving DecidableEq

namespace SchSubh

def init (type : SubhType) : SchSubh :=
  { type := type
    lcid := 0
    nofBytes := 0
    nofMchSchedCe := 0
    wPayloadCe := replicate 64 0 }

/-- `is_sdu`: below the reserved LCID, or for the multicast channel below the control elements. -/
def isSdu (s : SchSubh) : Bool :=
  match s.type with
  | .mch => s.lcid < mchSchedInfoLcid
  | .sch => s.lcid ≤ 0b10001

def isVarLenCe (s : SchSubh) : Bool := s.lcid = mchSchedInfoLcid && s.type = .mch

end SchSubh

def sizeHeaderSdu (nbytes : ℕ) : ℕ :=
  if nbytes = 0 then 0 else if nbytes < 128 then 2 else 3

namespace SchSubh

def getHeaderSize (s : SchSubh) (isLast : Bool) : ℕ :=
  if ¬ isLast then
    if s.isSdu ∨ (s.lcid = mchSchedInfoLcid ∧ s.type = .mch) then sizeHeaderSdu s.nofBytes else 1
  else 1

/-- `ce_size` of an uplink LCID. -/
def ceSizeUl : ℕ → ℕ
  | 0b11010 | 0b11100 | 0b11101 => 1
  | 0b11011 => 2
  | 0b11110 => 3
  | _ => 0

/-- `ce_size` of a downlink LCID. -/
def ceSizeDl : ℕ → ℕ
  | 0b11000 => 4
  | 0b11011 | 0b11101 => 1
  | 0b11100 => 6
  | _ => 0

def sizeofCe (s : SchSubh) (isUl : Bool) : ℕ :=
  match s.type with
  | .sch => if isUl then ceSizeUl s.lcid else ceSizeDl s.lcid
  | .mch => if s.lcid = mchSchedInfoLcid then s.nofMchSchedCe * 2 else 0

def writeSubheader (s : SchSubh) (isLast : Bool) : List UInt8 :=
  ((if isLast then (0 : UInt8) else 0x20) ||| (UInt8.ofNat s.lcid &&& 0x1F)) ::
    if (s.isSdu || s.isVarLenCe) && ¬ isLast then
      if 128 ≤ s.nofBytes then
        [(0x80 : UInt8) ||| UInt8.ofNat ((s.nofBytes &&& 0x7F00) >>> 8), UInt8.ofNat s.nofBytes]
      else [UInt8.ofNat s.nofBytes &&& 0x7F]
    else []

/-- `write_payload` of a control element. -/
def writePayload (s : SchSubh) (isUl : Bool) : List UInt8 := s.wPayloadCe.take (s.sizeofCe isUl)

/-- `set_padding` on a new subheader. -/
def padding (paddingLen : ℕ) : SchSubh :=
  { init .sch with
      lcid := paddingLcid
      nofBytes := paddingLen }

/-- The entry that `set_next_mch_sched_info` adds to the payload. -/
def addMchSchedInfo (s : SchSubh) (lcid mtchStop : ℕ) : SchSubh :=
  let stop := if mtchStop ≠ 0 then mtchStop else mtchStopEmpty
  { s with
      wPayloadCe :=
        (s.wPayloadCe.set (s.nofMchSchedCe * 2)
          (UInt8.ofNat ((lcid &&& 0x1F) <<< 3) ||| UInt8.ofNat ((stop &&& 0x0700) >>> 8))).set
          (s.nofMchSchedCe * 2 + 1) (UInt8.ofNat (stop &&& 0xFF))
      nofMchSchedCe := s.nofMchSchedCe + 1
      lcid := mchSchedInfoLcid }

end SchSubh

/-! ## Building a PDU -/

/-- A PDU under construction. `subheaders` are those in use, the last one is the current one. -/
structure MacPdu where
  type : SubhType
  maxSubheaders : ℕ
  subheaders : List SchSubh
  pduLen : ℕ
  remLen : ℕ
  lastSduIdx : Option ℕ
  pduIsUl : Bool
  bufferTx : ByteBuffer

namespace MacPdu

def initTx (type : SubhType) (maxSubheaders : ℕ) (buffer : ByteBuffer) (pduLenBytes : ℕ)
    (isUlsch : Bool) : MacPdu :=
  { type := type
    maxSubheaders := maxSubheaders
    subheaders := []
    pduLen := pduLenBytes
    remLen := pduLenBytes
    lastSduIdx := none
    pduIsUl := isUlsch
    bufferTx := buffer }

/-- `new_subh`; a refused one leaves the PDU as it is. -/
def newSubh (p : MacPdu) : MacPdu :=
  if p.subheaders.length < p.maxSubheaders - 1 ∧ 2 ≤ p.remLen ∧ 1 < p.bufferTx.headroom then
    { p with subheaders := p.subheaders ++ [.init p.type] }
  else p

/-- Change the current subheader. -/
def modifyCurrent (p : MacPdu) (f : SchSubh → SchSubh) : MacPdu :=
  { p with subheaders := p.subheaders.modify (p.subheaders.length - 1) f }

/-- The size of the subheader of the last SDU when another one follows, or 1 without an SDU: what
`get_sdu_space` and `update_space_sdu` charge for the header of a new SDU. -/
def newSduHeader (p : MacPdu) : ℕ :=
  match p.lastSduIdx with
  | none => 1
  | some i => sizeHeaderSdu ((p.subheaders[i]?.map (·.nofBytes)).getD 0)

def getSduSpace (p : MacPdu) : ℕ := min (p.remLen - p.newSduHeader) p.bufferTx.tailroom

def hasSpaceSdu (p : MacPdu) (nbytes : ℕ) : Bool := nbytes ≤ p.getSduSpace

def updateSpaceSdu (p : MacPdu) (nbytes : ℕ) : MacPdu :=
  if p.hasSpaceSdu nbytes then
    { p with
        remLen := p.remLen - (nbytes + p.newSduHeader)
        lastSduIdx := some (p.subheaders.length - 1) }
  else p

/-- `set_sdu` with the payload at hand. -/
def setSdu (p : MacPdu) (lcid : ℕ) (payload : List UInt8) : MacPdu :=
  if p.hasSpaceSdu payload.length then
    let p := p.modifyCurrent fun s => { s with lcid := lcid }
    -- the payload is added before its space is reserved
    let p := { p with bufferTx := p.bufferTx.append payload }
    (p.updateSpaceSdu payload.length).modifyCurrent fun s =>
      { s with nofBytes := payload.length }
  else p

def hasSpaceCe (p : MacPdu) (nbytes : ℕ) (varLen : Bool) : Bool :=
  nbytes + (if varLen then sizeHeaderSdu nbytes else 1) ≤ p.remLen

/-- `update_space_ce`, which always tests for a header of one byte. -/
def updateSpaceCe (p : MacPdu) (nbytes : ℕ) (varLen : Bool) : MacPdu :=
  if p.hasSpaceCe nbytes false then
    { p with remLen := p.remLen - (nbytes + if varLen then sizeHeaderSdu nbytes else 1) }
  else p

def setNextMchSchedInfo (p : MacPdu) (lcid mtchStop : ℕ) : MacPdu :=
  if p.hasSpaceCe 2 true then
    let p := p.modifyCurrent fun s => s.addMchSchedInfo lcid mtchStop
    (p.updateSpaceCe 2 true).modifyCurrent fun s => { s with nofBytes := s.nofBytes + 2 }
  else p

/-! ## Writing the PDU -/

/-- The size of the subheaders; the one at index `last` has no length field. -/
def headerSz (subheaders : List SchSubh) (last : Option ℕ) : ℕ :=
  (subheaders.mapIdx fun i s => s.getHeaderSize (last = some i)).sum

/-- The size of the payload of the control elements. -/
def cePayloadSz (subheaders : List SchSubh) : ℕ :=
  ((subheaders.filter fun s => !s.isSdu).map (·.nofBytes)).sum

/-- The subheaders of multi-byte padding: its own, and the length field of the last SDU. -/
def lastSduHeader (p : MacPdu) : ℕ :=
  match p.lastSduIdx with
  | none => 1
  | some i => (p.subheaders[i]?.map (·.getHeaderSize false)).getD 1

/-- More than two free bytes become padding behind the last SDU. -/
def multibytePadding (p : MacPdu) : Bool := 2 < p.remLen

/-- The bytes of multi-byte padding. -/
def numPadding (p : MacPdu) : ℕ :=
  if p.multibytePadding then p.remLen - p.lastSduHeader else 0

/-- One or two free bytes become padding subheaders in front. -/
def onetwoPadding (p : MacPdu) : ℕ := if p.multibytePadding then 0 else p.remLen

/-- The size of the subheaders and the control elements. -/
def totalHeaderSize (p : MacPdu) : ℕ :=
  headerSz p.subheaders (if p.multibytePadding then none else p.lastSduIdx) +
    (if p.multibytePadding then 1 else p.onetwoPadding) + cePayloadSz p.subheaders

/-- The subheaders and the control elements, in the order written. -/
def headerBytes (p : MacPdu) : List UInt8 :=
  let ceOnly : Bool := p.lastSduIdx = none
  let last := p.subheaders.length - 1
  (replicate p.onetwoPadding
      ((SchSubh.padding 0).writeSubheader (¬ p.onetwoPadding < p.pduLen))).flatten ++
    (p.subheaders.mapIdx fun i s =>
      if s.isSdu then []
      else s.writeSubheader (ceOnly && !p.multibytePadding && i = last)).flatten ++
    (if ceOnly then []
    else
      (p.subheaders.mapIdx fun i s =>
        if s.isSdu then s.writeSubheader (!p.multibytePadding && p.lastSduIdx = some i)
        else []).flatten) ++
    (if p.multibytePadding then (SchSubh.padding p.numPadding).writeSubheader true else []) ++
    ((p.subheaders.filter fun s => !s.isSdu).map (·.writePayload p.pduIsUl)).flatten

/-- `write_packet`: the buffer, or `none` for a null pointer. -/
def writePacket (p : MacPdu) : Option ByteBuffer :=
  if p.bufferTx.headroom < p.totalHeaderSize then none
  else
    let buffer := p.bufferTx.rewind p.totalHeaderSize
    let buffer := buffer.write buffer.msg p.headerBytes
    if buffer.tailroom < p.numPadding then none
    else
      let buffer := buffer.append (replicate p.numPadding 0)
      if buffer.nBytes ≠ p.pduLen then none else some buffer

/-! ## The account of a PDU -/

@[simp] theorem headerSz_nil (last : Option ℕ) : headerSz [] last = 0 := rfl

variable (s : SchSubh) (l : List SchSubh)

@[simp] theorem headerSz_cons_none :
    headerSz (s :: l) none = s.getHeaderSize false + headerSz l none := by
  simp [headerSz]

@[simp] theorem headerSz_cons_zero :
    headerSz (s :: l) (some 0) = s.getHeaderSize true + headerSz l none := by
  simp [headerSz]

@[simp] theorem headerSz_cons_succ (i : ℕ) :
    headerSz (s :: l) (some (i + 1)) = s.getHeaderSize false + headerSz l (some i) := by
  simp [headerSz]

theorem headerSz_concat (last : Option ℕ) :
    headerSz (l ++ [s]) last = headerSz l last + s.getHeaderSize (last = some l.length) := by
  simp [headerSz, mapIdx_append]

variable {i : ℕ}

theorem headerSz_of_length_le (hi : l.length ≤ i) : headerSz l (some i) = headerSz l none := by
  induction l generalizing i with
  | nil => rfl
  | cons s l ih =>
    obtain ⟨j, rfl⟩ : ∃ j, i = j + 1 := ⟨i - 1, by simp at hi; omega⟩
    rw [headerSz_cons_succ, headerSz_cons_none, ih (by simpa using hi)]

variable {s : SchSubh}

theorem headerSz_none_eq {l : List SchSubh} (hs : l[i]? = some s) :
    headerSz l none + 1 = headerSz l (some i) + s.getHeaderSize false := by
  induction l generalizing i with
  | nil => simp at hs
  | cons t l ih =>
    cases i with
    | zero =>
      obtain rfl : t = s := by simpa using hs
      have hone : t.getHeaderSize true = 1 := by rfl
      rw [headerSz_cons_none, headerSz_cons_zero, hone]
      omega
    | succ i =>
      have := ih (by simpa using hs)
      rw [headerSz_cons_none, headerSz_cons_succ]
      omega

@[simp] theorem cePayloadSz_concat :
    cePayloadSz (l ++ [s]) = cePayloadSz l + if s.isSdu then 0 else s.nofBytes := by
  cases h : s.isSdu <;> simp [cePayloadSz, h]

/-- The account balances: the payload in the buffer, the subheaders with a short header for the last
SDU, the payload of the control elements and the free bytes make up the PDU. -/
structure Balanced (p : MacPdu) : Prop where
  account : p.bufferTx.nBytes + headerSz p.subheaders p.lastSduIdx + cePayloadSz p.subheaders +
    p.remLen = p.pduLen
  lastSdu : ∀ i, p.lastSduIdx = some i →
    ∃ s, p.subheaders[i]? = some s ∧ s.isSdu = true ∧ 0 < s.nofBytes

theorem balanced_initTx (type : SubhType) (maxSubheaders : ℕ) {buffer : ByteBuffer} (pduLen : ℕ)
    (isUl : Bool) (hbuffer : buffer.nBytes = 0) :
    (initTx type maxSubheaders buffer pduLen isUl).Balanced :=
  ⟨by simp [initTx, hbuffer, cePayloadSz], by simp [initTx]⟩

variable {p : MacPdu}

theorem Balanced.headerSz_eq (h : p.Balanced) :
    headerSz p.subheaders none + 1 = headerSz p.subheaders p.lastSduIdx + p.newSduHeader ∧
      p.lastSduHeader = p.newSduHeader ∧ 1 ≤ p.newSduHeader ∧ p.newSduHeader ≤ 3 := by
  cases hlast : p.lastSduIdx with
  | none => simp [newSduHeader, lastSduHeader, hlast]
  | some i =>
    obtain ⟨s, hs, hsdu, hpos⟩ := h.lastSdu i hlast
    have hsize : s.getHeaderSize false = sizeHeaderSdu s.nofBytes := by
      simp [SchSubh.getHeaderSize, hsdu]
    have hbounds : 1 ≤ sizeHeaderSdu s.nofBytes ∧ sizeHeaderSdu s.nofBytes ≤ 3 := by
      unfold sizeHeaderSdu
      split_ifs <;> omega
    have hnew : p.newSduHeader = sizeHeaderSdu s.nofBytes := by
      simp [newSduHeader, hlast, hs]
    have hlastHeader : p.lastSduHeader = sizeHeaderSdu s.nofBytes := by
      simp [lastSduHeader, hlast, hs, hsize]
    rw [hnew, hlastHeader, ← hsize]
    exact ⟨headerSz_none_eq hs, rfl, by omega⟩

/-- The buffer that `write_packet` fills. -/
def written (p : MacPdu) : ByteBuffer :=
  ((p.bufferTx.rewind p.totalHeaderSize).write (p.bufferTx.rewind p.totalHeaderSize).msg
    p.headerBytes).append (replicate p.numPadding 0)

@[simp] theorem written_nBytes (p : MacPdu) :
    p.written.nBytes = p.bufferTx.nBytes + p.totalHeaderSize + p.numPadding := by
  simp [written]

/-- When `write_packet` returns a PDU. -/
theorem writePacket_eq (p : MacPdu) : p.writePacket =
      if p.totalHeaderSize ≤ p.bufferTx.msg ∧ p.numPadding ≤ p.bufferTx.tailroom ∧
        p.bufferTx.nBytes + p.totalHeaderSize + p.numPadding = p.pduLen
      then some p.written
      else none := by
  by_cases hhead : p.totalHeaderSize ≤ p.bufferTx.msg
  · have hwritten := p.written_nBytes
    unfold written at hwritten ⊢
    simp only [writePacket, headroom, write_tailroom,
      rewind_tailroom _ hhead, if_neg hhead.not_gt, hwritten, hhead, true_and]
    by_cases htail : p.numPadding ≤ p.bufferTx.tailroom
    · simp [htail, htail.not_gt]
    · simp [htail, Nat.lt_of_not_le htail]
  · simp [writePacket, headroom, hhead, Nat.lt_of_not_le hhead]

theorem writePacket_eq_some_iff {buffer : ByteBuffer} : p.writePacket = some buffer ↔
    (p.totalHeaderSize ≤ p.bufferTx.msg ∧ p.numPadding ≤ p.bufferTx.tailroom ∧
      p.bufferTx.nBytes + p.totalHeaderSize + p.numPadding = p.pduLen) ∧ p.written = buffer := by
  rw [writePacket_eq, Option.ite_none_right_eq_some, Option.some.injEq]

/-- A balanced PDU is written with its length. -/
theorem Balanced.total (h : p.Balanced) :
    p.bufferTx.nBytes + p.totalHeaderSize + p.numPadding = p.pduLen := by
  have haccount := h.account
  obtain ⟨hheader, hlastHeader, hpos, hle⟩ := h.headerSz_eq
  by_cases hmulti : p.multibytePadding
  · have hrem : 2 < p.remLen := by simpa [multibytePadding] using hmulti
    have htotal : p.totalHeaderSize =
        headerSz p.subheaders none + 1 + cePayloadSz p.subheaders := by
      simp [totalHeaderSize, hmulti]
    have hpadding : p.numPadding = p.remLen - p.newSduHeader := by
      simp [numPadding, hmulti, hlastHeader]
    omega
  · have htotal : p.totalHeaderSize =
        headerSz p.subheaders p.lastSduIdx + p.remLen + cePayloadSz p.subheaders := by
      simp [totalHeaderSize, onetwoPadding, hmulti]
    have hpadding : p.numPadding = 0 := by simp [numPadding, hmulti]
    omega

theorem Balanced.totalHeaderSize_le (h : p.Balanced) :
    p.totalHeaderSize ≤ headerSz p.subheaders none + cePayloadSz p.subheaders + 3 := by
  obtain ⟨hheader, -, hpos, -⟩ := h.headerSz_eq
  unfold totalHeaderSize onetwoPadding multibytePadding
  by_cases hmulti : 2 < p.remLen
  · simp [hmulti]
    omega
  · simp [hmulti]
    omega

theorem Balanced.writePacket (h : p.Balanced) (hmsg : p.bufferTx.msg = bufferHeaderOffset)
    (hlen : p.pduLen ≤ emptyTailroom)
    (hroom : headerSz p.subheaders none + cePayloadSz p.subheaders + 3 ≤ bufferHeaderOffset) :
    ∃ buffer, p.writePacket = some buffer ∧ buffer.nBytes = p.pduLen := by
  have htotal := h.total
  -- the padding fits behind the payload, since both are part of the PDU
  have htailroom := ByteBuffer.tailroom_eq hmsg (by omega)
  have hheader := h.totalHeaderSize_le
  exact ⟨_, writePacket_eq_some_iff.mpr ⟨⟨by omega, by omega, htotal⟩, rfl⟩,
    by rw [written_nBytes, htotal]⟩

/-! ## Filling a new subheader -/

variable {p : MacPdu} {l : List SchSubh} {t : SubhType}

@[simp] theorem modify_last (f : SchSubh → SchSubh) :
    (l ++ [s]).modify l.length f = l ++ [f s] := by
  induction l with
  | nil => rfl
  | cons t l ih => simpa using ih

@[simp] theorem SchSubh.isSdu_init (t : SubhType) : (SchSubh.init t).isSdu := by
  cases t <;> rfl

@[simp] theorem SchSubh.getHeaderSize_init (t : SubhType) :
    (SchSubh.init t).getHeaderSize false = 0 := by
  cases t <;> rfl

theorem Balanced.lastSduIdx_ne (h : p.Balanced) : p.lastSduIdx ≠ some p.subheaders.length := by
  intro hidx
  obtain ⟨s, hs, -⟩ := h.lastSdu _ hidx
  simp at hs

theorem Balanced.lastSdu_concat (h : p.Balanced) (s : SchSubh) (hi : p.lastSduIdx = some i) :
    ∃ last, (p.subheaders ++ [s])[i]? = some last ∧ last.isSdu ∧ 0 < last.nofBytes := by
  obtain ⟨last, hlast, hlast'⟩ := h.lastSdu i hi
  have hlt : i < p.subheaders.length := (List.getElem?_eq_some_iff.mp hlast).1
  exact ⟨last, by rwa [getElem?_append_left hlt], hlast'⟩

theorem Balanced.concat_init (h : p.Balanced) (t : SubhType) :
    ({ p with subheaders := p.subheaders ++ [.init t] } : MacPdu).Balanced := by
  refine ⟨?_, fun i hi => h.lastSdu_concat (.init t) hi⟩
  simpa [headerSz_concat, h.lastSduIdx_ne] using h.account

/-- A control element with `charge` bytes in all. -/
theorem Balanced.addCe (h : p.Balanced) (hsdu : s.isSdu = false) {charge : ℕ}
    (hcharge : s.getHeaderSize false + s.nofBytes = charge) (hrem : charge ≤ p.remLen) :
    ({ p with
        subheaders := p.subheaders ++ [s]
        remLen := p.remLen - charge } : MacPdu).Balanced := by
  have haccount := h.account
  refine ⟨?_, fun i hi => h.lastSdu_concat s hi⟩
  simp [headerSz_concat, h.lastSduIdx_ne, cePayloadSz_concat, hsdu]
  omega

theorem Balanced.addSdu (h : p.Balanced) {payload : List UInt8} (hsdu : s.isSdu)
    (hbytes : s.nofBytes = payload.length) (hpos : 0 < payload.length)
    (hrem : payload.length + p.newSduHeader ≤ p.remLen) :
    ({ p with
        subheaders := p.subheaders ++ [s]
        bufferTx := p.bufferTx.append payload
        remLen := p.remLen - (payload.length + p.newSduHeader)
        lastSduIdx := some p.subheaders.length } : MacPdu).Balanced := by
  have haccount := h.account
  have hheader := h.headerSz_eq.1
  have hone : s.getHeaderSize true = 1 := by rfl
  refine ⟨?_, ?_⟩
  · simp [append_nBytes, headerSz_concat, headerSz_of_length_le _ le_rfl, hone,
      cePayloadSz_concat, hsdu]
    omega
  · rintro i ⟨rfl⟩
    exact ⟨s, by simp, hsdu, hbytes ▸ hpos⟩

theorem Balanced.addUnreserved (h : p.Balanced) {payload : List UInt8}
    (hsdu : s.isSdu) (hbytes : s.nofBytes = payload.length) :
    ({ p with
        subheaders := p.subheaders ++ [s]
        bufferTx := p.bufferTx.append payload
        pduLen := p.pduLen + (payload.length + sizeHeaderSdu payload.length) } :
      MacPdu).Balanced := by
  have haccount := h.account
  have hsize : s.getHeaderSize false = sizeHeaderSdu payload.length := by
    simp [SchSubh.getHeaderSize, hsdu, hbytes]
  refine ⟨?_, fun i hi => h.lastSdu_concat s hi⟩
  simp [append_nBytes, headerSz_concat, h.lastSduIdx_ne, hsize, cePayloadSz_concat, hsdu]
  omega

theorem setNextMchSchedInfo_new (lcid mtchStop : ℕ) (hsub : p.subheaders = l ++ [.init .mch]) :
    p.setNextMchSchedInfo lcid mtchStop = p ∨
      4 ≤ p.remLen ∧ p.setNextMchSchedInfo lcid mtchStop =
        { p with
            subheaders := l ++ [{ (SchSubh.init .mch).addMchSchedInfo lcid mtchStop with
              nofBytes := 2 }]
            remLen := p.remLen - 4 } := by
  by_cases hspace : p.hasSpaceCe 2 true
  · right
    have hrem : 4 ≤ p.remLen := by simpa [hasSpaceCe, sizeHeaderSdu] using hspace
    have hthree : 3 ≤ p.remLen := by omega
    refine ⟨hrem, ?_⟩
    rw [setNextMchSchedInfo, if_pos hspace]
    simp [modifyCurrent, updateSpaceCe, hasSpaceCe, hthree, sizeHeaderSdu, hsub]
    rfl
  · left
    rw [setNextMchSchedInfo, if_neg hspace]

theorem newSduHeader_concat (hlast : p.lastSduIdx ≠ some p.subheaders.length) (s : SchSubh)
    (buffer : ByteBuffer) :
    ({ p with
        subheaders := p.subheaders ++ [s]
        bufferTx := buffer } : MacPdu).newSduHeader = p.newSduHeader := by
  cases hidx : p.lastSduIdx with
  | none => simp only [newSduHeader, hidx]
  | some i =>
    have hne : i ≠ p.subheaders.length := fun h => hlast (by rw [hidx, h])
    have hget : (p.subheaders ++ [s])[i]? = p.subheaders[i]? := by
      rcases Nat.lt_or_gt_of_ne hne with hlt | hgt
      · exact getElem?_append_left hlt
      · rw [getElem?_eq_none (by simp; omega), getElem?_eq_none (by omega)]
    simp only [newSduHeader, hidx, hget]

/-- An SDU in a new subheader is refused, or taken with its space reserved, or, if it is longer than
the tailroom behind it, taken without. -/
theorem setSdu_new (lcid : ℕ) (payload : List UInt8) (hsub : p.subheaders = l ++ [.init t])
    (hlast : p.lastSduIdx ≠ some l.length) :
    p.setSdu lcid payload =
      if payload.length ≤ p.getSduSpace then
        { p with
            subheaders := l ++ [{ SchSubh.init t with
              lcid := lcid
              nofBytes := payload.length }]
            bufferTx := p.bufferTx.append payload
            remLen :=
              if payload.length ≤ (p.bufferTx.append payload).tailroom then
                p.remLen - (payload.length + p.newSduHeader)
              else p.remLen
            lastSduIdx :=
              if payload.length ≤ (p.bufferTx.append payload).tailroom then some l.length
              else p.lastSduIdx }
      else p := by
  by_cases hspace : payload.length ≤ p.getSduSpace
  case neg =>
    rw [if_neg hspace, setSdu, hasSpaceSdu, if_neg (by simpa using hspace)]
  have hheader : ∀ (s : SchSubh) (buffer : ByteBuffer),
      ({ p with subheaders := l ++ [s], bufferTx := buffer } : MacPdu).newSduHeader =
        ({ p with subheaders := l } : MacPdu).newSduHeader := fun s buffer =>
    @newSduHeader_concat { p with subheaders := l } hlast s buffer
  have hsame : p.newSduHeader = ({ p with subheaders := l } : MacPdu).newSduHeader := by
    rw [← hheader (.init t) p.bufferTx, ← hsub]
  have hrem := le_trans hspace (min_le_left _ _)
  rw [if_pos hspace, setSdu, hasSpaceSdu, if_pos (by simpa using hspace)]
  simp only [modifyCurrent, updateSpaceSdu, hasSpaceSdu, getSduSpace, hsub, length_append,
    length_singleton, Nat.add_sub_cancel, modify_last]
  rw [hheader, ← hsame]
  by_cases htail : payload.length ≤ (p.bufferTx.append payload).tailroom
  · simp [htail, hrem]
  · simp [htail]

end MacPdu

end MbmsTx.Mac
