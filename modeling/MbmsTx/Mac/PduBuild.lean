import Mathlib.Data.Rat.Floor
import MbmsTx.Mac.PduParse

/-!
# Building MAC PDUs of the shared channels

The `set_*` functions fill a subheader that was just opened. A control element costs one byte more
than its payload; an SDU costs its payload, one byte, and the length field of the SDU before it.

`Built` describes what a sequence of successful calls leaves: the subheaders in order, the payloads
in the buffer, and the length that `write_packet` is going to produce. That is the requested one as
long as the space of every SDU was reserved.
-/

namespace MbmsTx.Mac

open MbmsTx.Memory Option UInt8 SchSubh

/-! ## Control elements -/

/-- `btable`: the buffer size levels of a BSR. -/
def btable : List ℕ :=
  [0,1,10,12,14,17,19,22,26,31,36,42,49,57,67,78,91,107,125,146,171,200,234,274,321,376,440,515,603,
    706,826,967,1132,1326,1552,1817,2127,2490,2915,3413,3995,4667,5476,6411,7505,8787,10287,12043,
    14099,16507,19325,22624,26487,31009,36304,42502,49759,58255,68201,79846,93479,109439,128125,
    150000]

def buffSizeTable (bufferSize : ℕ) : ℕ :=
  if bufferSize = 0 then 0
  else if 150000 < bufferSize then 63
  else ((List.range' 1 61).find? fun i => bufferSize ≤ btable.getD (i + 1) 0).getD 62

/-- `phr_report_table`, for a value in dB. -/
def phrReportTable (phr : ℚ) : ℕ := ⌊max (-23) (min phr 40) + 23⌋.toNat

/-- The formats of a BSR. -/
inductive BsrFormat
  | trunc
  | short
  | long
  deriving DecidableEq

/-- The LCID of a BSR. -/
def BsrFormat.lcid : BsrFormat → ℕ
  | .trunc => 0b11100
  | .short => 0b11101
  | .long => 0b11110

/-- `update_bsr`: the payload of a BSR. -/
def updateBsr (buffSize : Fin 4 → ℕ) : BsrFormat → List UInt8
  | .long =>
    let level := fun i => buffSizeTable (buffSize i)
    [ofNat ((level 0 &&& 0x3F) <<< 2 ||| (level 1 &&& 0x30) >>> 4),
      ofNat ((level 1 &&& 0xF) <<< 4 ||| (level 2 &&& 0x3C) >>> 2),
      ofNat ((level 2 &&& 0x3) <<< 6 ||| (level 3 &&& 0x3F))]
  | _ =>
    let nonzeroLcg : Fin 4 :=
      if buffSize 3 ≠ 0 then 3 else if buffSize 2 ≠ 0 then 2 else if buffSize 1 ≠ 0 then 1 else 0
    [ofNat ((nonzeroLcg.val &&& 0x3) <<< 6 ||| (buffSizeTable (buffSize nonzeroLcg) &&& 0x3F))]

/-- The payload of a C-RNTI control element. -/
def cRntiBytes (crnti : ℕ) : List UInt8 :=
  [ofNat ((crnti &&& 0xFF00) >>> 8), ofNat (crnti &&& 0x00FF)]

/-- The payload of a power headroom report. -/
def phrBytes (phr : ℚ) : List UInt8 := [ofNat (phrReportTable phr &&& 0x3F)]

/-- The payload of a contention resolution identity. -/
def conResIdBytes (conResId : ℕ) : List UInt8 :=
  [ofNat ((conResId &&& 0xFF0000000000) >>> 40),
    ofNat ((conResId &&& 0x00FF00000000) >>> 32),
    ofNat ((conResId &&& 0x0000FF000000) >>> 24),
    ofNat ((conResId &&& 0x000000FF0000) >>> 16),
    ofNat ((conResId &&& 0x00000000FF00) >>> 8),
    ofNat (conResId &&& 0x0000000000FF)]

/-- The payload of a timing advance command. -/
def taCmdBytes (taCmd : ℕ) : List UInt8 := [ofNat (taCmd &&& 0x3F)]

/-- An activation command for the carriers; the first bit is reserved. -/
def scellActivationBytes (active : Fin 5 → Bool) : List UInt8 :=
  [ofNat ((active 1).toNat <<< 1 ||| (active 2).toNat <<< 2 ||| (active 3).toNat <<< 3 |||
    (active 4).toNat <<< 4)]

namespace MacPdu

/-- `new_subh`, where it succeeds. -/
def openSubh (p : MacPdu) : Option MacPdu :=
  if p.subheaders.length < p.maxSubheaders - 1 ∧ 2 ≤ p.remLen ∧ 1 < p.bufferTx.headroom then
    some p.newSubh
  else none

/-- The `set_*` function of a control element. -/
def setCe (p : MacPdu) (lcid : ℕ) (bytes : List UInt8) : Option MacPdu :=
  if p.hasSpaceCe bytes.length false then
    let p := p.modifyCurrent fun s =>
      { s with
          wPayloadCe := bytes ++ s.wPayloadCe.drop bytes.length
          lcid := lcid }
    some ((p.updateSpaceCe bytes.length false).modifyCurrent fun s =>
      { s with nofBytes := bytes.length })
  else none

def setBsr (p : MacPdu) (buffSize : Fin 4 → ℕ) (format : BsrFormat) : Option MacPdu :=
  p.setCe format.lcid (updateBsr buffSize format)

def setCRnti (p : MacPdu) (crnti : ℕ) : Option MacPdu := p.setCe 0b11011 (cRntiBytes crnti)

def setPhr (p : MacPdu) (phr : ℚ) : Option MacPdu := p.setCe 0b11010 (phrBytes phr)

def setConResId (p : MacPdu) (conResId : ℕ) : Option MacPdu :=
  p.setCe 0b11100 (conResIdBytes conResId)

def setTaCmd (p : MacPdu) (taCmd : ℕ) : Option MacPdu := p.setCe 0b11101 (taCmdBytes taCmd)

def setScellActivationCmd (p : MacPdu) (active : Fin 5 → Bool) : Option MacPdu :=
  p.setCe 0b11011 (scellActivationBytes active)

/-- `set_sdu` with the payload at hand, where it succeeds. -/
def trySetSdu (p : MacPdu) (lcid : ℕ) (payload : List UInt8) : Option MacPdu :=
  if p.hasSpaceSdu payload.length then some (p.setSdu lcid payload) else none

/-- `set_sdu` from an interface, which delivers `payload`. The space is reserved before. -/
def setSduRead (p : MacPdu) (lcid requestedBytes : ℕ) (payload : List UInt8) : Option MacPdu :=
  if p.hasSpaceSdu requestedBytes then
    if payload.length = 0 ∨ requestedBytes < payload.length then none
    else
      let p := p.modifyCurrent fun s => { s with lcid := lcid, nofBytes := payload.length }
      let p := p.updateSpaceSdu payload.length
      some { p with bufferTx := p.bufferTx.append payload }
  else none

end MacPdu

/-! ## Calls -/

/-- A control element of the shared channels. -/
inductive Ce
  | bsr (buffSize : Fin 4 → ℕ) (format : BsrFormat)
  | cRnti (crnti : ℕ)
  | phr (value : ℚ)
  | conResId (id : ℕ)
  | taCmd (cmd : ℕ)
  | scellActivation (active : Fin 5 → Bool)

namespace Ce

/-- Whether it is one of the uplink. -/
def isUl : Ce → Bool
  | .bsr _ _ | .cRnti _ | .phr _ => true
  | .conResId _ | .taCmd _ | .scellActivation _ => false

/-- The `set_*` function of the control element. -/
def set (p : MacPdu) : Ce → Option MacPdu
  | .bsr buffSize format => p.setBsr buffSize format
  | .cRnti crnti => p.setCRnti crnti
  | .phr value => p.setPhr value
  | .conResId id => p.setConResId id
  | .taCmd cmd => p.setTaCmd cmd
  | .scellActivation active => p.setScellActivationCmd active

/-- The LCID of a control element. -/
def lcid : Ce → ℕ
  | .bsr _ format => format.lcid
  | .cRnti _ => 0b11011
  | .phr _ => 0b11010
  | .conResId _ => 0b11100
  | .taCmd _ => 0b11101
  | .scellActivation _ => 0b11011

/-- The payload of a control element. -/
def bytes : Ce → List UInt8
  | .bsr buffSize format => updateBsr buffSize format
  | .cRnti crnti => cRntiBytes crnti
  | .phr value => phrBytes value
  | .conResId id => conResIdBytes id
  | .taCmd cmd => taCmdBytes cmd
  | .scellActivation active => scellActivationBytes active

theorem set_eq (c : Ce) (p : MacPdu) : c.set p = p.setCe c.lcid c.bytes := by
  cases c with
  | bsr | cRnti | phr | conResId | taCmd | scellActivation => rfl

theorem lcid_mem (c : Ce) : 0b11010 ≤ c.lcid ∧ c.lcid < 0b11111 := by
  cases c with
  | bsr _ format => cases format <;> simp [lcid, BsrFormat.lcid]
  | cRnti | phr | conResId | taCmd | scellActivation => simp [lcid]

theorem sizeofCe_eq (c : Ce) : (ofLcid .sch c.lcid).sizeofCe c.isUl = c.bytes.length := by
  cases c with
  | bsr _ format => cases format <;> rfl
  | cRnti | phr | conResId | taCmd | scellActivation => rfl

end Ce

/-- A call of a `set_*` function. -/
inductive SetOp
  | ce (c : Ce)
  | sdu (lcid : ℕ) (payload : List UInt8)
  | readSdu (lcid requestedBytes : ℕ) (payload : List UInt8)

namespace SetOp

/-- Open a subheader and fill it, if both succeed. -/
def apply (p : MacPdu) (op : SetOp) : Option MacPdu :=
  p.openSubh.bind fun p =>
    match op with
    | .ce c => c.set p
    | .sdu lcid payload => p.trySetSdu lcid payload
    | .readSdu lcid requestedBytes payload => p.setSduRead lcid requestedBytes payload

/-- A sequence of calls that all succeed. -/
def applyAll (p : MacPdu) : List SetOp → Option MacPdu
  | [] => some p
  | op :: ops => (op.apply p).bind fun p => applyAll p ops

/-- The subheader and the payload of a call. -/
def piece (type : SubhType) : SetOp → Piece
  | .ce c =>
    ⟨{ init type with
        lcid := c.lcid
        nofBytes := c.bytes.length
        wPayloadCe := c.bytes ++ (List.replicate 64 0).drop c.bytes.length }, c.bytes⟩
  | .sdu lcid payload | .readSdu lcid _ payload =>
    ⟨{ init type with
        lcid := lcid
        nofBytes := payload.length }, payload⟩

/-- The control elements are of the PDU's direction, and an SDU has an LCID of its own and a length
that fits the length field. -/
def Valid (type : SubhType) (isUl : Bool) : SetOp → Prop
  | .ce c => type = .sch ∧ c.isUl = isUl
  | .sdu lcid payload | .readSdu lcid _ payload =>
    (ofLcid type lcid).isSdu = true ∧ 0 < payload.length ∧ payload.length < 2 ^ 15

end SetOp

/-! ## What one call does -/

namespace MacPdu

variable {p q : MacPdu}

/-- The PDU with a new subheader. -/
def opened (p : MacPdu) : MacPdu := { p with subheaders := p.subheaders ++ [.init p.type] }

theorem openSubh_eq_some (h : p.openSubh = some q) : q = p.opened := by
  unfold openSubh newSubh at h
  split at h
  · exact (some.inj h).symm
  · cases h

theorem setCe_new {l : List SchSubh} {type : SubhType} (hsub : p.subheaders = l ++ [.init type])
    {lcid : ℕ} {bytes : List UInt8} (h : p.setCe lcid bytes = some q) :
    bytes.length + 1 ≤ p.remLen ∧
      q = { p with
        subheaders := l ++ [{ init type with
          lcid := lcid
          nofBytes := bytes.length
          wPayloadCe := bytes ++ (List.replicate 64 0).drop bytes.length }]
        remLen := p.remLen - (bytes.length + 1) } := by
  unfold setCe at h
  split at h
  · rename_i hspace
    have hrem : bytes.length + 1 ≤ p.remLen := by simpa [hasSpaceCe] using hspace
    refine ⟨hrem, ?_⟩
    rw [← some.inj h]
    simp [modifyCurrent, updateSpaceCe, hasSpaceCe, hrem, hsub, init]
  · cases h

theorem le_getSduSpace {n : ℕ} (hpos : 0 < n) (h : n ≤ p.getSduSpace) :
    n + p.newSduHeader ≤ p.remLen ∧ n ≤ p.bufferTx.tailroom := by
  obtain ⟨hrem, htail⟩ := le_min_iff.mp h
  omega

/-- The SDU with the subheader `s`, when its space was reserved. -/
def withSdu (p : MacPdu) (s : SchSubh) (payload : List UInt8) : MacPdu :=
  { p with
      subheaders := p.subheaders ++ [s]
      bufferTx := p.bufferTx.append payload
      remLen := p.remLen - (payload.length + p.newSduHeader)
      lastSduIdx := some p.subheaders.length }

/-- The same when its space was not reserved. -/
def withUnreserved (p : MacPdu) (s : SchSubh) (payload : List UInt8) : MacPdu :=
  { p with
      subheaders := p.subheaders ++ [s]
      bufferTx := p.bufferTx.append payload }

/-- The control element with the subheader `s` in a PDU. -/
def withCe (p : MacPdu) (s : SchSubh) (charge : ℕ) : MacPdu :=
  { p with
      subheaders := p.subheaders ++ [s]
      remLen := p.remLen - charge }

end MacPdu

namespace SetOp

open MacPdu

variable {p q : MacPdu}

theorem apply_ce {c : Ce} (h : (SetOp.ce c).apply p = some q) :
    c.bytes.length + 1 ≤ p.remLen ∧
      q = p.withCe ((SetOp.ce c).piece p.type).subh (c.bytes.length + 1) := by
  obtain ⟨p', hopen, hset⟩ := bind_eq_some_iff.mp h
  obtain rfl := openSubh_eq_some hopen
  dsimp only at hset
  rw [Ce.set_eq] at hset
  exact @setCe_new p.opened q p.subheaders p.type rfl _ _ hset

/-- An SDU with the payload at hand: its space is reserved if as much tailroom is left behind it. -/
theorem apply_sdu (hlast : p.lastSduIdx ≠ some p.subheaders.length) {lcid : ℕ}
    {payload : List UInt8}
    (hpos : 0 < payload.length) (h : (SetOp.sdu lcid payload).apply p = some q) :
    (payload.length + p.newSduHeader ≤ p.remLen ∧ payload.length ≤ p.bufferTx.tailroom) ∧
      q = if payload.length ≤ (p.bufferTx.append payload).tailroom
        then p.withSdu ((SetOp.sdu lcid payload).piece p.type).subh payload
        else p.withUnreserved ((SetOp.sdu lcid payload).piece p.type).subh payload := by
  obtain ⟨p', hopen, hset⟩ := bind_eq_some_iff.mp h
  obtain rfl := openSubh_eq_some hopen
  dsimp only at hset
  unfold trySetSdu at hset
  split at hset
  · rename_i hspace
    have hspace := of_decide_eq_true hspace
    have hroom := le_getSduSpace hpos hspace
    have hheader : p.opened.newSduHeader = p.newSduHeader :=
      newSduHeader_concat hlast (.init p.type) p.bufferTx
    rw [hheader] at hroom
    refine ⟨hroom, ?_⟩
    rw [← some.inj hset, @setSdu_new p.opened p.subheaders p.type lcid payload rfl hlast,
      if_pos hspace, hheader]
    by_cases htail : payload.length ≤ (p.bufferTx.append payload).tailroom
    · have htail' : payload.length ≤ (p.opened.bufferTx.append payload).tailroom := htail
      simp only [htail, htail', if_true]
      rfl
    · have htail' : ¬ payload.length ≤ (p.opened.bufferTx.append payload).tailroom := htail
      simp only [htail, htail', if_false]
      rfl
  · cases hset

/-- An SDU read from an interface: its space is always reserved. -/
theorem apply_readSdu (hlast : p.lastSduIdx ≠ some p.subheaders.length) {lcid requestedBytes : ℕ}
    {payload : List UInt8} (h : (SetOp.readSdu lcid requestedBytes payload).apply p = some q) :
    (payload.length + p.newSduHeader ≤ p.remLen ∧ payload.length ≤ p.bufferTx.tailroom) ∧
      q = p.withSdu ((SetOp.readSdu lcid requestedBytes payload).piece p.type).subh payload := by
  obtain ⟨p', hopen, hset⟩ := bind_eq_some_iff.mp h
  obtain rfl := openSubh_eq_some hopen
  dsimp only at hset
  unfold setSduRead at hset
  split at hset
  · rename_i hspace
    split at hset
    · cases hset
    rename_i hlen
    have hheader : p.opened.newSduHeader = p.newSduHeader :=
      newSduHeader_concat hlast (.init p.type) p.bufferTx
    have hspace : payload.length ≤ p.opened.getSduSpace :=
      le_trans (by omega) (of_decide_eq_true hspace)
    have hroom := le_getSduSpace (by omega) hspace
    rw [hheader] at hroom
    refine ⟨hroom, ?_⟩
    set s : SchSubh := ((SetOp.readSdu lcid requestedBytes payload).piece p.type).subh with hs
    -- the subheader is filled before the space is reserved
    set p' : MacPdu := { p with subheaders := p.subheaders ++ [s] } with hp'
    have hmodify : (p.opened.modifyCurrent fun t => { t with
        lcid := lcid
        nofBytes := payload.length }) = p' := by
      simp [modifyCurrent, opened, hp', hs, SetOp.piece]
    have hheader' := newSduHeader_concat hlast s p.bufferTx
    have hspace' : p'.hasSpaceSdu payload.length := by
      refine decide_eq_true (le_min ?_ hroom.2)
      rw [hheader']
      exact Nat.le_sub_of_add_le hroom.1
    rw [← some.inj hset, hmodify, updateSpaceSdu, if_pos hspace', hheader']
    simp [withSdu, hp']
  · cases hset

end SetOp

end MbmsTx.Mac
