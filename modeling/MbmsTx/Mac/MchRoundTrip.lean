import Mathlib.Algebra.Order.BigOperators.Group.List
import MbmsTx.Mac.Mch
import MbmsTx.Mac.PduRoundTrip

/-!
# Round trip of the scheduling information

The scheduling information of the multicast channel is the only control element of variable length:
two bytes for each MTCH. Every call of `set_next_mch_sched_info` is charged a subheader of two
bytes, but all entries share one. So with two or more entries the account is short of the bytes
written, and `write_packet` returns no PDU (`mchRoundTrips_of_mchFits`).

With one entry the account is right. If the control element then has the last subheader, its length
field is counted and not written, and the receiver takes one byte too many for its payload; half an
entry is not read.
-/

namespace MbmsTx.Mac

open MbmsTx.Memory List UInt8 MacPdu SchSubh ByteBuffer SetOp

/-! ## The entries -/

/-- An entry: five bits of LCID and eleven bits of stop value. -/
def schedInfoBytes (entry : ℕ × ℕ) : List UInt8 :=
  let stop := if entry.2 ≠ 0 then entry.2 else mtchStopEmpty
  [UInt8.ofNat ((entry.1 &&& 0x1F) <<< 3) ||| UInt8.ofNat ((stop &&& 0x0700) >>> 8),
    UInt8.ofNat (stop &&& 0xFF)]

/-- The payload of the scheduling information. -/
def schedInfoPayload (entries : List (ℕ × ℕ)) : List UInt8 := (entries.map schedInfoBytes).flatten

/-- `get_next_mch_sched_info`, after `cur` entries. -/
def getNextMchSchedInfo (payload : List UInt8) (cur : ℕ) : Option (ℕ × ℕ) :=
  let nofMchSchedCe := payload.length / 2 % 2 ^ 8
  if cur < nofMchSchedCe then
    let first := payload.getD (cur * 2) 0
    let mtchStopCe := (first &&& 0x07).toNat <<< 8 + (payload.getD (cur * 2 + 1) 0).toNat
    some (((first &&& 0xF8) >>> 3).toNat, if mtchStopCe = mtchStopEmpty then 0 else mtchStopCe)
  else none

/-- Calls of `get_next_mch_sched_info` until it fails. -/
def getMchSchedInfos (payload : List UInt8) : (fuel cur : ℕ) → List (ℕ × ℕ)
  | 0, _ => []
  | fuel + 1, cur =>
    match getNextMchSchedInfo payload cur with
    | none => []
    | some entry => entry :: getMchSchedInfos payload fuel (cur + 1)

/-- An entry that `set_next_mch_sched_info` can represent. -/
def SchedInfoValid (entry : ℕ × ℕ) : Prop := entry.1 < 32 ∧ entry.2 < mtchStopEmpty

theorem schedInfo_fields : ∀ lcid < 32, ∀ high < 8,
    (((ofNat ((lcid &&& 0x1F) <<< 3) ||| ofNat high) &&& 0xF8) >>> 3).toNat = lcid ∧
      ((ofNat ((lcid &&& 0x1F) <<< 3) ||| ofNat high) &&& 0x07).toNat = high := by
  decide +kernel

theorem stop_fields {stop : ℕ} (h : stop < 2 ^ 11) : (stop &&& 0x0700) >>> 8 = stop / 256 ∧
      (stop / 256) <<< 8 + (ofNat (stop &&& 0xFF)).toNat = stop := by
  refine ⟨?_, ?_⟩
  · have hmask : (0x0700 : ℕ) >>> 8 = 2 ^ 3 - 1 := rfl
    rw [Nat.shiftRight_and_distrib, Nat.shiftRight_eq_div_pow, hmask,
      Nat.and_two_pow_sub_one_eq_mod]
    omega
  · have hmask : (0xFF : ℕ) = 2 ^ 8 - 1 := rfl
    have hmod : (ofNat (stop % 2 ^ 8)).toNat = stop % 2 ^ 8 % 2 ^ 8 := toNat_ofNat'
    rw [hmask, Nat.and_two_pow_sub_one_eq_mod, hmod, Nat.shiftLeft_eq]
    omega

@[simp] theorem length_schedInfoBytes (entry : ℕ × ℕ) : (schedInfoBytes entry).length = 2 := rfl

@[simp] theorem length_schedInfoPayload (entries : List (ℕ × ℕ)) :
    (schedInfoPayload entries).length = 2 * entries.length := by
  induction entries with
  | nil => rfl
  | cons entry entries ih =>
    have hcons : schedInfoPayload (entry :: entries) =
        schedInfoBytes entry ++ schedInfoPayload entries := rfl
    rw [hcons, length_append, ih, length_schedInfoBytes, length_cons]
    omega

theorem getNextMchSchedInfo_eq {front rest : List UInt8} {entry : ℕ × ℕ} (h : SchedInfoValid entry)
    {cur : ℕ} (hfront : front.length = cur * 2) (hlen : (cur + 1) + rest.length / 2 < 2 ^ 8) :
    getNextMchSchedInfo (front ++ (schedInfoBytes entry ++ rest)) cur = some entry := by
  obtain ⟨lcid, stop⟩ := entry
  obtain ⟨hlcid, hstop⟩ := h
  set coded : ℕ := if stop ≠ 0 then stop else mtchStopEmpty with hcoded
  have hlt : coded < 2 ^ 11 := by
    rw [hcoded]
    split
    · exact lt_trans hstop (by decide)
    · decide
  have hdecoded : (if coded = mtchStopEmpty then 0 else coded) = stop := by
    rw [hcoded]
    by_cases hzero : stop = 0
    · simp [hzero]
    · have hne : stop ≠ mtchStopEmpty := ne_of_lt hstop
      simp [hzero, hne]
  obtain ⟨hhigh, hvalue⟩ := stop_fields hlt
  obtain ⟨hfirst, hbits⟩ := schedInfo_fields lcid hlcid (coded / 256) (by omega)
  set byte : UInt8 := ofNat ((lcid &&& 0x1F) <<< 3) ||| ofNat (coded / 256) with hbyte
  have hbytes : schedInfoBytes (lcid, stop) = [byte, ofNat (coded &&& 0xFF)] := by
    rw [hbyte, ← hhigh]
    rfl
  have hget : (front ++ (schedInfoBytes (lcid, stop) ++ rest)).getD (cur * 2) 0 = byte := by
    rw [← hfront, hbytes]
    simp
  have hget' : (front ++ (schedInfoBytes (lcid, stop) ++ rest)).getD (cur * 2 + 1) 0 =
      ofNat (coded &&& 0xFF) := by
    rw [← hfront, hbytes]
    simp
  have hnof : cur < (front ++ (schedInfoBytes (lcid, stop) ++ rest)).length / 2 % 2 ^ 8 := by
    simp [length_schedInfoBytes, hfront]
    omega
  unfold getNextMchSchedInfo
  dsimp only
  rw [if_pos hnof, hget, hget', hfirst, hbits, hvalue, hdecoded]

theorem getMchSchedInfos_eq {entries : List (ℕ × ℕ)} (hvalid : ∀ e ∈ entries, SchedInfoValid e)
    {gap : List UInt8} (hgap : gap.length ≤ 1) {front : List UInt8} {cur fuel : ℕ}
    (hfront : front.length = cur * 2) (hlen : cur + entries.length < 2 ^ 8)
    (hfuel : entries.length < fuel) :
    getMchSchedInfos (front ++ (schedInfoPayload entries ++ gap)) fuel cur = entries := by
  induction entries generalizing front cur fuel with
  | nil =>
    obtain ⟨fuel, rfl⟩ : ∃ n, fuel = n + 1 := ⟨fuel - 1, by omega⟩
    have hnof : ¬ cur < (front ++ (schedInfoPayload [] ++ gap)).length / 2 % 2 ^ 8 := by
      simp [length_schedInfoPayload, hfront] at hlen ⊢
      omega
    rw [getMchSchedInfos, getNextMchSchedInfo]
    rw [if_neg hnof]
  | cons entry entries ih =>
    obtain ⟨fuel, rfl⟩ : ∃ n, fuel = n + 1 := ⟨fuel - 1, by omega⟩
    rw [length_cons] at hlen hfuel
    have hcons : schedInfoPayload (entry :: entries) ++ gap =
        schedInfoBytes entry ++ (schedInfoPayload entries ++ gap) := by
      rfl
    have hnext := @getNextMchSchedInfo_eq front (schedInfoPayload entries ++ gap) entry
      (hvalid entry (mem_cons_self ..)) cur hfront
      (by rw [length_append, length_schedInfoPayload]; omega)
    have hrest := @ih (fun e he => hvalid e (mem_cons_of_mem _ he))
      (front ++ schedInfoBytes entry) (cur + 1) fuel
      (by rw [length_append, length_schedInfoBytes, hfront]; omega) (by omega) (by omega)
    rw [append_assoc] at hrest
    rw [hcons, getMchSchedInfos, hnext]
    rw [hrest]

/-! ## Adding the entries -/

/-- The subheader of the scheduling information. -/
def schedInfoSubh (entries : List (ℕ × ℕ)) : SchSubh :=
  { type := .mch
    lcid := if entries = [] then 0 else mchSchedInfoLcid
    nofBytes := 2 * entries.length
    nofMchSchedCe := entries.length
    wPayloadCe := schedInfoPayload entries ++ List.replicate (64 - 2 * entries.length) 0 }

/-- The scheduling information as a piece of the PDU. -/
def schedInfoPiece (entries : List (ℕ × ℕ)) : Piece :=
  ⟨schedInfoSubh entries, schedInfoPayload entries⟩

variable {entries : List (ℕ × ℕ)}

theorem addMchSchedInfo_schedInfoSubh (hlen : entries.length < 32) (entry : ℕ × ℕ) :
    { (schedInfoSubh entries).addMchSchedInfo entry.1 entry.2 with
        nofBytes := (schedInfoSubh entries).nofBytes + 2 } =
      schedInfoSubh (entries ++ [entry]) := by
  have hzeros : replicate (64 - 2 * entries.length) (0 : UInt8) =
      0 :: 0 :: replicate (64 - 2 * (entries.length + 1)) 0 := by
    rw [← replicate_succ, ← replicate_succ]
    congr 1
    omega
  have hidx : entries.length * 2 = (schedInfoPayload entries).length := by
    rw [length_schedInfoPayload, mul_comm]
  have hconcat : schedInfoPayload (entries ++ [entry]) =
      schedInfoPayload entries ++ schedInfoBytes entry := by simp [schedInfoPayload]
  simp only [schedInfoSubh, addMchSchedInfo, hzeros, hconcat, length_append, length_singleton,
    append_eq_nil_iff, cons_ne_nil, and_false, if_false, hidx, append_assoc]
  rw [set_append_right _ _ le_rfl, set_append_right _ _ (by omega)]
  simp [schedInfoBytes, mul_add]

namespace MacPdu

/-- `set_next_mch_sched_info`, where it succeeds. -/
def trySetNextMchSchedInfo (p : MacPdu) (entry : ℕ × ℕ) : Option MacPdu :=
  if p.hasSpaceCe 2 true then some (p.setNextMchSchedInfo entry.1 entry.2) else none

/-- Successive calls that all succeed. -/
def setMchSchedInfos (p : MacPdu) : List (ℕ × ℕ) → Option MacPdu
  | [] => some p
  | entry :: entries => (p.trySetNextMchSchedInfo entry).bind fun p => p.setMchSchedInfos entries

/-- The PDU with the entries in its last subheader: four bytes each. -/
def withSchedInfos (p : MacPdu) (entries : List (ℕ × ℕ)) : MacPdu :=
  { p with
      subheaders := p.subheaders ++ [schedInfoSubh entries]
      remLen := p.remLen - 4 * entries.length }

variable {p q : MacPdu}

theorem opened_eq_withSchedInfos (htype : p.type = .mch) : p.opened = p.withSchedInfos [] := by
  simp only [opened, withSchedInfos, htype]
  rfl

theorem trySetNextMchSchedInfo_eq (hlen : entries.length < 32) {entry : ℕ × ℕ}
    (h : (p.withSchedInfos entries).trySetNextMchSchedInfo entry = some q) :
    4 ≤ p.remLen - 4 * entries.length ∧ q = p.withSchedInfos (entries ++ [entry]) := by
  unfold trySetNextMchSchedInfo at h
  split at h
  · rename_i hspace
    have hrem := of_decide_eq_true hspace
    refine ⟨hrem, ?_⟩
    have hthree := decide_eq_true (le_trans (by decide : 3 ≤ 4) hrem)
    have hsub := addMchSchedInfo_schedInfoSubh hlen entry
    rw [← Option.some.inj h, setNextMchSchedInfo, if_pos hspace]
    have hspace' : ((p.withSchedInfos entries).modifyCurrent fun s =>
        s.addMchSchedInfo entry.1 entry.2).hasSpaceCe 2 false := hthree
    simp only [updateSpaceCe, hspace', if_true]
    simp only [modifyCurrent, withSchedInfos, length_append, length_singleton,
      Nat.add_sub_cancel, modify_last, ← hsub]
    congr 1
  · cases h

theorem setMchSchedInfos_eq {done : List (ℕ × ℕ)} (hlen : done.length + entries.length ≤ 32)
    (hdone : 4 * done.length ≤ p.remLen)
    (h : (p.withSchedInfos done).setMchSchedInfos entries = some q) :
    4 * (done.length + entries.length) ≤ p.remLen ∧ q = p.withSchedInfos (done ++ entries) := by
  induction entries generalizing done with
  | nil =>
    cases h
    exact ⟨hdone, by simp⟩
  | cons entry entries ih =>
    obtain ⟨p', hfirst, hrest⟩ := Option.bind_eq_some_iff.mp h
    rw [length_cons] at hlen
    obtain ⟨hrem, rfl⟩ := trySetNextMchSchedInfo_eq (by omega) hfirst
    have hnext := @ih (done ++ [entry]) (by simp; omega) (by simp; omega) hrest
    simp only [length_append, length_singleton, append_assoc, singleton_append] at hnext
    refine ⟨?_, hnext.2⟩
    rw [length_cons]
    omega

end MacPdu

theorem fresh_schedInfoPiece (isUl : Bool) (hne : entries ≠ []) (hlen : entries.length ≤ 32) :
    Fresh .mch isUl (schedInfoPiece entries) := by
  have hpos := length_pos_of_ne_nil hne
  have hlcid : (schedInfoPiece entries).subh.lcid = mchSchedInfoLcid := if_neg hne
  have hlength : (schedInfoPiece entries).subh.hasLength := by
    have hvarLen : (schedInfoPiece entries).subh.isVarLenCe := by
      rw [isVarLenCe, hlcid]
      rfl
    rw [hasLength, hvarLen, Bool.or_true]
  refine ⟨⟨?_, ?_, ?_, ?_, ?_⟩, ?_, ?_⟩
  · rw [hlcid]
    decide
  · rfl
  · exact length_schedInfoPayload entries
  · intro _
    have hbytes : (schedInfoPiece entries).subh.nofBytes = 2 * entries.length := rfl
    omega
  · intro hfalse
    exact absurd (hlength.symm.trans hfalse) (by decide)
  · intro _
    have hsize : (schedInfoPiece entries).subh.sizeofCe isUl = entries.length * 2 :=
      if_pos hlcid
    rw [writePayload, hsize]
    exact take_left' (by rw [length_schedInfoPayload, mul_comm])
  · rw [hlcid]
    decide

theorem isSdu_schedInfoSubh (hne : entries ≠ []) : (schedInfoSubh entries).isSdu = false := by
  simp [isSdu, schedInfoSubh, hne]

theorem built_withSchedInfos (buffer : ByteBuffer) (isUl : Bool) {pduLen : ℕ} (hne : entries ≠ [])
    (hlen : entries.length ≤ 32) (hroom : 4 * entries.length ≤ pduLen) :
    Built (pduLen - 2 * (entries.length - 1)) [schedInfoPiece entries]
      ((MacPdu.initTx .mch mchMaxSubheaders buffer.clear pduLen isUl).withSchedInfos entries) := by
  have hpos := length_pos_of_ne_nil hne
  have hfresh := fresh_schedInfoPiece isUl hne hlen
  have hsdu := isSdu_schedInfoSubh hne
  have hheader : (schedInfoSubh entries).getHeaderSize false = 2 := by
    have hsize : sizeHeaderSdu (2 * entries.length) = 2 := by
      rw [sizeHeaderSdu, if_neg (by omega), if_pos (by omega)]
    simpa [getHeaderSize, schedInfoSubh, hne] using hsize
  refine ⟨⟨?_, ?_⟩, rfl, ?_, rfl, Nat.zero_le _, ?_, ?_, ?_⟩
  · have hce : cePayloadSz [schedInfoSubh entries] = 2 * entries.length := by
      simp only [cePayloadSz, hsdu, filter_cons_of_pos, Bool.not_false, filter_nil,
        map_cons, map_nil, sum_cons, sum_nil]
      rfl
    have hheaders : headerSz [schedInfoSubh entries] none = 2 := by simp [hheader]
    simp [withSchedInfos, MacPdu.initTx, hce, hheaders, clear]
    omega
  · intro i hi
    exact absurd hi (by simp [withSchedInfos, MacPdu.initTx])
  · simp [schedInfoPiece, hsdu, withSchedInfos, MacPdu.initTx, clear,
      contents, payloadsOf]
  · exact forall_mem_singleton.mpr hfresh.readable
  · exact forall_mem_singleton.mpr hfresh.written
  · exact forall_mem_singleton.mpr hfresh.lcid_ne

/-! ## The round trip -/

/-- The number of subheaders of the receiver's `mch_mac_msg`. -/
def mchRxMaxSubheaders : ℕ := 20

/-- A PDU with the entries in its first subheader and the SDUs of `ops` behind them. -/
def buildMchPdu (buffer : ByteBuffer) (pduLen : ℕ) (isUl : Bool) (entries : List (ℕ × ℕ))
    (ops : List SetOp) : Option MacPdu :=
  (MacPdu.initTx .mch mchMaxSubheaders buffer.clear pduLen isUl).openSubh.bind fun p =>
    (p.setMchSchedInfos entries).bind fun p => applyAll p ops

/-- `write_packet` returns a PDU of the requested length, and a receiver of its bytes finds the
scheduling information with its entries and the SDUs, apart from padding. At most 255 calls of
`get_next_mch_sched_info` succeed. -/
def MchRoundTrips (p : MacPdu) (entries : List (ℕ × ℕ)) (sdus : List Piece) : Prop :=
  ∃ buffer, p.writePacket = some buffer ∧ buffer.nBytes = p.pduLen ∧
    ∀ mem : ℕ → UInt8, (∀ i < p.pduLen, mem i = buffer.byte i) →
      ∃ payload, ((parsePacket p.type p.pduIsUl mchRxMaxSubheaders p.pduLen mem).map
          (entryAt mem)).filter (fun x => x.1 ≠ paddingLcid) =
          (mchSchedInfoLcid, payload) :: sdus.map (·.entry) ∧
        getMchSchedInfos payload 256 0 = entries

section

variable {pieces : List Piece} {p : MacPdu}

theorem Built.totalHeaderSize_le {len : ℕ} (h : Built len pieces p) :
    p.totalHeaderSize ≤ 3 * pieces.length + (payloadsOf (cesOf pieces)).length + 3 := by
  have htotal : p.totalHeaderSize ≤ headerSz p.subheaders none + cePayloadSz p.subheaders + 3 :=
    h.balanced.totalHeaderSize_le
  have hheaders := headerSz_none_le p.subheaders
  rw [h.subheaders, length_map, ← h.subheaders] at hheaders
  rw [h.cePayloadSz_eq] at htotal
  omega

/-- The receiver has a subheader for each piece and for the padding. -/
theorem Built.exists_headerLayout (h : Built p.pduLen pieces p) (hmark : Marked p.lastSduIdx pieces)
    (hne : pieces ≠ []) (hpieces : pieces.length ≤ mchMaxSubheaders - 1) :
    ∃ xs last, HeaderLayout p pieces xs last ∧ xs.length + 1 < mchRxMaxSubheaders := by
  obtain ⟨xs, last, hlayout⟩ := h.headerLayout hmark (.inl hne)
  refine ⟨xs, last, hlayout, ?_⟩
  have hwritten := length_writtenPieces p pieces
  rw [hlayout.order, length_append, length_singleton] at hwritten
  have hpads : (if p.multibytePadding = true then 1 else p.remLen) ≤ 2 := by
    unfold multibytePadding
    split
    · omega
    · rename_i hfew
      simpa using hfew
  have hmax : mchMaxSubheaders = 10 := rfl
  have hrx : mchRxMaxSubheaders = 20 := rfl
  omega

variable {mem : ℕ → UInt8} (hmem : ∀ i < p.pduLen, mem i = p.written.byte i)
include hmem

/-- Behind control elements and SDUs no length field is missing. -/
theorem Built.mch_entries_of_sdu (h : Built p.pduLen pieces p) (hmark : Marked p.lastSduIdx pieces)
    (hpieces : pieces.length ≤ mchMaxSubheaders - 1) (hsdus : sdusOf pieces ≠ [])
    (hhead : p.totalHeaderSize ≤ p.bufferTx.msg) :
    ((parsePacket p.type p.pduIsUl mchRxMaxSubheaders p.pduLen mem).map (entryAt mem)).filter
      (fun y => y.1 ≠ paddingLcid) = (cesOf pieces ++ sdusOf pieces).map (·.entry) := by
  have hne : pieces ≠ [] := by
    rintro rfl
    exact hsdus rfl
  obtain ⟨xs, last, hlayout, hcount⟩ := h.exists_headerLayout hmark hne hpieces
  exact h.filter_parsePacket hlayout hhead (.inr hcount)
    (hlayout.rest.resolve_right fun hrest => hsdus hrest.1) hmem

theorem Built.mch_entries (h : Built p.pduLen pieces p) (hmark : Marked p.lastSduIdx pieces)
    (hpieces : pieces.length ≤ mchMaxSubheaders - 1) {x : Piece} (hces : cesOf pieces = [x])
    (hone : x.subh.unwritten ≤ 1) (hhead : p.totalHeaderSize ≤ p.bufferTx.msg) :
    ∃ gap : List UInt8, gap.length ≤ 1 ∧
      ((parsePacket p.type p.pduIsUl mchRxMaxSubheaders p.pduLen mem).map (entryAt mem)).filter
        (fun y => y.1 ≠ paddingLcid) =
        (x.subh.lcid, x.payload ++ gap) :: (sdusOf pieces).map (·.entry) := by
  have hx : x ∈ pieces := (mem_filter.mp (hces ▸ mem_singleton_self x :
    x ∈ cesOf pieces)).1
  obtain ⟨xs, last, hlayout, hcount⟩ := h.exists_headerLayout hmark (ne_nil_of_mem hx) hpieces
  rcases eq_zero_or_pos last.subh.unwritten with hzero | hpos
  · refine ⟨[], Nat.zero_le _, ?_⟩
    rw [h.filter_parsePacket hlayout hhead (.inr hcount) hzero hmem, hces, append_nil]
    rfl
  -- the scheduling information has the last subheader, and there are no SDUs
  have hnone : sdusOf pieces = [] := (hlayout.rest.resolve_left (ne_of_gt hpos)).1
  have hlast : last = x := by
    have hwritten : last ∈ p.writtenPieces pieces := by simp [hlayout.order]
    have hpiece := (unwritten_or_mem hwritten).resolve_left (ne_of_gt hpos)
    cases hsdu : last.subh.isSdu with
    | true =>
      have hmem : last ∈ sdusOf pieces := mem_filter.mpr ⟨hpiece, hsdu⟩
      rw [hnone] at hmem
      cases hmem
    | false =>
      have hmem : last ∈ cesOf pieces := mem_filter.mpr ⟨hpiece, by simp [hsdu]⟩
      rw [hces] at hmem
      exact mem_singleton.mp hmem
  subst hlast
  obtain ⟨gap, hgap, hentries⟩ := h.entries_written hlayout hhead (.inr hcount)
  have hall := h.filter_entries
  rw [hces, singleton_append, map_cons, hlayout.order, map_append, filter_append] at hall
  have hkeep : ∀ bytes : List UInt8, [(last.subh.lcid, bytes)].filter
      (fun y => y.1 ≠ paddingLcid) = [(last.subh.lcid, bytes)] := by
    intro bytes
    simp [h.lcid_ne last hx]
  have hpads : (xs.map (·.entry)).filter (fun y => y.1 ≠ paddingLcid) = [] := by
    rw [hnone, map_singleton] at hall
    have hentry : [last.entry].filter (fun y => y.1 ≠ paddingLcid) = [last.entry] :=
      hkeep last.payload
    rw [hentry] at hall
    exact append_left_eq_self.mp hall
  refine ⟨gap, hgap ▸ hone, ?_⟩
  rw [hentries mem hmem, filter_append, hpads, hkeep, hnone]
  rfl

end

theorem SetOp.isSdu_piece_mch {isUl : Bool} {op : SetOp} (h : op.Valid .mch isUl) :
    (op.piece .mch).subh.isSdu = true := by
  cases op with
  | ce c => exact absurd h.1 (by decide)
  | sdu lcid payload | readSdu lcid requestedBytes payload => exact h.1

section

variable {entries : List (ℕ × ℕ)} (hne : entries ≠ []) {sdus : List Piece}
  (hsdus : ∀ x ∈ sdus, x.subh.isSdu)
include hne

theorem unwritten_schedInfoPiece_le (hone : entries.length = 1) :
    (schedInfoPiece entries).subh.unwritten ≤ 1 := by
  have hbytes : (schedInfoPiece entries).subh.nofBytes = 2 := by
    simp [schedInfoPiece, schedInfoSubh, hone]
  rw [unwritten, if_neg (by simp [schedInfoPiece, isSdu_schedInfoSubh hne]), getHeaderSize_eq,
    hbytes]
  split <;> decide

include hsdus

theorem cesOf_schedInfoPiece_cons :
    cesOf (schedInfoPiece entries :: sdus) = [schedInfoPiece entries] := by
  have hnil : sdus.filter (fun x => !x.subh.isSdu) = [] := by
    rw [filter_eq_nil_iff]
    intro x hx
    simp [hsdus x hx]
  rw [cesOf, filter_cons_of_pos (by simp [schedInfoPiece, isSdu_schedInfoSubh hne]), hnil]

theorem sdusOf_schedInfoPiece_cons : sdusOf (schedInfoPiece entries :: sdus) = sdus := by
  rw [sdusOf, filter_cons_of_neg (by simp [schedInfoPiece, isSdu_schedInfoSubh hne]),
    filter_eq_self]
  exact hsdus

end

/-- The calls fit a PDU of `pduLen` bytes: there is one entry, and the buffer has the room that
`set_sdu` asks for and that the SDUs and the padding need. -/
structure MchFits (pduLen : ℕ) (entries : List (ℕ × ℕ)) (ops : List SetOp) : Prop where
  one : entries.length = 1
  roomy : SetOp.AllRoomy 0 ops
  padding : (payloadsOf (ops.map (piece .mch))).length +
    paddingLen pduLen (schedInfoPiece entries :: ops.map (piece .mch)) ≤ emptyTailroom

/-- Calls that fit the PDU make the round trip. With one entry, or with room for all SDUs, no others
do. -/
theorem mchRoundTrips_of_mchFits {buffer : ByteBuffer} {pduLen : ℕ} {isUl : Bool}
    {entries : List (ℕ × ℕ)} {ops : List SetOp} {p : MacPdu} (hne : entries ≠ [])
    (hlen : entries.length ≤ 32) (hentries : ∀ e ∈ entries, e.1 < 32 ∧ e.2 < mtchStopEmpty)
    (hops : ∀ op ∈ ops, op.Valid .mch isUl)
    (hbuild : buildMchPdu buffer pduLen isUl entries ops = some p) :
    (MchFits pduLen entries ops → MchRoundTrips p entries (ops.map (piece .mch))) ∧
      (entries.length = 1 ∨ SetOp.AllRoomy 0 ops →
        MchRoundTrips p entries (ops.map (piece .mch)) → MchFits pduLen entries ops) := by
  obtain ⟨p₁, hopen, hrest⟩ := Option.bind_eq_some_iff.mp hbuild
  obtain ⟨p₂, hsched, happly⟩ := Option.bind_eq_some_iff.mp hrest
  obtain rfl := openSubh_eq_some hopen
  rw [opened_eq_withSchedInfos rfl] at hsched
  obtain ⟨hroom, rfl⟩ := setMchSchedInfos_eq (by simpa using hlen) (Nat.zero_le _) hsched
  have hroom : 4 * entries.length ≤ pduLen := by simpa [MacPdu.initTx] using hroom
  rw [nil_append] at happly
  have hfirst := built_withSchedInfos buffer isUl hne hlen hroom
  have hmarked : Marked none [schedInfoPiece entries] :=
    forall_mem_singleton.mpr (isSdu_schedInfoSubh hne)
  have hleft := left_of_applyAll hops hfirst happly
  have hpduLen : p.pduLen = pduLen := hleft.frame.pduLen
  set sdus : List Piece := ops.map (piece .mch)
  have hsdus : ∀ x ∈ sdus, x.subh.isSdu := by
    intro x hx
    obtain ⟨op, hop, rfl⟩ := mem_map.mp hx
    exact isSdu_piece_mch (hops op hop)
  have hcesOf := cesOf_schedInfoPiece_cons hne hsdus
  have hsdusOf := sdusOf_schedInfoPiece_cons hne hsdus
  have hlength : (schedInfoPiece entries :: sdus).length ≤ mchMaxSubheaders - 1 := by
    rw [length_cons, add_comm]
    exact hleft.count (by decide : 1 ≤ mchMaxSubheaders - 1)
  have hbuilt : entries.length = 1 → SetOp.AllRoomy 0 ops →
      Built p.pduLen (schedInfoPiece entries :: sdus) p := by
    intro hone hroomy
    have hbuilt := hleft.built hroomy
    rwa [hone, Nat.sub_self, Nat.mul_zero, Nat.sub_zero, ← hpduLen] at hbuilt
  have htail : entries.length = 1 → SetOp.AllRoomy 0 ops →
      (p.numPadding ≤ p.bufferTx.tailroom ↔ (payloadsOf sdus).length +
        paddingLen pduLen (schedInfoPiece entries :: sdus) ≤ emptyTailroom) := by
    intro hone hroomy
    have hbuilt := hbuilt hone hroomy
    have hroom := hbuilt.room
    rw [(hbuilt.sizes (hleft.marked hroomy hmarked)).2.2, hbuilt.tailroom_eq, hpduLen]
    rw [hbuilt.nBytes_eq, hsdusOf] at hroom ⊢
    omega
  constructor
  · rintro ⟨hone, hroomy, hfits⟩
    have htail := (htail hone hroomy).mpr hfits
    have hbuilt := hbuilt hone hroomy
    have hhead : p.totalHeaderSize ≤ p.bufferTx.msg := by
      have hle := hbuilt.totalHeaderSize_le
      have hpayload : (payloadsOf (cesOf (schedInfoPiece entries :: sdus))).length = 2 := by
        rw [hcesOf]
        simp [payloadsOf, schedInfoPiece, hone]
      have hmax : mchMaxSubheaders = 10 := rfl
      have hoffset : bufferHeaderOffset = 1020 := rfl
      rw [hpayload] at hle
      rw [hbuilt.msg]
      omega
    have htotal := hbuilt.balanced.total
    refine ⟨_, writePacket_eq_some_iff.mpr ⟨⟨hhead, htail, htotal⟩, rfl⟩,
      by rw [written_nBytes, htotal], fun mem hmem => ?_⟩
    obtain ⟨gap, hgap, hfound⟩ := hbuilt.mch_entries hmem (hleft.marked hroomy hmarked) hlength
      hcesOf (unwritten_schedInfoPiece_le hne hone) hhead
    have hlcid : (schedInfoPiece entries).subh.lcid = mchSchedInfoLcid := if_neg hne
    rw [hsdusOf, hlcid] at hfound
    refine ⟨_, hfound, ?_⟩
    exact @getMchSchedInfos_eq entries hentries gap hgap [] 0 256 rfl (by omega) (by omega)
  · rintro hcharged ⟨written, hwrite, -⟩
    have hpos := length_pos_of_ne_nil hne
    by_cases hroomy : SetOp.AllRoomy 0 ops
    · -- two or more entries are charged more than they need, and the PDU comes out too short
      have hsame := (hleft.built hroomy).len_eq hwrite
      have hone : entries.length = 1 := by omega
      exact ⟨hone, hroomy, (htail hone hroomy).mp (writePacket_eq_some_iff.mp hwrite).1.2.1⟩
    · -- an SDU without so much room is not charged, and the PDU comes out too long
      obtain ⟨len, hlt, hlong⟩ := hleft.tooLong hroomy
      have hone := hcharged.resolve_right hroomy
      have hsame := hlong.len_eq hwrite
      omega

/-- One entry, an MCCH message and data of an MTCH. -/
theorem mchRoundTrips_of_one :
    ∃ p, buildMchPdu (ofReceived (fun _ => 0) []) 30 false [(1, 0)]
        [.sdu 0 [1, 2, 3, 4, 5], .sdu 1 [2, 4, 6]] = some p ∧
      MchRoundTrips p [(1, 0)]
        ([.sdu 0 [1, 2, 3, 4, 5], .sdu 1 [2, 4, 6]].map (piece .mch)) := by
  obtain ⟨p, hbuild⟩ : ∃ p, buildMchPdu (ofReceived (fun _ => 0) []) 30 false [(1, 0)]
      [.sdu 0 [1, 2, 3, 4, 5], .sdu 1 [2, 4, 6]] = some p := ⟨_, rfl⟩
  refine ⟨p, hbuild, (mchRoundTrips_of_mchFits ?_ ?_ ?_ ?_ hbuild).1 ⟨rfl, ?_, ?_⟩⟩
  · decide
  · decide
  · decide
  · simp [SetOp.Valid, ofLcid, init, isSdu, mchSchedInfoLcid]
  · simp [SetOp.AllRoomy, SetOp.Roomy, sduBytes, emptyTailroom,
      maxBufferSizeBytes, bufferHeaderOffset]
  · decide

/-- Two entries in thirty bytes: no PDU is written. -/
theorem not_mchRoundTrips_of_two :
    ∃ p, buildMchPdu (ofReceived (fun _ => 0) []) 30 false [(1, 4), (2, 7)] [] = some p ∧
      p.writePacket = none :=
  ⟨_, rfl, rfl⟩

end MbmsTx.Mac
