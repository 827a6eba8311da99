import MbmsTx.Mac.MchRoundTrip

/-!
# What the PDUs of the multicast channel tell a receiver

In an MCCH subframe `get_mch_sched` hands over the scheduling information, with a control element
for each MTCH, and the MCCH message; in the others, data of one MTCH. If they fit the transport
block, a receiver of the bytes finds the LCIDs and stop values of the schedule
(`readSchedInfos_mcch`), and the data with the LCID of its MTCH (`readMch_mtch`).
-/

namespace MbmsTx.Mac

open List MacPdu SetOp SchSubh ByteBuffer

/-- The LCIDs and payloads that a receiver finds in a PDU, apart from padding. -/
def readMch (pdu : ByteBuffer) : List (ℕ × List UInt8) :=
  ((parsePacket .mch false mchRxMaxSubheaders pdu.nBytes pdu.byte).map (entryAt pdu.byte)).filter
    fun x => x.1 ≠ paddingLcid

/-- The LCIDs and stop values in its scheduling information. -/
def readSchedInfos (pdu : ByteBuffer) : List (ℕ × ℕ) :=
  ((readMch pdu).filter fun x => x.1 = mchSchedInfoLcid).flatMap fun x => getMchSchedInfos x.2 256 0

variable {len : ℕ} {pieces : List Piece} {p : MacPdu} {buffer pdu : ByteBuffer} {grantSize : ℕ}

/-- A receiver finds the control elements and the SDUs of a PDU with an SDU. -/
theorem readMch_of_built
    (hframe : SameFrame (.initTx .mch mchMaxSubheaders buffer.clear grantSize false) p)
    (h : Built grantSize pieces p) (hmark : Marked p.lastSduIdx pieces)
    (hpieces : pieces.length ≤ mchMaxSubheaders - 1) (hsdus : sdusOf pieces ≠ [])
    (hwrite : p.writePacket = some pdu) :
    readMch pdu = (cesOf pieces ++ sdusOf pieces).map (·.entry) := by
  obtain ⟨⟨hhead, -, htotal⟩, rfl⟩ := writePacket_eq_some_iff.mp hwrite
  have hlen : p.pduLen = grantSize := hframe.pduLen
  have hmem : ∀ i < p.pduLen, p.written.byte i = p.written.byte i := fun _ _ => rfl
  have hentries := (hlen ▸ h).mch_entries_of_sdu hmem hmark hpieces hsdus hhead
  rw [hframe.type, hframe.isUl] at hentries
  rw [readMch, written_nBytes, htotal]
  exact hentries

/-! ## Filling the PDU -/

section

variable (h : Built len pieces p) (htype : p.type = .mch)
  (hcount : pieces.length < p.maxSubheaders - 1)
include h htype hcount

/-- A control element with one entry takes four bytes. -/
theorem Built.schedInfo (hrem : 4 ≤ p.remLen) (entry : ℕ × ℕ) :
    p.newSubh.setNextMchSchedInfo entry.1 entry.2 = p.withSchedInfos [entry] ∧
      Built len (pieces ++ [schedInfoPiece [entry]]) (p.withSchedInfos [entry]) := by
  have hopen := openSubh_eq_some (h.openSubh_eq hcount (by omega))
  have hspace : (p.withSchedInfos []).hasSpaceCe 2 true := decide_eq_true hrem
  have hset : (p.withSchedInfos []).trySetNextMchSchedInfo entry = some _ := if_pos hspace
  refine ⟨?_, ?_⟩
  · rw [hopen, opened_eq_withSchedInfos htype]
    exact (trySetNextMchSchedInfo_eq (by decide) hset).2
  · have hfresh : Fresh p.type p.pduIsUl (schedInfoPiece [entry]) :=
      htype ▸ fresh_schedInfoPiece p.pduIsUl (by simp) (by simp)
    exact h.withCe hfresh (isSdu_schedInfoSubh (by simp)) rfl hrem

/-- The first SDU. -/
theorem Built.firstSdu (hlast : p.lastSduIdx = none) {lcid : ℕ} (hlcid : lcid ≤ mtchMaxLcid)
    {payload : List UInt8} (hpos : 1 ≤ payload.length) (hrem : payload.length < p.remLen)
    (hroom : p.bufferTx.nBytes + payload.length ≤ emptyTailroom) :
    Left len pieces p (p.newSubh.setSdu lcid payload) [(sdu lcid payload).piece .mch]
      payload.length ((sdu lcid payload).Roomy p.bufferTx.nBytes) := by
  have hempty : emptyTailroom = 12237 := rfl
  have hsdu : (ofLcid .mch lcid).isSdu :=
    decide_eq_true (lt_of_le_of_lt hlcid (by decide : mtchMaxLcid < mchSchedInfoLcid))
  have hvalid : (sdu lcid payload).Valid p.type p.pduIsUl := by
    rw [htype]
    exact ⟨hsdu, hpos, by omega⟩
  exact htype ▸ left_of_apply h hvalid (h.apply_firstSdu hcount hlast lcid hpos hrem hroom)

end

/-- The control element of an MTCH. -/
def infoPiece (mtch : DlMtchSched) : Piece := schedInfoPiece [(mtch.lcid.val, mtch.stop)]

variable {mtchSched done todo : List DlMtchSched} {mcchPayload mtchPayload : List UInt8}

theorem fillMchPdu_schedInfos (hsched : mtchSched = done ++ todo) (rest : List DlSchedPdu)
    (h : Built len pieces p) (htype : p.type = .mch) (hmax : p.maxSubheaders = mchMaxSubheaders)
    (hcount : pieces.length + todo.length ≤ mchMaxSubheaders - 1)
    (hrem : 4 * todo.length ≤ p.remLen) :
    ∃ q, fillMchPdu mtchSched mcchPayload mtchPayload done.length
        (replicate todo.length ⟨mchSchedInfoLcid, 0⟩ ++ rest) p =
        fillMchPdu mtchSched mcchPayload mtchPayload mtchSched.length rest q ∧
      Built len (pieces ++ todo.map infoPiece) q ∧ SameFrame p q ∧ q.lastSduIdx = p.lastSduIdx ∧
      q.remLen = p.remLen - 4 * todo.length ∧ q.bufferTx = p.bufferTx := by
  induction todo generalizing done pieces p with
  | nil =>
    refine ⟨p, ?_, by simpa using h, ⟨rfl, rfl, rfl, rfl⟩, rfl, rfl, rfl⟩
    rw [hsched, append_nil]
    rfl
  | cons mtch todo ih =>
    rw [length_cons] at hcount hrem
    obtain ⟨hset, hbuilt⟩ := h.schedInfo htype (by rw [hmax]; omega) (by omega)
      (mtch.lcid.val, mtch.stop)
    have hsched' : mtchSched = done ++ [mtch] ++ todo := by simpa using hsched
    obtain ⟨q, hfill, hq, hframe, hlast, hqrem, hbuffer⟩ := ih hsched' hbuilt htype hmax
      (by rw [length_append, length_singleton]; omega)
      (by simp only [withSchedInfos, length_singleton]; omega)
    refine ⟨q, ?_, by simpa [infoPiece] using hq,
      ⟨hframe.type, hframe.isUl, hframe.maxSubheaders, hframe.pduLen⟩, hlast, ?_, hbuffer⟩
    · have hmtch : mtchSched[done.length]? = some mtch := by simp [hsched]
      rw [length_cons, replicate_succ, cons_append, fillMchPdu, if_pos rfl, hmtch]
      rw [length_append, length_singleton] at hfill
      rw [← hfill, ← hset]
      rfl
    · rw [hqrem]
      change p.remLen - 4 * 1 - 4 * todo.length = p.remLen - 4 * (todo.length + 1)
      omega

/-! ## What is read -/

section

variable {lcid : MtchLcid} {payload : List UInt8}

/-- What the SDU of an MTCH leaves. -/
theorem left_mtch (buffer : ByteBuffer) (lcid : MtchLcid) (hpos : 1 ≤ payload.length)
    (hfit : payload.length < grantSize) (hroom : payload.length ≤ emptyTailroom) :
    Left grantSize [] (.initTx .mch mchMaxSubheaders buffer.clear grantSize false)
      ((MacPdu.initTx .mch mchMaxSubheaders buffer.clear grantSize false).newSubh.setSdu
        lcid payload)
      [(sdu lcid payload).piece .mch] payload.length ((sdu lcid payload).Roomy 0) :=
  (built_initTx .mch mchMaxSubheaders buffer grantSize false).firstSdu rfl (by decide : 0 < 10 - 1)
    rfl lcid.property.2 hpos hfit ((zero_add payload.length).trans_le hroom)

/-- The data of an MTCH come with its LCID. -/
theorem readMch_mtch (hpos : 1 ≤ payload.length)
    (hfit : payload.length < grantSize) (hroomy : 2 * payload.length ≤ emptyTailroom)
    (hpdu : generateMchPdu buffer mtchSched mcchPayload payload [⟨lcid, payload.length⟩] grantSize =
      some pdu) : readMch pdu = [(lcid.val, payload)] := by
  rw [generateMchPdu_eq_of_mtch] at hpdu
  have hleft := left_mtch buffer lcid hpos hfit (by omega)
  have hroomy : (sdu lcid payload).Roomy 0 := by
    simpa [SetOp.Roomy] using hroomy
  have hsdu : ((sdu lcid payload).piece .mch).subh.isSdu :=
    decide_eq_true (lt_of_le_of_lt lcid.property.2 (by decide : mtchMaxLcid < mchSchedInfoLcid))
  rw [readMch_of_built hleft.frame (hleft.built hroomy)
    (hleft.marked hroomy (by simp [Marked, MacPdu.initTx])) (by simp [mchMaxSubheaders])
    (by simp [sdusOf, hsdu]) hpdu]
  simp [cesOf, sdusOf, hsdu]
  rfl

/-- Data that fit the PDU but are longer than the tailroom behind them: their space is not reserved,
and no PDU is written. -/
theorem generateMchPdu_mtch_none (buffer : ByteBuffer) (mtchSched : List DlMtchSched)
    (mcchPayload : List UInt8) (lcid : MtchLcid) (hfit : payload.length < grantSize)
    (hroom : payload.length ≤ emptyTailroom) (htail : emptyTailroom < 2 * payload.length) :
    generateMchPdu buffer mtchSched mcchPayload payload [⟨lcid, payload.length⟩] grantSize =
      none := by
  rw [generateMchPdu_eq_of_mtch]
  refine (left_mtch buffer lcid (by omega) hfit hroom).writePacket_eq_none rfl ?_
  simpa [SetOp.Roomy] using htail

end

section

variable (hsched : mtchSched.length ≤ 8)
  (hmcch : 1 ≤ mcchPayload.length ∧ mcchPayload.length ≤ 255)
  (hfit : 4 * mtchSched.length + mcchPayload.length < grantSize)
  (hpdu : generateMchPdu buffer mtchSched mcchPayload []
    (replicate mtchSched.length ⟨mchSchedInfoLcid, 0⟩ ++ [⟨0, mcchPayload.length⟩]) grantSize =
      some pdu)
include hsched hmcch hfit hpdu

theorem readMch_mcch :
    readMch pdu = mtchSched.map (fun mtch => (infoPiece mtch).entry) ++ [(0, mcchPayload)] := by
  have hmax : mchMaxSubheaders = 10 := rfl
  have hempty : emptyTailroom = 12237 := rfl
  obtain ⟨q, hfill, hbuilt, hframe, hlast, hrem, hbuffer⟩ :=
    @fillMchPdu_schedInfos _ _ _ mtchSched [] mtchSched mcchPayload [] rfl [⟨0, mcchPayload.length⟩]
      (built_initTx .mch mchMaxSubheaders buffer grantSize false) rfl rfl
      (by simp; omega) (by simp [MacPdu.initTx]; omega)
  have hbytes : q.bufferTx.nBytes = 0 := by
    rw [hbuffer]
    rfl
  have hrem : q.remLen = grantSize - 4 * mtchSched.length := hrem
  have hroomy : (sdu 0 mcchPayload).Roomy q.bufferTx.nBytes := by
    simp only [SetOp.Roomy]
    omega
  have hcount : (mtchSched.map infoPiece).length < q.maxSubheaders - 1 := by
    rw [hframe.maxSubheaders, length_map]
    exact Nat.lt_of_le_of_lt hsched (by decide : 8 < 10 - 1)
  have hleft := hbuilt.firstSdu hframe.type hcount hlast (Nat.zero_le _) hmcch.1 (by omega)
    (by omega)
  rw [generateMchPdu] at hpdu
  change (fillMchPdu mtchSched mcchPayload [] ([] : List DlMtchSched).length _ _).writePacket = _
    at hpdu
  rw [hfill, fillMchPdu, if_neg (by simp [mchSchedInfoLcid]), if_pos rfl, fillMchPdu,
    take_of_length_le le_rfl] at hpdu
  have hces : ∀ x ∈ mtchSched.map infoPiece, x.subh.isSdu = false := by
    intro x hx
    obtain ⟨mtch, -, rfl⟩ := mem_map.mp hx
    exact isSdu_schedInfoSubh (by simp)
  have hcesOf : (mtchSched.map infoPiece).filter (fun x => !x.subh.isSdu) =
      mtchSched.map infoPiece := cesOf_eq_self hces
  have hsdusOf : (mtchSched.map infoPiece).filter (·.subh.isSdu) = [] := sdusOf_eq_nil hces
  have hsdu : ((sdu 0 mcchPayload).piece .mch).subh.isSdu := rfl
  rw [readMch_of_built (hframe.trans hleft.frame) (hleft.built hroomy)
    (hleft.marked hroomy (by rw [hlast]; exact hces)) (by simp; omega) (by simp [sdusOf, hsdu])
    hpdu]
  simp [cesOf, sdusOf, hcesOf, hsdusOf, hsdu]
  rfl

/-- The scheduling information has the LCIDs and stop values of the schedule. -/
theorem readSchedInfos_mcch (hstops : ∀ mtch ∈ mtchSched, mtch.stop < mtchStopEmpty) :
    readSchedInfos pdu = mtchSched.map fun mtch => (mtch.lcid.val, mtch.stop) := by
  have hentry : ∀ mtch, (infoPiece mtch).entry = (mchSchedInfoLcid, (infoPiece mtch).payload) :=
    fun _ => rfl
  have hinfos : ∀ mtch ∈ mtchSched, getMchSchedInfos (infoPiece mtch).payload 256 0 =
      [(mtch.lcid.val, mtch.stop)] := by
    intro mtch hmtch
    have hvalid : SchedInfoValid (mtch.lcid.val, mtch.stop) :=
      ⟨lt_of_le_of_lt mtch.lcid.property.2 (by decide), hstops mtch hmtch⟩
    simpa [infoPiece, schedInfoPiece] using @getMchSchedInfos_eq [(mtch.lcid.val, mtch.stop)]
      (by simpa using hvalid) [] (by simp) [] 0 256 rfl (by simp) (by simp)
  rw [← (List.flatMap_congr hinfos).trans map_eq_flatMap.symm, readSchedInfos,
    readMch_mcch hsched hmcch hfit hpdu]
  simp [hentry, mchSchedInfoLcid, filter_map, Function.comp_def, flatMap_map]

end

end MbmsTx.Mac
