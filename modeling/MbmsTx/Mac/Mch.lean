import MbmsTx.Common.Mbms
import MbmsTx.Mac.Pdu
import MbmsTx.Phy.Tbs

/-!
# Scheduling of the multicast channel

In an MCCH subframe the MAC divides the scheduling period among the multicast traffic channels
(MTCH), announces a stop value for each, and sends the MCCH. In the other MBSFN subframes it counts
the subframes and sends data of the MTCH whose turn it is.
-/

namespace MbmsTx.Mac

open MbmsTx.Phy List MacPdu ByteBuffer

/-! ## The PDUs of the multicast channel -/

/-- `dl_sched_pdu_t`. -/
structure DlSchedPdu where
  lcid : ℕ
  nbytes : ℕ
  deriving DecidableEq

/-- `dl_mtch_sched_t`. -/
structure DlMtchSched where
  lcid : MtchLcid
  lcidBufferSize : ℕ
  stop : ℕ
  deriving DecidableEq

/-- The loop of `ue::generate_mch_pdu`, from element `i` on. -/
def fillMchPdu (mtchSched : List DlMtchSched) (mcchPayload mtchPayload : List UInt8) :
    (i : ℕ) → List DlSchedPdu → MacPdu → MacPdu
  | _, [], p => p
  | i, elem :: pdu, p =>
    let p :=
      if elem.lcid = mchSchedInfoLcid then
        p.newSubh.setNextMchSchedInfo ((mtchSched[i]?.map (·.lcid.val)).getD 0)
          ((mtchSched[i]?.map (·.stop)).getD 0)
      else if elem.lcid = 0 then p.newSubh.setSdu 0 (mcchPayload.take elem.nbytes)
      else if elem.lcid ≤ mtchMaxLcid then
        p.newSubh.setSdu elem.lcid (mtchPayload.take elem.nbytes)
      else p
    fillMchPdu mtchSched mcchPayload mtchPayload (i + 1) pdu p

/-- The number of subheaders of `mch_mac_msg_dl`. -/
def mchMaxSubheaders : ℕ := 10

/-- `ue::generate_mch_pdu` into the transmit buffer of the HARQ process. -/
def generateMchPdu (buffer : ByteBuffer) (mtchSched : List DlMtchSched)
    (mcchPayload mtchPayload : List UInt8) (pdu : List DlSchedPdu) (grantSize : ℕ) :
    Option ByteBuffer :=
  (fillMchPdu mtchSched mcchPayload mtchPayload 0 pdu
    (.initTx .mch mchMaxSubheaders buffer.clear grantSize false)).writePacket

/-! ## The scheduler -/

/-- What `write_mcch` and the cell configuration give to the MAC. There are one to eight MTCHs; the
MCCH message is not empty and its length is a byte. -/
structure MchCfg where
  nofPrb : ℕ
  area : MbsfnAreaInfo
  pmch : PmchInfo
  mcchPayload : List UInt8
  nofPrb_valid : 6 ≤ nofPrb ∧ nofPrb ≤ maxPrb
  sessions_valid : 1 ≤ pmch.mbmsSessionInfoList.length ∧ pmch.mbmsSessionInfoList.length ≤ 8
  mcch_valid : 1 ≤ mcchPayload.length ∧ mcchPayload.length ≤ 255

/-- The multicast schedule, `dl_pdu_mch_t`, but for its array of PDU elements, which is rewritten
before each use. -/
structure Mch where
  mtchSched : List DlMtchSched
  currentSfAllocationNum : ℕ
  deriving DecidableEq

/-- The schedule that `write_mcch` sets up. -/
def Mch.init (cfg : MchCfg) : Mch :=
  { mtchSched := cfg.pmch.mbmsSessionInfoList.map fun lcid =>
      { lcid := lcid, lcidBufferSize := 0, stop := 0 }
    currentSfAllocationNum := 0 }

/-- `mac::rlc_buffer_state` for the multicast RNTI. -/
def Mch.rlcBufferState (mch : Mch) (lcid txQueue : ℕ) : Mch :=
  { mch with
      mtchSched := mch.mtchSched.map fun mtch =>
        if lcid = mtch.lcid then { mtch with lcidBufferSize := txQueue } else mtch }

/-- The TBS of the signalling subframes. -/
def MchCfg.sigTbs (cfg : MchCfg) : ℕ :=
  (dlFillRaMcs cfg.area.mcchCfg.sigMcs.toNumber 0 cfg.nofPrb false).toNat

/-- The TBS of the data subframes. -/
def MchCfg.dataTbs (cfg : MchCfg) : ℕ :=
  (dlFillRaMcs cfg.pmch.dataMcs 0 cfg.nofPrb false).toNat

/-- A loop of `build_mch_sched`: each MTCH stops `assigned` subframes after the last. -/
def assignStops (assigned : ℕ → ℕ) : (lastMtchStop : ℕ) → List DlMtchSched → List DlMtchSched
  | _, [] => []
  | lastMtchStop, mtch :: rest =>
    let stop := lastMtchStop + assigned mtch.lcidBufferSize
    { mtch with stop := stop } :: assignStops assigned stop rest

def buildMchSched (sfAllocEnd tbs : ℕ) (mtchSched : List DlMtchSched) : List DlMtchSched :=
  let sfsPerSchedPeriod := sfAllocEnd
  let bytesPerSf : ℤ := (tbs / 8 : ℕ) - 6
  let totalSpaceAvailBytes := sfsPerSchedPeriod * bytesPerSf
  -- the buffer sizes are uint32_t, and their sum is an int
  let totalBytesToTx := (((mtchSched.map (·.lcidBufferSize)).sum : ℕ) : ℤ).bmod (2 ^ 32)
  if totalBytesToTx > 0 ∧ totalSpaceAvailBytes ≤ totalBytesToTx then
    -- the ratio is an integer division
    assignStops (fun bufferSize => sfsPerSchedPeriod * (bufferSize / totalBytesToTx.toNat)) 0
      mtchSched
  else
    assignStops (fun bufferSize => (bufferSize + bytesPerSf.toNat - 1) / bytesPerSf.toNat) 0
      mtchSched

/-- What `get_mch_sched` gives the PHY: the RNTI, the PDU, and in an MCCH subframe the last stop
value. -/
structure MchSchedResult where
  rnti : ℕ
  data : Option ByteBuffer
  mchPeriodStop : Option ℕ

/-- `SRSRAN_MRNTI`. -/
def mrnti : ℕ := 0xFFFD

/-- The stop value of the last MTCH. -/
def Mch.lastStop (mch : Mch) : ℕ := (mch.mtchSched.getLast?.map (·.stop)).getD 0

/-- The MTCH whose turn it is: the first that has not passed its stop value. -/
def Mch.currentMtch (mch : Mch) : Option DlMtchSched :=
  mch.mtchSched.find? fun mtch => mch.currentSfAllocationNum ≤ mtch.stop

/-- The bytes `get_mch_sched` requests from RLC for the current MTCH. -/
def requestedBytes (dataTbs bufferSize : ℕ) : ℕ :=
  if dataTbs / 8 > bufferSize then bufferSize else dataTbs / 8 - 2

/-- What RLC delivers to `get_mch_sched` for the current MTCH, where `readPdu lcid n` answers a
request of `n` bytes. Without a match the loop over the MTCHs leaves the first one selected. -/
def Mch.readMtch (mch : Mch) (dataTbs : ℕ) (readPdu : ℕ → ℕ → List UInt8) : List UInt8 :=
  let mtch := mch.currentMtch <|> mch.mtchSched.head?
  readPdu ((mch.currentMtch.map (·.lcid.val)).getD 1)
    (requestedBytes dataTbs ((mtch.map (·.lcidBufferSize)).getD 0))

/-- `get_mch_sched` into the transmit buffer of the HARQ process. -/
def getMchSched (cfg : MchCfg) (mch : Mch) (isMcch : Bool) (readPdu : ℕ → ℕ → List UInt8)
    (buffer : ByteBuffer) : Mch × MchSchedResult :=
  if isMcch then
    let mch :=
      { mtchSched := buildMchSched cfg.pmch.sfAllocEnd cfg.dataTbs mch.mtchSched
        currentSfAllocationNum := 1 : Mch }
    let pdu :=
      List.replicate mch.mtchSched.length { lcid := mchSchedInfoLcid, nbytes := 0 } ++
        [{ lcid := 0, nbytes := cfg.mcchPayload.length }]
    (mch,
      { rnti := mrnti
        data := generateMchPdu buffer mch.mtchSched cfg.mcchPayload [] pdu (cfg.sigTbs / 8)
        mchPeriodStop := some mch.lastStop })
  else
    let result :=
      if mch.currentSfAllocationNum ≤ mch.lastStop then
        let payload := mch.readMtch cfg.dataTbs readPdu
        let pdu :=
          [{ lcid := (mch.currentMtch.map (·.lcid.val)).getD 1, nbytes := payload.length }]
        { rnti := mrnti
          data :=
            if payload.length ≠ 0 then
              generateMchPdu buffer mch.mtchSched cfg.mcchPayload payload pdu (cfg.dataTbs / 8)
            else none
          mchPeriodStop := none }
      else { rnti := 0, data := none, mchPeriodStop := none }
    ({ mch with currentSfAllocationNum := mch.currentSfAllocationNum + 1 }, result)

@[simp] theorem length_assignStops (assigned : ℕ → ℕ) (last : ℕ) (mtchSched : List DlMtchSched) :
    (assignStops assigned last mtchSched).length = mtchSched.length := by
  induction mtchSched generalizing last with
  | nil => rfl
  | cons mtch rest ih => simp [assignStops, ih]

@[simp] theorem length_buildMchSched (sfAllocEnd tbs : ℕ) (mtchSched : List DlMtchSched) :
    (buildMchSched sfAllocEnd tbs mtchSched).length = mtchSched.length := by
  unfold buildMchSched
  simp only
  split <;> simp

theorem map_lcidBufferSize_assignStops (assigned : ℕ → ℕ) (last : ℕ)
    (mtchSched : List DlMtchSched) :
    (assignStops assigned last mtchSched).map (·.lcidBufferSize) =
      mtchSched.map (·.lcidBufferSize) := by
  induction mtchSched generalizing last with
  | nil => rfl
  | cons mtch rest ih => simp [assignStops, ih]

theorem map_lcidBufferSize_buildMchSched (sfAllocEnd tbs : ℕ) (mtchSched : List DlMtchSched) :
    (buildMchSched sfAllocEnd tbs mtchSched).map (·.lcidBufferSize) =
      mtchSched.map (·.lcidBufferSize) := by
  unfold buildMchSched
  simp only
  split <;> exact map_lcidBufferSize_assignStops _ _ _

theorem pairwise_assignStops (assigned : ℕ → ℕ) (last : ℕ) (mtchSched : List DlMtchSched) :
    ((assignStops assigned last mtchSched).map (·.stop)).Pairwise (· ≤ ·) ∧
      ∀ stop ∈ (assignStops assigned last mtchSched).map (·.stop), last ≤ stop := by
  induction mtchSched generalizing last with
  | nil => simp [assignStops]
  | cons mtch rest ih =>
    obtain ⟨hsorted, hge⟩ := ih (last + assigned mtch.lcidBufferSize)
    simp only [assignStops, map_cons, pairwise_cons, mem_cons, forall_eq_or_imp]
    refine ⟨⟨hge, hsorted⟩, Nat.le_add_right _ _, fun stop hstop => ?_⟩
    exact (Nat.le_add_right _ _).trans (hge stop hstop)

theorem pairwise_buildMchSched (sfAllocEnd tbs : ℕ) (mtchSched : List DlMtchSched) :
    ((buildMchSched sfAllocEnd tbs mtchSched).map (·.stop)).Pairwise (· ≤ ·) := by
  unfold buildMchSched
  simp only
  split
  · exact (pairwise_assignStops _ _ _).1
  · exact (pairwise_assignStops _ _ _).1

/-! ## The length of a generated PDU -/

/-- A PDU of the multicast channel, with at most `n` subheaders. -/
structure MchBuild (p : MacPdu) (pduLen n : ℕ) : Prop where
  balanced : p.Balanced
  type : p.type = .mch
  maxSubheaders : p.maxSubheaders = mchMaxSubheaders
  pduLen : p.pduLen = pduLen
  count : p.subheaders.length ≤ n
  ce : ∀ s ∈ p.subheaders, s.isSdu = false → s.nofBytes ≤ 2
  msg : p.bufferTx.msg = bufferHeaderOffset

variable {p : MacPdu} {pduLen n : ℕ}

theorem mchBuild_initTx (buffer : ByteBuffer) (pduLen : ℕ) :
    MchBuild (.initTx .mch mchMaxSubheaders buffer.clear pduLen false) pduLen 0 :=
  { balanced := balanced_initTx _ _ _ _ rfl
    type := rfl
    maxSubheaders := rfl
    pduLen := rfl
    count := le_rfl
    ce := by simp [MacPdu.initTx]
    msg := rfl }

section

variable (h : MchBuild p pduLen n)
include h

/-- With a subheader to spare, `newSubh` needs two bytes. -/
theorem MchBuild.newSubh_eq (hn : n < 9) : p.newSubh =
      if 2 ≤ p.remLen then { p with subheaders := p.subheaders ++ [.init .mch] } else p := by
  have hcount := h.count
  have hhead : 1 < p.bufferTx.headroom := by
    rw [headroom, h.msg]
    decide
  have hroom : p.subheaders.length < p.maxSubheaders - 1 := by
    rw [h.maxSubheaders, mchMaxSubheaders]
    omega
  simp [MacPdu.newSubh, hroom, hhead, h.type]

theorem MchBuild.newSubh (hrem : 2 ≤ p.remLen) (hn : n < 9) :
    MchBuild p.newSubh pduLen (n + 1) := by
  rw [h.newSubh_eq hn, if_pos hrem]
  refine { h with
    balanced := h.balanced.concat_init .mch
    count := by simpa using h.count
    ce := ?_ }
  intro s hs hsdu
  rcases mem_append.mp hs with hs | hs
  · exact h.ce s hs hsdu
  · obtain rfl := mem_singleton.mp hs
    simp at hsdu

theorem MchBuild.mono {m : ℕ} (hm : n ≤ m) : MchBuild p pduLen m :=
  { h with count := h.count.trans hm }

theorem MchBuild.schedInfo (hn : n < 9) (lcid mtchStop : ℕ) :
    MchBuild (p.newSubh.setNextMchSchedInfo lcid mtchStop) pduLen (n + 1) ∧
      (p.newSubh.setNextMchSchedInfo lcid mtchStop).bufferTx = p.bufferTx := by
  by_cases hrem : 2 ≤ p.remLen
  case neg =>
    have hspace : ¬ p.hasSpaceCe 2 true := by
      simp [hasSpaceCe, sizeHeaderSdu]
      omega
    rw [h.newSubh_eq hn, if_neg hrem, setNextMchSchedInfo, if_neg hspace]
    exact ⟨h.mono n.le_succ, rfl⟩
  have hnew := h.newSubh hrem hn
  rw [h.newSubh_eq hn, if_pos hrem] at hnew ⊢
  rcases setNextMchSchedInfo_new
      (p := { p with subheaders := p.subheaders ++ [.init .mch] }) lcid mtchStop rfl with
    hsame | ⟨hfour, hset⟩
  · rw [hsame]
    exact ⟨hnew, rfl⟩
  rw [hset]
  refine ⟨{ hnew with
    balanced := h.balanced.addCe rfl rfl hfour
    count := by simpa using hnew.count
    ce := ?_ }, rfl⟩
  intro s' hs' hsdu'
  rcases mem_append.mp hs' with hs' | hs'
  · exact h.ce s' hs' hsdu'
  · obtain rfl := mem_singleton.mp hs'
    rfl

variable {payload : List UInt8}

/-- An SDU keeps the account, if the tailroom behind it is at least its length. -/
theorem MchBuild.sdu (hn : n < 9) {lcid : ℕ} (hlcid : lcid ≤ mtchMaxLcid)
    (hpos : 1 ≤ payload.length) (htail : p.bufferTx.nBytes + 2 * payload.length ≤ emptyTailroom) :
    MchBuild (p.newSubh.setSdu lcid payload) pduLen (n + 1) := by
  have hheader := h.balanced.headerSz_eq
  by_cases hrem : 2 ≤ p.remLen
  case neg =>
    have hspace : ¬ p.hasSpaceSdu payload.length := by
      have hle : p.getSduSpace ≤ p.remLen - p.newSduHeader := min_le_left _ _
      simp [hasSpaceSdu]
      omega
    rw [h.newSubh_eq hn, if_neg hrem, MacPdu.setSdu, if_neg hspace]
    exact h.mono n.le_succ
  have hnew := h.newSubh hrem hn
  rw [h.newSubh_eq hn, if_pos hrem] at hnew ⊢
  rw [setSdu_new (p := { p with subheaders := p.subheaders ++ [.init .mch] }) lcid payload
    rfl h.balanced.lastSduIdx_ne]
  split
  case isFalse => exact hnew
  case isTrue hspace =>
  have htailroom : payload.length ≤ (p.bufferTx.append payload).tailroom := by
    rw [ByteBuffer.tailroom_eq (by simpa using h.msg) (by rw [append_nBytes]; omega), append_nBytes]
    omega
  simp only [htailroom, if_true]
  set q : MacPdu := { p with subheaders := p.subheaders ++ [.init .mch] } with hq
  -- the last SDU is still the same in `q`, so its header costs the same
  have hnewHeader : q.newSduHeader = p.newSduHeader := by
    have hqheader := hnew.balanced.headerSz_eq
    have hsum : headerSz q.subheaders none = headerSz p.subheaders none := by
      simp [hq, headerSz_concat]
    have hsum' : headerSz q.subheaders q.lastSduIdx = headerSz p.subheaders p.lastSduIdx := by
      simp [hq, headerSz_concat, h.balanced.lastSduIdx_ne]
    omega
  have hfit : payload.length ≤ p.remLen - p.newSduHeader := by
    rw [← hnewHeader]
    exact le_trans hspace (min_le_left _ _)
  have hlt : lcid < 30 := lt_of_le_of_lt hlcid (by decide)
  set s : SchSubh := { SchSubh.init .mch with lcid := lcid, nofBytes := payload.length } with hs
  have hsdu : s.isSdu := by simp [hs, SchSubh.isSdu, SchSubh.init, mchSchedInfoLcid, hlt]
  rw [hnewHeader]
  refine { hnew with
    balanced := h.balanced.addSdu hsdu rfl hpos (by omega)
    count := by simpa using h.count
    ce := ?_ }
  intro s' hs' hsdu'
  rcases mem_append.mp hs' with hs' | hs'
  · exact h.ce s' hs' hsdu'
  · obtain rfl := mem_singleton.mp hs'
    rw [hsdu] at hsdu'
    cases hsdu'

omit h in
theorem headerSz_none_le (l : List SchSubh) : headerSz l none ≤ 3 * l.length := by
  induction l with
  | nil => simp
  | cons s l ih =>
    have hle : s.getHeaderSize false ≤ 3 := by
      unfold SchSubh.getHeaderSize sizeHeaderSdu
      split_ifs <;> omega
    rw [headerSz_cons_none, length_cons]
    omega

omit h in
theorem cePayloadSz_le {l : List SchSubh} (hce : ∀ s ∈ l, s.isSdu = false → s.nofBytes ≤ 2) :
    cePayloadSz l ≤ 2 * l.length := by
  induction l with
  | nil => rfl
  | cons s l ih =>
    have hl := ih fun s' hs' => hce s' (mem_cons_of_mem _ hs')
    have hs := hce s mem_cons_self
    simp only [cePayloadSz, filter_cons, length_cons] at hl ⊢
    cases h : s.isSdu with
    | true => simp; omega
    | false =>
      have := hs h
      simp
      omega

theorem MchBuild.writePacket (hn : n ≤ 9) (hlen : pduLen ≤ emptyTailroom) :
    ∃ buffer, p.writePacket = some buffer ∧ buffer.nBytes = pduLen := by
  have hheader := headerSz_none_le p.subheaders
  have hce := cePayloadSz_le h.ce
  have hcount := h.count
  have hoff : bufferHeaderOffset = 1020 := rfl
  have hwritten := h.balanced.writePacket h.msg (h.pduLen ▸ hlen) (by omega)
  rwa [h.pduLen] at hwritten

theorem MchBuild.fillMchPdu_replicate (mtchSched : List DlMtchSched)
    (mcchPayload mtchPayload : List UInt8) (rest : List DlSchedPdu) (k i : ℕ) (hn : n + k ≤ 9) :
    ∃ q, MchBuild q pduLen (n + k) ∧ q.bufferTx = p.bufferTx ∧
      fillMchPdu mtchSched mcchPayload mtchPayload i (replicate k ⟨mchSchedInfoLcid, 0⟩ ++ rest) p =
        fillMchPdu mtchSched mcchPayload mtchPayload (i + k) rest q := by
  induction k generalizing p n i with
  | zero => exact ⟨p, h, rfl, rfl⟩
  | succ k ih =>
    obtain ⟨hbuild, hbuffer⟩ := h.schedInfo (by omega)
      ((mtchSched[i]?.map (·.lcid.val)).getD 0) ((mtchSched[i]?.map (·.stop)).getD 0)
    obtain ⟨q, hq, hqbuffer, hfill⟩ := ih hbuild (i + 1) (by omega)
    refine ⟨q, ?_, hqbuffer.trans hbuffer, ?_⟩
    · rwa [add_assoc, add_comm 1 k] at hq
    · rw [replicate_succ, cons_append, fillMchPdu, if_pos rfl, hfill]
      congr 1
      omega

end

variable (buffer : ByteBuffer) (mtchSched : List DlMtchSched)

theorem generateMchPdu_mcch
    {mcchPayload : List UInt8} {grantSize : ℕ} (hsched : mtchSched.length ≤ 8)
    (hmcch : 1 ≤ mcchPayload.length ∧ mcchPayload.length ≤ 255)
    (hgrant : grantSize ≤ emptyTailroom) :
    ∃ pdu, generateMchPdu buffer mtchSched mcchPayload []
        (replicate mtchSched.length ⟨mchSchedInfoLcid, 0⟩ ++ [⟨0, mcchPayload.length⟩])
        grantSize = some pdu ∧ pdu.nBytes = grantSize := by
  obtain ⟨q, hq, hbuffer, hfill⟩ := (mchBuild_initTx buffer grantSize).fillMchPdu_replicate
    mtchSched mcchPayload [] [⟨0, mcchPayload.length⟩] mtchSched.length 0 (by omega)
  have hempty : emptyTailroom = 12237 := rfl
  have hbytes : q.bufferTx.nBytes = 0 := by
    rw [hbuffer]
    rfl
  have hsdu := hq.sdu (by omega) (Nat.zero_le mtchMaxLcid) hmcch.1 (by omega)
  rw [generateMchPdu, hfill, fillMchPdu, if_neg (by simp [mchSchedInfoLcid]), if_pos rfl,
    fillMchPdu, take_of_length_le le_rfl]
  exact hsdu.writePacket (by omega) hgrant

theorem generateMchPdu_eq_of_mtch
    (mcchPayload payload : List UInt8) (lcid : MtchLcid) (grantSize : ℕ) :
    generateMchPdu buffer mtchSched mcchPayload payload [⟨lcid, payload.length⟩] grantSize =
      (((MacPdu.initTx .mch mchMaxSubheaders buffer.clear grantSize false).newSubh).setSdu
        lcid payload).writePacket := by
  have hne : (lcid : ℕ) ≠ mchSchedInfoLcid ∧ (lcid : ℕ) ≠ 0 ∧ (lcid : ℕ) ≤ mtchMaxLcid := by
    have hlcid := lcid.property
    refine ⟨?_, ?_, hlcid.2⟩
    · rw [mchSchedInfoLcid]
      omega
    · omega
  rw [generateMchPdu, fillMchPdu, if_neg hne.1, if_neg hne.2.1, if_pos hne.2.2, fillMchPdu,
    take_of_length_le le_rfl]

variable (mcchPayload : List UInt8)

theorem generateMchPdu_mtch (lcid : MtchLcid) (grantSize : ℕ) (hpos : 1 ≤ payload.length)
    (htail : 2 * payload.length ≤ emptyTailroom) (hgrant : grantSize ≤ emptyTailroom) :
    ∃ pdu, generateMchPdu buffer mtchSched mcchPayload payload [⟨lcid, payload.length⟩] grantSize =
      some pdu ∧ pdu.nBytes = grantSize := by
  rw [generateMchPdu_eq_of_mtch]
  have hbytes : (MacPdu.initTx .mch mchMaxSubheaders buffer.clear grantSize false).bufferTx.nBytes +
      2 * payload.length ≤ emptyTailroom := by
    simpa [MacPdu.initTx, ByteBuffer.clear] using htail
  exact ((mchBuild_initTx buffer grantSize).sdu (by omega) lcid.property.2 hpos hbytes).writePacket
    (by omega) hgrant

end MbmsTx.Mac
