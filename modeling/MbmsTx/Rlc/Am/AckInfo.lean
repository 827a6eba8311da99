import MbmsTx.Rlc.Am.PoolInv

/-!
# Acknowledging the segments of an RLC PDU

What `update_notification_ack_info` does to the place of one SDU: its list loses the segments of the
acknowledged RLC PDU, and if nothing is left of an SDU that was completely transmitted, its place is
cleared and its SN is put into the notification vector.

The SNs are below the size of the buffer, so every SDU has the place of its own number (`Plain`).
-/

namespace MbmsTx.Rlc.Am.SegmentTracking

open List

variable {t u : SegmentTracking} {lists : ℕ → List ℕ} {notify ids : List ℕ} {id sn capacity : ℕ}

/-! ## A new segment -/

/-- A free resource becomes a segment of the SDU `pdcpSn` in the RLC PDU `rlcSn`; with the last
segment the SDU is fully transmitted. -/
def Segmented (t : SegmentTracking) (rlcSn pdcpSn : ℕ) (last : Bool) (u : SegmentTracking) : Prop :=
  ∃ id, t.rlcSn id = none ∧ t.pdcpSn id = none ∧
    (∀ other, u.rlcSn other = if other = id then some rlcSn else t.rlcSn other) ∧
    ∀ i, u.pdus i =
      if i = pduIndex pdcpSn then
        { sn := some pdcpSn
          fullyTxed := (t.pdus i).fullyTxed || last
          list := id :: (t.pdus i).list }
      else t.pdus i

theorem PoolInv.segmented (h : PoolInv t lists) (hsegments : t.hasSegments) {pdcpSn : ℕ}
    (hsn : (t.pdus (pduIndex pdcpSn)).sn = some pdcpSn) (rlcSn left : ℕ) (list : List ℕ) :
    Segmented t rlcSn pdcpSn (decide (left = 0))
      ((t.makeSegment rlcSn pdcpSn list).1.markFullyTxed pdcpSn left) := by
  cases hfree : t.freeList with
  | nil => exact absurd hsegments (by simp [hasSegments, hfree])
  | cons id free =>
    obtain ⟨-, hrlc, hpdcp⟩ := h.free.mem.mp (hfree ▸ mem_cons_self)
    refine ⟨id, hrlc, hpdcp, fun other => ?_, fun i => ?_⟩
    · unfold SegmentTracking.markFullyTxed
      simp only [SegmentTracking.makeSegment, hfree]
      split
      · rfl
      · rfl
    · unfold SegmentTracking.markFullyTxed
      simp only [SegmentTracking.makeSegment, hfree, modifyPdu]
      by_cases hi : i = pduIndex pdcpSn
      · by_cases hleft : left = 0
        · simp [hi, hleft, hsn]
        · simp [hi, hleft, hsn]
      · by_cases hleft : left = 0
        · simp [hi, hleft]
        · simp [hi, hleft]

theorem PoolInv.segmented_addPdcpSdu (h : PoolInv t lists) (hsegments : t.hasSegments)
    {pdcpSn : ℕ} (hsn : (t.pdus (pduIndex pdcpSn)).sn = none) (rlcSn left : ℕ) (list : List ℕ) :
    Segmented t rlcSn pdcpSn (decide (left = 0))
      (((t.addPdcpSdu pdcpSn).makeSegment rlcSn pdcpSn list).1.markFullyTxed pdcpSn left) := by
  have hadd : (t.addPdcpSdu pdcpSn).rlcSn = t.rlcSn ∧ (t.addPdcpSdu pdcpSn).pdcpSn = t.pdcpSn ∧
      (t.addPdcpSdu pdcpSn).freeList = t.freeList ∧
      ∀ i, (t.addPdcpSdu pdcpSn).pdus i =
        if i = pduIndex pdcpSn then { t.pdus i with sn := some pdcpSn } else t.pdus i := by
    simp [SegmentTracking.addPdcpSdu, hsn, modifyPdu]
  obtain ⟨hrlc, hpdcp, hfree, hpdus⟩ := hadd
  have hhas : (t.addPdcpSdu pdcpSn).hasSegments := by
    rw [hasSegments, hfree]
    exact hsegments
  obtain ⟨id, hidRlc, hidPdcp, hnewRlc, hnewPdus⟩ :=
    (h.addPdcpSdu pdcpSn).segmented hhas (sn_addPdcpSdu t pdcpSn) rlcSn left list
  rw [hrlc] at hidRlc hnewRlc
  rw [hpdcp] at hidPdcp
  refine ⟨id, hidRlc, hidPdcp, hnewRlc, fun i => (hnewPdus i).trans ?_⟩
  rw [hpdus]
  split
  · rfl
  · rfl

/-! ## One acknowledged segment -/

/-- Every SDU in the list has the place of its own number. -/
def Plain (t : SegmentTracking) : Prop := ∀ {i sn}, (t.pdus i).sn = some sn → i = some sn

/-- A round for a segment that its SDU has released does nothing; otherwise it is acknowledged, and
the SDU is notified and cleared if it was the last one. -/
theorem ackOne_cases (capacity : ℕ) (st : SegmentTracking × List ℕ) (id : ℕ) :
    st.1.pdcpSn id = none ∧ ackOne capacity st id = st ∨
      ∃ sn, st.1.pdcpSn id = some sn ∧
        (((st.1.ackSegment sn id).pdus (pduIndex sn)).fullyAcked ∧
            ackOne capacity st id = ((st.1.ackSegment sn id).clearPdcpSdu sn,
              if st.2.length < capacity then st.2 ++ [sn] else st.2) ∨
          ((st.1.ackSegment sn id).pdus (pduIndex sn)).fullyAcked = false ∧
            ackOne capacity st id = (st.1.ackSegment sn id, st.2)) := by
  unfold ackOne
  split
  · next hnone => exact .inl ⟨hnone, rfl⟩
  rename_i sn hsn
  refine .inr ⟨sn, hsn, ?_⟩
  dsimp only
  split
  · next hacked => exact .inl ⟨hacked, rfl⟩
  · next hacked => exact .inr ⟨by simpa using hacked, rfl⟩

/-- Acknowledging keeps the RLC SNs, and gives no place and no resource another PDCP SN. -/
structure AckFrame (t u : SegmentTracking) : Prop where
  rlcSn : u.rlcSn = t.rlcSn
  sn : ∀ {i sn}, (u.pdus i).sn = some sn → (t.pdus i).sn = some sn
  pdcpSn : ∀ {id sn}, u.pdcpSn id = some sn → t.pdcpSn id = some sn

theorem AckFrame.trans {v : SegmentTracking} (htu : AckFrame t u) (huv : AckFrame u v) :
    AckFrame t v :=
  ⟨huv.rlcSn.trans htu.rlcSn, fun h => htu.sn (huv.sn h), fun h => htu.pdcpSn (huv.pdcpSn h)⟩

theorem Cleared.ackFrame {i : Option ℕ} {info : PdcpPduInfo} (h : Cleared t i ids info u)
    (hinfo : ∀ sn, info.sn = some sn → (t.pdus i).sn = some sn) : AckFrame t u := by
  refine ⟨h.rlcSn, fun {j sn} hsn => ?_, fun {id sn} hsn => ?_⟩
  · rw [h.pdus] at hsn
    split at hsn
    · next hj =>
      rw [hj]
      exact hinfo sn hsn
    · exact hsn
  · rw [h.pdcpSn] at hsn
    split at hsn
    · cases hsn
    · exact hsn

theorem ackFrame_clearPdcpSdu (t : SegmentTracking) (sn : ℕ) : AckFrame t (t.clearPdcpSdu sn) := by
  unfold clearPdcpSdu
  split
  · have hclear := (cleared_clearPdu t sn).ackFrame (by simp)
    exact { hclear with }
  · exact ⟨rfl, fun h => h, fun h => h⟩

theorem ackFrame_ackOne (capacity : ℕ) (st : SegmentTracking × List ℕ) (id : ℕ) :
    AckFrame st.1 (ackOne capacity st id).1 := by
  rcases ackOne_cases capacity st id with ⟨-, heq⟩ | ⟨sn, -, ⟨-, heq⟩ | ⟨-, heq⟩⟩
  · rw [heq]
    exact ⟨rfl, fun h => h, fun h => h⟩
  · rw [heq]
    exact ((cleared_ackSegment st.1 sn id).ackFrame fun _ h => h).trans (ackFrame_clearPdcpSdu _ sn)
  · rw [heq]
    exact (cleared_ackSegment st.1 sn id).ackFrame fun _ h => h

theorem notify_ackOne (capacity : ℕ) (st : SegmentTracking × List ℕ) (id : ℕ) :
    (ackOne capacity st id).2 = st.2 ∨
      ∃ sn, st.1.pdcpSn id = some sn ∧ (ackOne capacity st id).2 = st.2 ++ [sn] := by
  rcases ackOne_cases capacity st id with ⟨-, heq⟩ | ⟨sn, hsn, ⟨-, heq⟩ | ⟨-, heq⟩⟩
  · exact .inl (by rw [heq])
  · rw [heq]
    split
    · exact .inr ⟨sn, hsn, rfl⟩
    simp
  · exact .inl (by rw [heq])

theorem pdus_clearPdcpSdu {i : Option ℕ} (hi : i ≠ pduIndex sn) :
    (t.clearPdcpSdu sn).pdus i = t.pdus i := by
  unfold clearPdcpSdu
  split
  · change (t.clearPdu sn).pdus i = _
    rw [(cleared_clearPdu t sn).pdus, if_neg hi]
  · rfl

/-- The place of an SDU before and after rounds that acknowledged the segments `ids`: its list loses
them; or nothing is left of a completely transmitted SDU, which is cleared, and notified unless the
vector is full. -/
def PlaceAcked (capacity sn : ℕ) (ids : List ℕ) (st st' : SegmentTracking × List ℕ) : Prop :=
  (st'.1.pdus (some sn) =
        { st.1.pdus (some sn) with list := (st.1.pdus (some sn)).list.filter (· ∉ ids) } ∧
      ((st.1.pdus (some sn)).fullyTxed = true → (st.1.pdus (some sn)).list.filter (· ∉ ids) ≠ []) ∧
      st'.2.count sn = st.2.count sn) ∨
    ((st.1.pdus (some sn)).sn = some sn ∧ (st.1.pdus (some sn)).fullyTxed = true ∧
      (st.1.pdus (some sn)).list.filter (· ∉ ids) = [] ∧ st'.1.pdus (some sn) = {} ∧
      (st'.2.count sn = st.2.count sn + 1 ∨
        st'.2.count sn = st.2.count sn ∧ capacity ≤ st'.2.length))

theorem PoolInv.placeAcked_ackOne {st : SegmentTracking × List ℕ} (h : PoolInv st.1 lists)
    (hplain : Plain st.1)
    (hbusy : (st.1.pdus (some sn)).fullyTxed → (st.1.pdus (some sn)).list ≠ []) :
    PlaceAcked capacity sn [id] st (ackOne capacity st id) := by
  have hfilter : (st.1.pdus (some sn)).list.filter (· ∉ [id]) =
      (st.1.pdus (some sn)).list.erase id := by
    rw [(h.pdcp.nodup _).erase_eq_filter]
    congr 1
    funext other
    simp [bne, Bool.beq_eq_decide_eq]
  unfold PlaceAcked
  rw [hfilter]
  by_cases hmem : id ∈ (st.1.pdus (some sn)).list
  · -- the segment is one of this SDU
    obtain ⟨sn', hsn', hindex⟩ := h.mem_pdus.mp hmem
    have hsn := (h.sn_eq hmem).trans hsn'
    obtain rfl := Option.some.inj (hplain hsn)
    have hinfo : (st.1.ackSegment sn id).pdus (some sn) =
        { st.1.pdus (some sn) with list := (st.1.pdus (some sn)).list.erase id } := by
      rw [(cleared_ackSegment st.1 sn id).pdus, if_pos hindex.symm, hindex]
    rcases ackOne_cases capacity st id with ⟨hnone, -⟩ | ⟨sn', hsome, hcases⟩
    · exact absurd (hnone.symm.trans hsn') (by simp)
    obtain rfl := Option.some.inj (hsome.symm.trans hsn')
    rw [hindex, hinfo] at hcases
    rcases hcases with ⟨hacked, heq⟩ | ⟨hacked, heq⟩
    · simp only [PdcpPduInfo.fullyAcked, Bool.and_eq_true, List.isEmpty_iff] at hacked
      refine .inr ⟨hsn, hacked.1, hacked.2, ?_, ?_⟩
      · have hplace : ((st.1.ackSegment sn' id).pdus (pduIndex sn')).sn = some sn' := by
          rw [hindex, hinfo]
          exact hsn
        rw [heq, ← hindex]
        rw [SegmentTracking.clearPdcpSdu, if_pos (by simp [hplace])]
        rw [(cleared_clearPdu _ _).pdus, if_pos rfl]
      · rw [heq]
        split
        · simp
        · next hfull => exact .inr ⟨rfl, Nat.not_lt.mp hfull⟩
    · rw [heq]
      refine .inl ⟨hinfo, fun htxed hnil => ?_, rfl⟩
      rw [PdcpPduInfo.fullyAcked] at hacked
      simp [htxed, hnil] at hacked
  · -- the segment is one of another SDU, or of none
    rw [erase_of_not_mem hmem]
    refine .inl ?_
    have hother : ∀ sn', st.1.pdcpSn id = some sn' → some sn ≠ pduIndex sn' ∧ sn' ≠ sn := by
      intro sn' hsn'
      have hin := h.mem_pdus.mpr ⟨sn', hsn', rfl⟩
      have hindex : some sn ≠ pduIndex sn' := fun heq => hmem (heq ▸ hin)
      refine ⟨hindex, fun heq => hindex ?_⟩
      rw [← heq]
      exact (hplain ((h.sn_eq hin).trans hsn')).symm
    rcases ackOne_cases capacity st id with ⟨-, heq⟩ | ⟨sn', hsn', hcases⟩
    · rw [heq]
      exact ⟨rfl, hbusy, rfl⟩
    obtain ⟨hindex, hne⟩ := hother sn' hsn'
    have hkept : (st.1.ackSegment sn' id).pdus (some sn) = st.1.pdus (some sn) := by
      rw [(cleared_ackSegment st.1 sn' id).pdus, if_neg hindex]
    rcases hcases with ⟨-, heq⟩ | ⟨-, heq⟩
    · rw [heq]
      refine ⟨(pdus_clearPdcpSdu hindex).trans hkept, hbusy, ?_⟩
      split
      · simp [hne]
      · rfl
    · rw [heq]
      exact ⟨hkept, hbusy, rfl⟩

/-! ## All segments of an RLC PDU -/

theorem ackFrame_updateNotificationAckInfo (capacity : ℕ) (ids : List ℕ)
    (st : SegmentTracking × List ℕ) :
    AckFrame st.1 (updateNotificationAckInfo capacity ids st).1 :=
  foldlRecOn (motive := fun st' => AckFrame st.1 st'.1) ids _ ⟨rfl, fun h => h, fun h => h⟩
    fun st' h id _ => h.trans (ackFrame_ackOne capacity st' id)

theorem prefix_updateNotificationAckInfo (capacity : ℕ) (ids : List ℕ)
    (st : SegmentTracking × List ℕ) : st.2 <+: (updateNotificationAckInfo capacity ids st).2 := by
  refine foldlRecOn (motive := fun st' => IsPrefix st.2 (Prod.snd st')) ids _ (prefix_refl _)
    fun st' h id _ => ?_
  rcases notify_ackOne capacity st' id with heq | ⟨sn, -, heq⟩
  · rwa [heq]
  · rw [heq]
    exact h.trans (prefix_append _ _)

theorem filter_notMem_cons (list : List ℕ) (id : ℕ) (ids : List ℕ) :
    (list.filter (· ∉ [id])).filter (· ∉ ids) = list.filter (· ∉ id :: ids) := by
  rw [filter_filter]
  congr 1
  funext other
  simp [Bool.and_comm]

/-- `update_notification_ack_info` and the place of an SDU not yet fully acknowledged. -/
theorem PoolInv.placeAcked {st : SegmentTracking × List ℕ} (h : PoolInv st.1 lists)
    (hplain : Plain st.1)
    (hbusy : (st.1.pdus (some sn)).fullyTxed → (st.1.pdus (some sn)).list ≠ [])
    (ids : List ℕ) :
    PlaceAcked capacity sn ids st (SegmentTracking.updateNotificationAckInfo capacity ids st) := by
  induction ids generalizing st with
  | nil =>
    have hall : (st.1.pdus (some sn)).list.filter (· ∉ []) = (st.1.pdus (some sn)).list := by simp
    unfold PlaceAcked
    rw [hall]
    exact .inl ⟨rfl, hbusy, rfl⟩
  | cons id ids ih =>
    have hone : PlaceAcked capacity sn [id] st (ackOne capacity st id) :=
      h.placeAcked_ackOne hplain hbusy
    have hrest := ih (h.ackRound id) fun hsn => hplain ((ackFrame_ackOne capacity st id).sn hsn)
    have hgrows := prefix_updateNotificationAckInfo capacity ids (ackOne capacity st id)
    change PlaceAcked _ _ _ _ (SegmentTracking.updateNotificationAckInfo capacity ids _)
    generalize ackOne capacity st id = st₁ at hone hrest hgrows
    rcases hone with ⟨hinfo, hkept, hcount⟩ | ⟨hsn, htxed, hnil, hinfo, hcount⟩
    · rw [hinfo] at hrest
      rcases hrest hkept with ⟨hinfo', hkept', hcount'⟩ | ⟨hsn, htxed, hnil, hinfo', hcount'⟩
      · unfold PlaceAcked
        rw [hinfo] at hinfo' hkept'
        rw [← filter_notMem_cons]
        exact .inl ⟨hinfo', hkept', hcount'.trans hcount⟩
      · unfold PlaceAcked
        rw [hinfo] at hsn htxed hnil
        rw [← filter_notMem_cons]
        rw [hcount] at hcount'
        exact .inr ⟨hsn, htxed, hnil, hinfo', hcount'⟩
    · -- the SDU was cleared, the rounds that are left do not find it
      rw [hinfo] at hrest
      rcases hrest (fun h => absurd h (by simp)) with ⟨hinfo', -, hcount'⟩ | ⟨hsn', -⟩
      · unfold PlaceAcked
        rw [hinfo] at hinfo'
        rw [← filter_notMem_cons, hnil]
        refine .inr ⟨hsn, htxed, rfl, hinfo', ?_⟩
        rw [hcount']
        exact hcount.imp_right fun hfull => ⟨hfull.1, le_trans hfull.2 hgrows.length_le⟩
      · rw [hinfo] at hsn'
        cases hsn'

end MbmsTx.Rlc.Am.SegmentTracking
