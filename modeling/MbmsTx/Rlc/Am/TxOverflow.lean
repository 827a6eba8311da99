import MbmsTx.Rlc.Am.TxRuns

/-!
# A window that overflows

The admission test of `build_data_pdu` is not made while an SDU is being sent, and `read_pdu` goes
on to `build_data_pdu` when the grant is too small for a retransmission. So after 512 PDUs of one
SDU, none of them acknowledged, a grant that fits a byte of a new PDU but no segment of the first
one evicts the first one. No status PDU and no loss is needed for that.
-/

namespace MbmsTx.Rlc.Am

open MbmsTx.Transition List Nat SegmentTracking CircularMap

namespace Tx

variable {s t : Tx}

/-! ## Filling one PDU -/

theorem length_freeList_addSegment (f : Fill) (sn : ℕ) (sdu : Sdu) :
    f.tracking.freeList.length ≤ (f.addSegment sn sdu).tracking.freeList.length + 1 := by
  unfold Fill.addSegment
  split
  · rw [freeList_markFullyTxed]
    exact length_freeList_makeSegment _ _ _ _
  simp

/-- The transmitter has sent `n` PDUs of one SDU, of which `left` bytes are left. The first PDU has
eight bytes, and nothing was acknowledged or scheduled for retransmission. -/
structure Sending (s : Tx) (n left : ℕ) : Prop where
  txEnabled : s.txEnabled = true
  vtA : s.vtA = 0
  vtS : s.vtS = n
  txSdu : ∃ sdu, s.txSdu = some sdu ∧ sdu.msg.length = left
  txSduQueue : s.txSduQueue = []
  retxQueue : s.retxQueue = []
  free : maxPoolSize ≤ s.tracking.freeList.length + n
  count : s.txWindow.count = n
  contains : ∀ sn, s.txWindow.contains sn = true ↔ sn < n
  first : ∃ pdu, s.txWindow.get? 0 = some pdu ∧ pdu.rlcSn = 0 ∧ pdu.header.li = [] ∧
    pdu.buf.length = 8

theorem Sending.hasSegments {n left : ℕ} (h : s.Sending n left) (hn : n < maxPoolSize) :
    s.tracking.hasSegments := by
  have hfree := h.free
  rw [SegmentTracking.hasSegments, Bool.not_eq_true', isEmpty_eq_false_iff]
  intro hnil
  rw [hnil, length_nil] at hfree
  omega

variable {sdu : Sdu}

theorem finished_restOfSdu {nofBytes : ℕ} (hsdu : s.txSdu = some sdu) (hqueue : s.txSduQueue = [])
    (hbytes : minDataPduSize ≤ nofBytes) (hsegments : s.tracking.hasSegments) :
    Finished (s.addPdu s.vtS) ((s.addPdu s.vtS).fillInit nofBytes) (s.buildDataPdu nofBytes).1 := by
  have hrefuses : s.refusesData nofBytes = false := by
    simp [refusesData, hsdu, hsegments, hbytes]
  have hbuild : (s.buildDataPdu nofBytes).1 = ((s.addPdu s.vtS).finishData s.txSdu.isSome
      ((s.addPdu s.vtS).fillInit nofBytes)).1 := by
    simp [Tx.buildDataPdu, hrefuses, hqueue, Fill.pull]
  rw [hbuild]
  exact finished_finishData _ _ _

/-- Storing the PDU `n` next to those before it. -/
theorem Finished.contains_iff {f : Fill} {n : ℕ} (hfin : Finished (s.addPdu s.vtS) f t)
    (hn : n < windowSize) (hvtS : s.vtS = n)
    (hcontains : ∀ sn, s.txWindow.contains sn ↔ sn < n) (sn : ℕ) :
    t.txWindow.contains sn ↔ sn < n + 1 := by
  rw [hfin.contains, contains_addPdu, hvtS, hcontains]
  constructor
  · omega
  · intro h
    rcases Nat.lt_succ_iff_lt_or_eq.mp h with hlt | heq
    · refine .inr ⟨?_, hlt⟩
      rw [mod_eq_of_lt (hlt.trans hn), mod_eq_of_lt hn]
      exact hlt.ne
    omega

theorem hasSpace_vtS {n : ℕ} (hn : n < windowSize) (hvtS : s.vtS = n)
    (hcontains : ∀ sn, s.txWindow.contains sn ↔ sn < n) :
    s.txWindow.hasSpace s.vtS := by
  apply hasSpace_of_forall
  intro other hslot
  rw [Bool.eq_false_iff]
  intro hstored
  have hlt : other < n := (hcontains other).mp hstored
  rw [hvtS, mod_eq_of_lt (hlt.trans hn), mod_eq_of_lt hn] at hslot
  omega

theorem Finished.count_eq {f : Fill} {n : ℕ} (hfin : Finished (s.addPdu s.vtS) f t)
    (hspace : s.txWindow.hasSpace s.vtS) (hcount : s.txWindow.count = n) :
    t.txWindow.count = n + 1 := by
  obtain ⟨header, -, hwindow⟩ := hfin.txWindow
  calc t.txWindow.count = (s.addPdu s.vtS).txWindow.count := by
        rw [hwindow, count_modify]
    _ = s.txWindow.count + 1 := count_overwrite_of_hasSpace hspace
    _ = n + 1 := by rw [hcount]

theorem txSdu_addSegment {f : Fill} (hlong : f.pduSpace - f.headLen < sdu.msg.length) (sn : ℕ) :
    (f.addSegment sn sdu).txSdu =
      some { sdu with msg := sdu.msg.drop (f.pduSpace - f.headLen) } := by
  have hmove : toMove f sdu = f.pduSpace - f.headLen := if_neg (by omega)
  unfold Fill.addSegment
  dsimp only
  rw [hmove, sduRest, if_neg (by omega)]

theorem tracking_addPdu_of_hasSpace (hspace : s.txWindow.hasSpace s.vtS) :
    (s.addPdu s.vtS).tracking = s.tracking := by
  have hnone : s.txWindow.evicted s.vtS = none := Option.isNone_iff_eq_none.mp hspace
  simp [addPdu, hnone]

theorem Sending.readPdu {n left : ℕ} (h : s.Sending n left) (hpos : 0 < n) (hn : n < windowSize)
    (hleft : 1 < left) (pduLen : ℤ) :
    Sending (s.readPdu ⟨false, pduLen⟩ 3).1 (n + 1) (left - 1) := by
  obtain ⟨sdu, hsdu, hlen⟩ := h.txSdu
  have hwindow : windowSize = 512 := rfl
  have hread : (s.readPdu ⟨false, pduLen⟩ 3).1 = (s.buildDataPdu 3).1 := by
    have hcount : ¬ windowSize ≤ s.txWindow.count := by
      rw [h.count]
      omega
    simp [Tx.readPdu, readData, h.txEnabled, h.retxQueue, hcount]
  rw [hread]
  have hpool : n < maxPoolSize := by
    rw [maxPoolSize]
    omega
  have hfin := finished_restOfSdu hsdu h.txSduQueue (Nat.le_refl 3) (h.hasSegments hpool)
  have hfill : (s.addPdu s.vtS).fillInit 3 =
      ((s.addPdu s.vtS).fillEmpty 3).addSegment s.vtS sdu := by
    have hsdu' : (s.addPdu s.vtS).txSdu = some sdu := hsdu
    rw [fillInit, hsdu']
    rfl
  -- one byte of the SDU fits behind the header
  have hspace : ((s.addPdu s.vtS).fillEmpty 3).pduSpace -
      ((s.addPdu s.vtS).fillEmpty 3).headLen = 1 := rfl
  have hfree : s.txWindow.hasSpace s.vtS := hasSpace_vtS hn h.vtS h.contains
  refine ⟨hfin.txEnabled.trans h.txEnabled, hfin.vtA.trans h.vtA, ?_, ?_, ?_, ?_, ?_,
    hfin.count_eq hfree h.count, hfin.contains_iff hn h.vtS h.contains, ?_⟩
  · rw [hfin.vtS]
    change seqSucc snMod s.vtS = n + 1
    rw [h.vtS, seqSucc, snMod, mod_eq_of_lt (by omega)]
  · refine ⟨_, hfin.txSdu.trans ((congrArg Fill.txSdu hfill).trans (txSdu_addSegment ?_ _)), ?_⟩
    · omega
    · rw [hspace, length_drop, hlen]
  · rw [hfin.txSduQueue, hfill]
    exact h.txSduQueue
  · exact hfin.retxQueue.trans h.retxQueue
  · have hlist := length_freeList_addSegment ((s.addPdu s.vtS).fillEmpty 3) s.vtS sdu
    have hsame : ((s.addPdu s.vtS).fillEmpty 3).tracking = s.tracking :=
      tracking_addPdu_of_hasSpace hfree
    rw [hsame] at hlist
    rw [hfin.tracking, hfill]
    have hpool := h.free
    omega
  · obtain ⟨pdu, hpdu, hfirst⟩ := h.first
    obtain ⟨header, -, hwin⟩ := hfin.txWindow
    have hslot : 0 % windowSize ≠ s.vtS % windowSize := by
      rw [h.vtS, zero_mod, mod_eq_of_lt hn]
      omega
    refine ⟨pdu, ?_, hfirst⟩
    rw [hwin]
    calc _ = (s.addPdu s.vtS).txWindow.get? 0 := get?_modify_of_ne hslot
      _ = s.txWindow.get? 0 := get?_overwrite_of_ne hslot
      _ = some pdu := hpdu

theorem txSdu_addSdu (f : Fill) (hlong : f.pduSpace - f.headLen < sdu.msg.length) (sn : ℕ) :
    (f.addSdu sn sdu).txSdu = some { sdu with msg := sdu.msg.drop (f.pduSpace - f.headLen) } ∧
      (f.addSdu sn sdu).data = f.data ++ sdu.msg.take (f.pduSpace - f.headLen) := by
  have hmove : toMove f sdu = f.pduSpace - f.headLen := if_neg (by omega)
  unfold Fill.addSdu
  dsimp only
  rw [hmove, sduRest, if_neg (by omega)]
  simp

theorem length_freeList_addSdu (f : Fill) (sn : ℕ) (sdu : Sdu)
    (hfree : (f.tracking.pdus (pduIndex sdu.pdcpSn)).sn = none) :
    f.tracking.freeList.length ≤ (f.addSdu sn sdu).tracking.freeList.length + 1 := by
  have hadd : (f.tracking.addPdcpSdu sdu.pdcpSn).freeList = f.tracking.freeList := by
    simp [addPdcpSdu, hfree, modifyPdu]
  have hnew : f.tracking.hasPdcpSn sdu.pdcpSn = false := by
    simp [hasPdcpSn, hfree]
  unfold Fill.addSdu
  simp only [hnew, Bool.false_eq_true, if_false, freeList_markFullyTxed]
  rw [← hadd]
  exact length_freeList_makeSegment _ _ _ _

theorem sending_first {cfg : TxCfg} (hlen : 8 < sdu.msg.length)
    (hs : s = { cfg := cfg, txSduQueue := [some sdu] }) :
    Sending (s.buildDataPdu 10).1 1 (sdu.msg.length - 8) := by
  have hvtS : s.vtS = 0 := by rw [hs]
  have hwindow : s.txWindow = .empty windowSize TxPdu := by rw [hs]
  have htracking : s.tracking = .init := by rw [hs]
  have hcontains : ∀ sn, s.txWindow.contains sn ↔ sn < 0 := by
    intro sn
    rw [hwindow]
    simp
  have hspace : s.txWindow.hasSpace s.vtS := hasSpace_vtS (by decide) hvtS hcontains
  have hpool : s.tracking.hasSegments := by
    rw [htracking]
    simp [hasSegments, init, maxPoolSize]
  have hrefuses : s.refusesData 10 = false := by
    rw [refusesData, hpool]
    simp [hs, minDataPduSize, windowSize]
  have hadd := (tracking_addPdu_of_hasSpace hspace).trans htracking
  have hqueue : s.txSduQueue = [some sdu] := by rw [hs]
  have hbuild := buildDataPdu_firstSdu (by rw [hs]) hqueue (by decide) hrefuses
    (by rw [hadd, ← htracking]; exact hpool)
  have hfin := finished_finishData (s.addPdu s.vtS) s.txSdu.isSome
    (Fill.addSdu { (s.addPdu s.vtS).fillEmpty 10 with txSduQueue := [] } s.vtS sdu)
  rw [← hbuild] at hfin
  generalize hf : ({ (s.addPdu s.vtS).fillEmpty 10 with txSduQueue := [] } : Fill) = f at hfin
  have hroom : f.pduSpace - f.headLen = 8 := by
    rw [← hf]
    rfl
  have hftracking : f.tracking = .init := by
    rw [← hf]
    exact hadd
  have hfdata : f.data = [] ∧ f.li = [] ∧ f.txSduQueue = [] := by
    rw [← hf]
    exact ⟨rfl, rfl, rfl⟩
  obtain ⟨hrest, hdata⟩ := txSdu_addSdu f (lt_of_eq_of_lt hroom hlen) s.vtS
  refine ⟨?_, ?_, ?_, ?_, ?_, ?_, ?_, hfin.count_eq hspace (by rw [hwindow]; rfl),
    hfin.contains_iff (by decide) hvtS hcontains, ?_⟩
  · rw [hfin.txEnabled, addPdu, hs]
  · rw [hfin.vtA, addPdu, hs]
  · rw [hfin.vtS]
    change seqSucc snMod s.vtS = 1
    rw [hvtS]
    rfl
  · refine ⟨_, hfin.txSdu.trans hrest, ?_⟩
    rw [hroom, length_drop]
  · exact hfin.txSduQueue.trans hfdata.2.2
  · rw [hfin.retxQueue, addPdu, hs]
  · have hlist := length_freeList_addSdu f s.vtS sdu (by rw [hftracking]; rfl)
    have hsize : init.freeList.length = maxPoolSize := by
      simp [init]
    rw [hftracking, hsize] at hlist
    rw [hfin.tracking]
    exact hlist
  · obtain ⟨header, hli, hwin⟩ := hfin.txWindow
    have hget : (s.buildDataPdu 10).1.txWindow.get? s.vtS = some
        { rlcSn := s.vtS, header := header, buf := (f.addSdu s.vtS sdu).data,
          list := (f.addSdu s.vtS sdu).list } := by
      rw [hwin]
      exact get?_modify_self.trans (congrArg _ get?_overwrite_self)
    refine ⟨_, (congrArg (s.buildDataPdu 10).1.txWindow.get? hvtS.symm).trans hget, hvtS,
      hli.trans hfdata.2.1, ?_⟩
    rw [hdata, hroom, hfdata.1, nil_append, length_take]
    omega

theorem buildRetxPdu_smallGrant {retx : Retx} {pdu : TxPdu} (hqueue : s.retxQueue = [retx])
    (hretx : retx.isSegment = false) (hget : s.txWindow.get? retx.sn = some pdu)
    (hli : pdu.header.li = []) (hlen : pdu.buf.length = 8) : (s.buildRetxPdu 4).2 = none := by
  have hstored : s.txWindow.contains retx.sn := by
    rw [CircularMap.contains, hget]
    rfl
  have hdrop : s.dropMissing = s := by
    have hkept : (s.retxQueue.dropWhile fun retx => !s.txWindow.contains retx.sn) =
        s.retxQueue := by
      rw [hqueue, dropWhile_cons_of_neg (by simp [hstored])]
    unfold dropMissing
    rw [hkept]
    rw [if_neg (by simp [hqueue])]
  have hsize : 4 < requiredBufferSize pdu retx := by
    have hpacked : pdu.header.packedLength ≤ 4 := by
      rw [AmdHeader.packedLength, hli, packedLengthOf]
      split <;> decide
    have hpacked' : 2 ≤ pdu.header.packedLength := by
      rw [AmdHeader.packedLength, packedLengthOf]
      omega
    rw [requiredBufferSize, hretx, hlen]
    simp only [Bool.false_eq_true, if_false, toInt32]
    omega
  have hsegment : ∀ (range : ℕ × ℕ) (p : Bool),
      segmentOf pdu.header pdu.buf.length 4 range.1 range.2 p = none := by
    intro range p
    rw [segmentOf, segmentHeadLen, hli]
    rfl
  have hne : s.retxQueue.isEmpty = false := by rw [hqueue]; rfl
  unfold buildRetxPdu
  simp only [hne, Bool.false_eq_true, if_false, hdrop]
  rw [hqueue]
  dsimp only
  rw [hget]
  dsimp only
  rw [if_neg (Int.not_lt.mpr (le_of_lt (lt_trans (by decide) hsize))), if_pos (by simp [hsize])]
  unfold buildSegment
  simp only [hsegment]

/-- `read_pdu` with a full window whose lower edge does not fit the grant. -/
theorem readData_of_full {nofBytes : ℕ}
    (hfull : (decide (windowSize ≤ s.txWindow.count) && s.retxQueue.isEmpty))
    (hqueue : (s.retransmitPdu s.vtA).retxQueue ≠ [])
    (hnone : ((s.retransmitPdu s.vtA).buildRetxPdu nofBytes).2 = none) :
    s.readData nofBytes =
      ((s.retransmitPdu s.vtA).buildRetxPdu nofBytes).1.buildDataPdu nofBytes := by
  unfold readData
  rw [if_pos hfull]
  rw [if_neg (by simpa using hqueue)]
  split
  · next u pdu hu =>
    rw [hu] at hnone
    cases hnone
  · next u hu => rw [hu]

/-- The window is full and the grant too small for the PDU at its lower edge: it is evicted. -/
theorem Sending.overflow {left : ℕ} (h : s.Sending windowSize left) (pduLen : ℤ) :
    (s.readPdu ⟨false, pduLen⟩ 4).1.outstanding = windowSize + 1 ∧
      (s.readPdu ⟨false, pduLen⟩ 4).1.txWindow.contains 0 = false := by
  obtain ⟨sdu, hsdu, -⟩ := h.txSdu
  obtain ⟨pdu, hpdu, hsn, hli, hlen⟩ := h.first
  -- the PDU at the lower edge is scheduled for retransmission
  have hqueue : (s.retransmitPdu s.vtA).retxQueue =
      [{ isSegment := false, soStart := 0, soEnd := pdu.buf.length, sn := pdu.rlcSn }] := by
    rw [retransmitPdu, h.vtA, hpdu, h.retxQueue]
    rfl
  have hget : (s.retransmitPdu s.vtA).txWindow.get? pdu.rlcSn =
      some { pdu with retxCount := pdu.retxCount + 1 } := by
    rw [retransmitPdu, h.vtA, hpdu]
    rw [hsn, get?_modify_self, hpdu, Option.map_some, hsn]
  -- it does not fit the grant, so that a new PDU is built
  have hnone := buildRetxPdu_smallGrant hqueue rfl hget hli hlen
  have hfull : (decide (windowSize ≤ s.txWindow.count) && s.retxQueue.isEmpty) := by
    simp [h.count, h.retxQueue]
  have hread : (s.readPdu ⟨false, pduLen⟩ 4).1 =
      (((s.retransmitPdu s.vtA).buildRetxPdu 4).1.buildDataPdu 4).1 := by
    rw [← readData_of_full hfull (by simp [hqueue]) hnone]
    simp [Tx.readPdu, h.txEnabled]
  have hretx := (samePdus_retransmitPdu s s.vtA).trans (samePdus_buildRetxPdu _ 4)
  rw [hread]
  generalize ((s.retransmitPdu s.vtA).buildRetxPdu 4).1 = u at hretx
  have hpool : u.tracking.hasSegments := by
    rw [hretx.tracking]
    exact h.hasSegments (by decide)
  have hfin := finished_restOfSdu (hretx.txSdu.trans hsdu) (hretx.txSduQueue.trans h.txSduQueue)
    (by decide : minDataPduSize ≤ 4) hpool
  have hvtS : u.vtS = windowSize := hretx.vtS.trans h.vtS
  refine ⟨?_, ?_⟩
  · rw [outstanding, hfin.vtA, hfin.vtS]
    change seqDist snMod u.vtA (seqSucc snMod u.vtS) = _
    rw [hretx.vtA, h.vtA, hvtS]
    rfl
  · rw [Bool.eq_false_iff, hfin.contains]
    intro hstored
    rw [contains_addPdu, hvtS] at hstored
    rcases hstored with heq | ⟨hne, -⟩
    · cases heq
    · exact hne (by decide)

/-! ## The run -/

/-- The grants are for data PDUs: no status report is due. -/
theorem Sending.run {n left k : ℕ} (h : s.Sending n left) (hpos : 0 < n)
    (hn : n + k ≤ windowSize) (hk : k < left) :
    ∃ t, txSystem.run { tx := s } (replicate k (.readPdu ⟨false, 0⟩ 3)) = some { tx := t } ∧
      t.Sending (n + k) (left - k) := by
  induction k generalizing s n left with
  | zero => exact ⟨s, rfl, h⟩
  | succ k ih =>
    have hnext := h.readPdu hpos (by omega) (by omega) 0
    obtain ⟨t, hrun, ht⟩ := ih hnext (by omega) (by omega) (by omega)
    refine ⟨t, (System.run_cons rfl _).trans hrun, ?_⟩
    have hn' : n + 1 + k = n + (k + 1) := by omega
    have hleft' : left - 1 - k = left - (k + 1) := by omega
    rw [hn', hleft'] at ht
    exact ht

end Tx

/-- One SDU and 512 grants for it. -/
def fillWindow (sdu : Sdu) : List TxAction :=
  .writeSdu sdu :: .readPdu ⟨false, 0⟩ 10 :: List.replicate 511 (.readPdu ⟨false, 0⟩ 3)

/-- Every SDU that is long enough for 513 PDUs can be sent so that the first of them is evicted
before it is acknowledged. -/
theorem smallGrant_evicts {cfg : TxCfg} (hqueue : 0 < cfg.txQueueLength) {sdu : Sdu}
    (hlen : 519 < sdu.msg.length) :
    ∃ st st', txSystem.run { tx := { cfg := cfg } } (fillWindow sdu) = some st ∧
      txSystem.step st (.readPdu ⟨false, 0⟩ 4) = some st' ∧
      st.tx.txWindow.contains 0 ∧ st'.tx.outstanding = windowSize + 1 ∧
      st'.tx.txWindow.contains 0 = false := by
  have hwrite : Tx.writeSdu { cfg := cfg } sdu = { cfg := cfg, txSduQueue := [some sdu] } := by
    simp [Tx.writeSdu, hqueue]
  have hfirst := Tx.sending_first (by omega) hwrite
  have hread : ((Tx.writeSdu { cfg := cfg } sdu).readPdu ⟨false, 0⟩ 10).1 =
      ((Tx.writeSdu { cfg := cfg } sdu).buildDataPdu 10).1 := by
    have hopen : ¬ windowSize ≤ (Tx.writeSdu { cfg := cfg } sdu).txWindow.count := by
      rw [hwrite]
      exact (by decide : ¬ windowSize ≤ 0)
    have henabled : (Tx.writeSdu { cfg := cfg } sdu).txEnabled := by rw [hwrite]
    have hretx : (Tx.writeSdu { cfg := cfg } sdu).retxQueue = [] := by rw [hwrite]
    simp [Tx.readPdu, Tx.readData, henabled, hretx, hopen]
  rw [← hread] at hfirst
  obtain ⟨s, hrun, hs⟩ := hfirst.run Nat.one_pos (by decide : 1 + 511 ≤ windowSize) (by omega)
  obtain ⟨hout, hevicted⟩ := hs.overflow 0
  refine ⟨{ tx := s }, _, ?_, rfl, (hs.contains 0).mpr (by decide), hout, hevicted⟩
  rw [fillWindow, System.run_cons rfl, System.run_cons rfl]
  exact hrun

theorem smallGrant_evicts_first_pdu : ∃ st st', txSystem.run { tx := { cfg := exampleTxCfg } }
          (fillWindow ⟨List.replicate 600 0, 0⟩) = some st ∧
      txSystem.step st (.readPdu ⟨false, 0⟩ 4) = some st' ∧
      st.tx.txWindow.contains 0 = true ∧ st'.tx.outstanding = windowSize + 1 ∧
      st'.tx.txWindow.contains 0 = false :=
  smallGrant_evicts (by decide) (lt_of_lt_of_eq (by decide) (length_replicate).symm)

end MbmsTx.Rlc.Am
