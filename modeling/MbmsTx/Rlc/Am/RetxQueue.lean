import MbmsTx.Rlc.Am.SegmentCut
import MbmsTx.Rlc.Am.TxFill
import MbmsTx.Rlc.Am.TxRuns

/-!
# The retransmission queue

An entry names a range of bytes of a PDU in the window. `required_buffer_size` and `build_segment`
are right only for a range that is not empty and lies in the PDU. The ranges come from the NACKs of
the peer, of which `handle_control_pdu` does not check all: a NACK whose `SO_end` is the length of
the PDU, or before its `SO_start`, gets an entry that reaches beyond the PDU or is inverted.

In the runs in which the NACKs fit the PDUs, no empty PDU is sent and the window does not overflow,
all ranges are well formed. Entries whose PDU was acknowledged meanwhile are harmless: they leave
the queue before their sequence number is used again, which is what the ages are for.
-/

namespace MbmsTx.Rlc.Am

open MbmsTx.Transition List Option Tx

/-! ## Well-formed entries -/

/-- A PDU in the window that was filled with SDUs that are not empty. -/
structure TxPdu.Sane (sn : ℕ) (pdu : TxPdu) : Prop where
  rlcSn : pdu.rlcSn = sn
  buf_ne_nil : pdu.buf ≠ []
  buf_small : pdu.buf.length < 2 ^ 16
  li_pos : ∀ l ∈ pdu.header.li, 0 < l
  li_length : pdu.header.li.length ≤ maxSdusPerPdu

/-- The range is not empty and lies in the PDU; an entry that is no segment is for all of it. -/
structure Retx.Fits (retx : Retx) (pdu : TxPdu) : Prop where
  lt : retx.soStart < retx.soEnd
  le : retx.soEnd ≤ pdu.buf.length
  whole : retx.isSegment = false → retx.soEnd = pdu.buf.length

/-- The NACK of a segment names a range that is not inverted and ends in a PDU of `nBytes` bytes. A
start behind the PDU counts as its first byte, and the end `0x7FFF` as the end of the PDU. -/
def Nack.Fits (nack : Nack) (nBytes : ℕ) : Prop :=
  nack.hasSo = true → nack.soEnd ≠ 0x7FFF →
    (if nBytes ≤ nack.soStart then 0 else nack.soStart) ≤ nack.soEnd ∧ nack.soEnd < nBytes

instance (nack : Nack) (nBytes : ℕ) : Decidable (nack.Fits nBytes) :=
  inferInstanceAs (Decidable (_ → _))

variable {pdu : TxPdu} {sn : ℕ}

theorem TxPdu.Sane.of_sent {pdu' : TxPdu} (h : pdu'.Sane sn) (hsent : pdu'.sent = pdu.sent) :
    pdu.Sane sn := by
  obtain ⟨hsn, -, hheader, hbuf, -⟩ := TxPdu.mk.inj hsent
  exact ⟨hsn ▸ h.rlcSn, hbuf ▸ h.buf_ne_nil, hbuf ▸ h.buf_small, hheader ▸ h.li_pos,
    hheader ▸ h.li_length⟩

variable {retx : Retx}

theorem Retx.Fits.of_sent {pdu' : TxPdu} (h : retx.Fits pdu') (hsent : pdu'.sent = pdu.sent) :
    retx.Fits pdu := by
  obtain ⟨-, -, -, hbuf, -⟩ := TxPdu.mk.inj hsent
  exact ⟨h.lt, hbuf ▸ h.le, fun hwhole => hbuf ▸ h.whole hwhole⟩

/-- The entry for the whole of a PDU. -/
def TxPdu.wholeRetx (pdu : TxPdu) : Retx where
  sn := pdu.rlcSn
  isSegment := false
  soStart := 0
  soEnd := pdu.buf.length

theorem Nack.Fits.retxOfNack {nack : Nack} {i : ℕ} (h : nack.Fits pdu.buf.length)
    (hpdu : pdu.buf ≠ []) : (retxOfNack pdu.buf.length i nack).Fits pdu := by
  have hpos := length_pos_iff.mpr hpdu
  unfold Tx.retxOfNack
  by_cases hso : nack.hasSo
  · rw [if_pos hso]
    have hstart : (if pdu.buf.length ≤ nack.soStart then 0 else nack.soStart) < pdu.buf.length := by
      split <;> omega
    by_cases hend : nack.soEnd = 0x7FFF
    · rw [if_pos hend, if_pos hend, if_pos ⟨hstart, le_rfl⟩]
      exact ⟨hstart, le_rfl, fun hwhole => absurd hwhole (by simp)⟩
    · obtain ⟨hle, hlt⟩ := h hso hend
      rw [if_neg hend, if_neg hend, if_pos ⟨hstart, hlt.le⟩]
      exact ⟨Nat.lt_succ_of_le hle, hlt, fun hwhole => absurd hwhole (by simp)⟩
  · rw [if_neg hso]
    exact ⟨hpos, le_rfl, fun _ => rfl⟩

theorem neededLis_le (soStart soEnd lower : ℕ) (ls : List ℕ) :
    neededLis soStart soEnd lower ls ≤ ls.length := by
  induction ls generalizing lower with
  | nil => rfl
  | cons l ls ih =>
    have hrest := ih (lower + l)
    rw [neededLis, length_cons]
    split
    · omega
    · split <;> omega

theorem packedLengthOf_le (rf : Bool) (n : ℕ) : packedLengthOf rf n ≤ 2 * n + 4 := by
  unfold packedLengthOf
  cases rf <;> simp <;> omega

namespace Tx

theorem toInt32_nonneg {n : ℕ} (h : n < 2 ^ 31) : 0 ≤ toInt32 n := by
  have hmod : n % 2 ^ 32 = n := Nat.mod_eq_of_lt (by omega)
  rw [toInt32, hmod, if_pos h]
  omega

theorem requiredBufferSize_nonneg (hpdu : pdu.Sane sn) (hretx : retx.Fits pdu) :
    0 ≤ requiredBufferSize pdu retx := by
  have hsmall := hpdu.buf_small
  have hlis : pdu.header.li.length ≤ 128 := hpdu.li_length
  have hlt := hretx.lt
  have hle := hretx.le
  unfold requiredBufferSize
  split
  · have hneeded := neededLis_le retx.soStart retx.soEnd 0 pdu.header.li
    have hpacked := packedLengthOf_le true (neededLis retx.soStart retx.soEnd 0 pdu.header.li)
    rw [sub32_of_le hlt.le (by omega)]
    exact toInt32_nonneg (by omega)
  · have hpacked : pdu.header.packedLength ≤ 2 * pdu.header.li.length + 4 :=
      packedLengthOf_le _ _
    exact toInt32_nonneg (by omega)

/-- The range that `build_segment` has to send for a well-formed entry. -/
theorem retxRange_of_fits (hpdu : pdu.Sane sn) (hretx : retx.Fits pdu) :
    (retxRange retx pdu.buf.length).1 < (retxRange retx pdu.buf.length).2 ∧
      (retxRange retx pdu.buf.length).2 = retx.soEnd := by
  unfold retxRange
  cases hsegment : retx.isSegment with
  | true => exact ⟨hretx.lt, rfl⟩
  | false => exact ⟨length_pos_iff.mpr hpdu.buf_ne_nil, (hretx.whole hsegment).symm⟩

/-- `build_segment` sends a part of the range that is not empty. -/
theorem segmentOf_of_fits {nofBytes soEnd : ℕ} {p : Bool} {header : AmdHeader}
    (hpdu : pdu.Sane sn) (hretx : retx.Fits pdu)
    (h : segmentOf pdu.header pdu.buf.length nofBytes (retxRange retx pdu.buf.length).1 (retxRange
      retx pdu.buf.length).2 p = some (header, soEnd)) :
    (retxRange retx pdu.buf.length).1 < soEnd ∧ soEnd ≤ retx.soEnd := by
  obtain ⟨hlt, hend⟩ := retxRange_of_fits hpdu hretx
  have hsmall : (retxRange retx pdu.buf.length).2 < 2 ^ 16 := by
    have hle := hretx.le
    have hbuf := hpdu.buf_small
    omega
  obtain ⟨hstart, hle⟩ := segmentOf_range hpdu.li_pos hlt hsmall h
  omega

/-! ## The invariant -/

/-- How many sequence numbers ago `sn` was sent. -/
def age (s : Tx) (sn : ℕ) : ℕ := seqDist snMod sn s.vtS

/-- The entry is not for the next sequence number, and its range is well formed if the PDU is in the
window. -/
structure Scheduled (s : Tx) (retx : Retx) : Prop where
  sn_lt : retx.sn < snMod
  sn_ne : retx.sn ≠ s.vtS
  fits : ∀ {pdu}, s.txWindow.get? retx.sn = some pdu → retx.Fits pdu

/-- The retransmission queue. No entry is much older than one before it. -/
structure RetxInv (s : Tx) : Prop where
  window : s.WindowInv
  sane : ∀ {sn pdu}, s.txWindow.get? sn = some pdu → pdu.Sane sn
  sdus : SdusNonempty s.txSdu s.txSduQueue
  scheduled : ∀ retx ∈ s.retxQueue, s.Scheduled retx
  spread : s.retxQueue.Pairwise fun a b => s.age b.sn < s.age a.sn + windowSize

variable {s t : Tx}

theorem WindowInv.age_of_mem (hs : s.WindowInv) (hsn : s.txWindow.contains sn) :
    0 < s.age sn ∧ s.age sn ≤ s.outstanding := by
  obtain ⟨hlt, hdist⟩ := hs.mem_window hsn
  have hage : s.age sn = s.outstanding - seqDist snMod s.vtA sn :=
    seqDist_sub hs.vtA_lt hlt hs.vtS_lt hdist.le
  omega

theorem WindowInv.sn_ne_vtS (hs : s.WindowInv) (hsn : s.txWindow.contains sn) : sn ≠ s.vtS := by
  rintro rfl
  exact lt_irrefl _ (hs.mem_window hsn).2

theorem Scheduled.age_pos (h : s.Scheduled retx) (hs : s.WindowInv) : 0 < s.age retx.sn := by
  apply Nat.pos_of_ne_zero
  intro hzero
  exact h.sn_ne ((seqDist_eq_zero_iff h.sn_lt hs.vtS_lt).mp hzero).symm

theorem contains_of_get? (h : s.txWindow.get? sn = some pdu) : s.txWindow.contains sn := by
  rw [CircularMap.contains, h, isSome_some]

section

variable (hs : s.RetxInv)
include hs

/-- The invariant carries over to a state with the same send state and no other PDUs in its window,
if the entries of its queue were scheduled. -/
theorem RetxInv.transfer (hwindow : t.WindowInv) (hvtS : t.vtS = s.vtS)
    (hpdus : ∀ {sn pdu}, t.txWindow.get? sn = some pdu →
      ∃ pdu', s.txWindow.get? sn = some pdu' ∧ pdu'.sent = pdu.sent)
    (hsdus : SdusNonempty t.txSdu t.txSduQueue)
    (hscheduled : ∀ retx ∈ t.retxQueue, s.Scheduled retx)
    (hspread : t.retxQueue.Pairwise fun a b => s.age b.sn < s.age a.sn + windowSize) :
    t.RetxInv where
  window := hwindow
  sane hpdu := by
    obtain ⟨pdu', hpdu', hsent⟩ := hpdus hpdu
    exact (hs.sane hpdu').of_sent hsent
  sdus := hsdus
  scheduled retx hretx := by
    refine ⟨(hscheduled retx hretx).sn_lt, ?_, fun hpdu => ?_⟩
    · rw [hvtS]
      exact (hscheduled retx hretx).sn_ne
    · obtain ⟨pdu', hpdu', hsent⟩ := hpdus hpdu
      exact ((hscheduled retx hretx).fits hpdu').of_sent hsent
  spread := by
    unfold age at hspread ⊢
    rw [hvtS]
    exact hspread

theorem RetxInv.of_samePdus (h : s.SamePdus t) (hscheduled : ∀ retx ∈ t.retxQueue, s.Scheduled retx)
    (hspread : t.retxQueue.Pairwise fun a b => s.age b.sn < s.age a.sn + windowSize) :
    t.RetxInv := by
  refine hs.transfer (h.windowGrows hs.window).inv h.vtS h.get? ?_ hscheduled hspread
  rw [h.txSdu, h.txSduQueue]
  exact hs.sdus

theorem RetxInv.sublist (h : s.SamePdus t) (hqueue : t.retxQueue.Sublist s.retxQueue) : t.RetxInv :=
  hs.of_samePdus h (fun retx hretx => hs.scheduled retx (hqueue.subset hretx))
    (hs.spread.sublist hqueue)

theorem RetxInv.of_get? (hwindow : t.WindowInv) (hvtS : t.vtS = s.vtS)
    (hpdus : ∀ {sn pdu}, t.txWindow.get? sn = some pdu → s.txWindow.get? sn = some pdu)
    (hsdus : SdusNonempty t.txSdu t.txSduQueue) (hqueue : t.retxQueue = s.retxQueue) :
    t.RetxInv := by
  refine hs.transfer hwindow hvtS (fun hpdu => ⟨_, hpdus hpdu, rfl⟩) hsdus ?_ ?_
  · rw [hqueue]
    exact hs.scheduled
  · rw [hqueue]
    exact hs.spread

theorem RetxInv.push (h : s.SamePdus t) (hpdu : s.txWindow.get? retx.sn = some pdu)
    (hretx : retx.Fits pdu) (hqueue : t.retxQueue = pushRetx s.retxQueue retx) : t.RetxInv := by
  have hstored := contains_of_get? hpdu
  have hnew : s.Scheduled retx := by
    refine ⟨(hs.window.mem_window hstored).1, hs.window.sn_ne_vtS hstored, fun hpdu' => ?_⟩
    obtain rfl := some.inj (hpdu.symm.trans hpdu')
    exact hretx
  unfold pushRetx at hqueue
  split at hqueue
  · refine hs.sublist h ?_
    rw [hqueue]
    simp
  refine hs.of_samePdus h ?_ ?_
  · rw [hqueue]
    intro entry hentry
    rcases mem_append.mp hentry with hold | hlast
    · exact hs.scheduled entry hold
    · rw [mem_singleton.mp hlast]
      exact hnew
  · rw [hqueue, pairwise_append]
    refine ⟨hs.spread, pairwise_singleton _ _, fun a ha b hb => ?_⟩
    -- the new entry is at most as old as the window, and no entry has the age zero
    obtain rfl := mem_singleton.mp hb
    have hold := (hs.scheduled a ha).age_pos hs.window
    have hage := (hs.window.age_of_mem hstored).2
    have hsize := hs.window.outstanding_le
    omega

/-! ## Retransmissions -/

omit hs in
theorem retxQueue_retransmitPdu {sn : ℕ} {pdu : TxPdu} (h : s.txWindow.get? sn = some pdu) :
    (s.retransmitPdu sn).retxQueue = pushRetx s.retxQueue pdu.wholeRetx := by
  simp only [retransmitPdu, h]
  rfl

theorem RetxInv.retransmitPdu (sn : ℕ) : (s.retransmitPdu sn).RetxInv := by
  cases hpdu : s.txWindow.get? sn with
  | none =>
    have hnothing : s.retransmitPdu sn = s := by simp only [Tx.retransmitPdu, hpdu]
    rw [hnothing]
    exact hs
  | some pdu =>
    have hsane := hs.sane hpdu
    have hstored : s.txWindow.get? pdu.wholeRetx.sn = some pdu := by
      rw [TxPdu.wholeRetx, hsane.rlcSn]
      exact hpdu
    exact hs.push (samePdus_retransmitPdu s sn) hstored
      ⟨length_pos_iff.mpr hsane.buf_ne_nil, le_rfl, fun _ => rfl⟩ (retxQueue_retransmitPdu hpdu)

theorem RetxInv.nackPdu {i : ℕ} {nack : Nack}
    (hfits : ∀ pdu, s.txWindow.get? i = some pdu → nack.Fits pdu.buf.length) :
    (s.nackPdu i nack).RetxInv := by
  have hsame := samePdus_nackPdu s i nack
  unfold Tx.nackPdu at hsame ⊢
  cases hpdu : s.txWindow.get? i with
  | none => exact hs
  | some pdu =>
    simp only [hpdu] at hsame ⊢
    split
    · exact hs
    rename_i hnew
    rw [if_neg hnew] at hsame
    have hstored : s.txWindow.get? (retxOfNack pdu.buf.length i nack).sn = some pdu := by
      unfold retxOfNack
      dsimp only
      split_ifs
      all_goals exact hpdu
    exact hs.push hsame hstored ((hfits pdu hpdu).retxOfNack (hs.sane hpdu).buf_ne_nil) rfl

/-- The front of the queue is for a PDU in the window. -/
def FrontStored (s : Tx) : Prop :=
  ∀ retx, s.retxQueue.head? = some retx → s.txWindow.contains retx.sn = true

theorem RetxInv.dropMissing : s.dropMissing.RetxInv ∧ s.dropMissing.FrontStored := by
  have hfront : FrontStored
      { s with retxQueue := s.retxQueue.dropWhile fun retx => !s.txWindow.contains retx.sn } := by
    intro retx hretx
    have hnot := List.head?_dropWhile_not (fun retx => !s.txWindow.contains retx.sn) s.retxQueue
    rw [hretx] at hnot
    simpa using hnot
  have hdrop := hs.sublist (samePdus_retxQueue s _)
    (dropWhile_sublist fun retx => !s.txWindow.contains retx.sn)
  unfold Tx.dropMissing
  dsimp only at hdrop hfront ⊢
  generalize hqueue : s.retxQueue.dropWhile (fun retx => !s.txWindow.contains retx.sn) = queue
    at hdrop hfront ⊢
  split
  · next hempty =>
    simp only [Bool.and_eq_true, List.isEmpty_iff] at hempty
    obtain ⟨rfl, hvtA⟩ := hempty
    refine ⟨hdrop.retransmitPdu _, fun retx hretx => ?_⟩
    -- the queue has the PDU at the lower edge as its only entry
    obtain ⟨pdu, hpdu⟩ := isSome_iff_exists.mp hvtA
    have hpushed := @retxQueue_retransmitPdu { s with retxQueue := [] } s.vtA pdu hpdu
    rw [(samePdus_retransmitPdu _ _).contains]
    rw [hpushed] at hretx
    cases hretx
    rw [TxPdu.wholeRetx, (hs.sane hpdu).rlcSn]
    exact hvtA
  · exact ⟨hdrop, hfront⟩

omit hs in
/-- The queue after `build_segment` for its front: the entry stays when the grant is too small, is
removed when all was sent, and starts at the end of the segment otherwise. -/
theorem retxQueue_buildSegment {nofBytes : ℕ} {pdu : TxPdu} {retx : Retx} {queue : List Retx}
    (hqueue : s.retxQueue = retx :: queue) :
    ((s.buildSegment nofBytes pdu retx).2 = none ∧
        (s.buildSegment nofBytes pdu retx).1.retxQueue = s.retxQueue) ∨
      (∃ sent, (s.buildSegment nofBytes pdu retx).2 = some sent) ∧ ∃ header soEnd p,
        segmentOf pdu.header pdu.buf.length nofBytes (retxRange retx pdu.buf.length).1
          (retxRange retx pdu.buf.length).2 p = some (header, soEnd) ∧
        ((s.buildSegment nofBytes pdu retx).1.retxQueue = queue ∨
          retx.soEnd ≠ soEnd ∧ (s.buildSegment nofBytes pdu retx).1.retxQueue =
            { retx with isSegment := true, soStart := soEnd } :: queue) := by
  have hpoll : ∀ n p, ((s.countPoll n).restartPoll p).retxQueue = s.retxQueue := by
    intro n p
    unfold restartPoll
    split
    · rfl
    · rfl
  unfold buildSegment
  dsimp only
  split
  · exact .inl ⟨rfl, hpoll _ _⟩
  rename_i header soEnd hsegment
  refine .inr ⟨⟨_, rfl⟩, header, soEnd, _, hsegment, ?_⟩
  rw [hpoll, hqueue, tail_cons]
  split
  · simp
  · next hmore =>
    simp only [Bool.or_eq_true, decide_eq_true_eq, not_or] at hmore
    exact .inr ⟨hmore.2, rfl⟩

theorem RetxInv.cutFront (h : s.SamePdus t) {queue : List Retx} {soEnd : ℕ}
    (hqueue : s.retxQueue = retx :: queue) (hlt : soEnd < retx.soEnd)
    (ht : t.retxQueue = { retx with isSegment := true, soStart := soEnd } :: queue) :
    t.RetxInv := by
  have hscheduled := hs.scheduled
  have hspread := hs.spread
  rw [hqueue] at hscheduled hspread
  have hfront := hscheduled retx mem_cons_self
  refine hs.of_samePdus h ?_ ?_
  · rw [ht]
    intro entry hentry
    rcases mem_cons.mp hentry with rfl | hrest
    · refine ⟨hfront.sn_lt, hfront.sn_ne, fun hpdu => ?_⟩
      exact ⟨hlt, (hfront.fits hpdu).le, fun hwhole => absurd hwhole (by simp)⟩
    · exact hscheduled entry (mem_cons_of_mem _ hrest)
  · rw [ht]
    obtain ⟨hhead, htail⟩ := pairwise_cons.mp hspread
    exact pairwise_cons.mpr ⟨hhead, htail⟩

/-- `build_segment` for the entry at the front. -/
theorem RetxInv.buildSegment {nofBytes : ℕ} {queue : List Retx}
    (hqueue : s.retxQueue = retx :: queue) (hpdu : s.txWindow.get? retx.sn = some pdu) :
    (s.buildSegment nofBytes pdu retx).1.RetxInv := by
  have hsame := samePdus_buildSegment s nofBytes pdu retx
  have hfits := (hs.scheduled retx (by simp [hqueue])).fits hpdu
  rcases @retxQueue_buildSegment s nofBytes pdu retx queue hqueue with ⟨-, hkept⟩ |
    ⟨-, header, soEnd, p, hsegment, hdone | ⟨hmore, hcut⟩⟩
  · exact hs.sublist hsame (by rw [hkept])
  · refine hs.sublist hsame ?_
    rw [hdone, hqueue]
    simp
  · have hle := (segmentOf_of_fits (hs.sane hpdu) hfits hsegment).2
    exact hs.cutFront hsame hqueue (by omega) hcut

/-- `build_retx_pdu` keeps the invariant. When it sends nothing, the queue is empty or has a PDU of
the window at its front. -/
theorem RetxInv.buildRetxPdu (nofBytes : ℕ) : (s.buildRetxPdu nofBytes).1.RetxInv ∧
      ((s.buildRetxPdu nofBytes).2 = none → (s.buildRetxPdu nofBytes).1.FrontStored) := by
  unfold Tx.buildRetxPdu
  generalize hdrop : (if s.retxQueue.isEmpty then s else s.dropMissing) = t
  obtain ⟨ht, hfront⟩ : t.RetxInv ∧ t.FrontStored := by
    rw [← hdrop]
    split
    · next hempty =>
      refine ⟨hs, fun retx hretx => ?_⟩
      rw [List.isEmpty_iff.mp hempty] at hretx
      cases hretx
    · exact hs.dropMissing
  dsimp only
  split
  · exact ⟨ht, fun _ => hfront⟩
  rename_i retx queue hqueue
  have hstored := hfront retx (by rw [hqueue, List.head?_cons])
  obtain ⟨pdu, hpdu⟩ := isSome_iff_exists.mp hstored
  have hfits := (ht.scheduled retx (by simp [hqueue])).fits hpdu
  have hsize := requiredBufferSize_nonneg (ht.sane hpdu) hfits
  simp only [hpdu]
  rw [if_neg (by omega)]
  split
  · refine ⟨ht.buildSegment hqueue hpdu, fun hnone => ?_⟩
    rcases @retxQueue_buildSegment t nofBytes pdu retx queue hqueue with ⟨-, hkept⟩ |
      ⟨⟨sent, hsent⟩, -⟩
    · intro front hhead
      rw [hkept] at hhead
      rw [(samePdus_buildSegment t nofBytes pdu retx).contains]
      exact hfront front hhead
    · exact absurd (hnone.symm.trans hsent) (by simp)
  · refine ⟨ht.sublist (((samePdus_countPoll t _).trans (samePdus_restartPoll _ _)).trans
      (samePdus_retxQueue _ _)) ?_, fun h => absurd h (by simp)⟩
    rw [hqueue]
    simp

/-! ## New PDUs -/

/-- When the front of the queue is in a window that is not full, the next sequence number has not
come round to any entry. -/
theorem RetxInv.age_lt (hfront : s.FrontStored)
    (hlt : s.outstanding < windowSize) : ∀ retx ∈ s.retxQueue, s.age retx.sn + 1 < snMod := by
  have hsize : windowSize + windowSize = snMod := rfl
  have hspread := hs.spread
  cases hqueue : s.retxQueue with
  | nil => simp
  | cons front queue =>
    rw [hqueue] at hspread
    have hage := (hs.window.age_of_mem (hfront front (by rw [hqueue, List.head?_cons]))).2
    intro retx hretx
    rcases mem_cons.mp hretx with rfl | hrest
    · omega
    · have hrel := (pairwise_cons.mp hspread).1 retx hrest
      omega

theorem RetxInv.finished {f : Fill} (hgrows : s.WindowGrows t) (hfront : s.FrontStored)
    (hlt : s.outstanding < windowSize) (h : Finished (s.addPdu s.vtS) f t) (hf : f.Sane)
    (hdata : f.data ≠ []) : t.RetxInv := by
  obtain ⟨header, hli, hget⟩ := h.get?
  have hqueue : t.retxQueue = s.retxQueue := h.retxQueue
  have hage : ∀ retx ∈ s.retxQueue, t.age retx.sn = s.age retx.sn + 1 := by
    intro retx hretx
    rw [age, h.vtS]
    exact seqDist_seqSucc (hs.scheduled retx hretx).sn_lt hs.window.vtS_lt
      (hs.age_lt hfront hlt retx hretx)
  refine ⟨hgrows.inv, ?_, ?_, ?_, ?_⟩
  · intro sn pdu hpdu
    rw [hget] at hpdu
    split at hpdu
    · next hsn =>
      cases hpdu
      have hbound := hf.bound
      have htail : 2 * tailroom 0 < 2 ^ 16 := by decide
      refine ⟨hsn.symm, hdata, ?_, hli ▸ hf.li_pos, hli ▸ hf.li_length⟩
      dsimp only
      omega
    · split at hpdu
      · cases hpdu
      · exact hs.sane hpdu
  · rw [h.txSdu, h.txSduQueue]
    exact hf.sdus
  · rw [hqueue]
    intro retx hretx
    have hold := hs.scheduled retx hretx
    refine ⟨hold.sn_lt, ?_, fun {pdu} hpdu => ?_⟩
    · intro heq
      have hzero : t.age retx.sn = 0 :=
        (seqDist_eq_zero_iff hold.sn_lt hgrows.inv.vtS_lt).mpr heq.symm
      have hsucc := hage retx hretx
      omega
    · rw [hget, if_neg hold.sn_ne] at hpdu
      split at hpdu
      · cases hpdu
      · exact hold.fits hpdu
  · rw [hqueue]
    refine hs.spread.imp_of_mem fun {a b} ha hb hab => ?_
    rw [hage a ha, hage b hb]
    omega

theorem RetxInv.buildDataPdu (hsound : s.AdmissionSound) (hfront : s.FrontStored)
    (hsdus : s.txSdu = none → s.txSduQueue = [] ∨ 0 < nSdus s.txSduQueue) (nofBytes : ℕ) :
    (s.buildDataPdu nofBytes).1.RetxInv := by
  have hgrows := windowGrows_buildDataPdu hs.window hsound nofBytes
  cases hrefuses : s.refusesData nofBytes with
  | true =>
    rw [buildDataPdu_of_refuses hrefuses]
    exact hs
  | false =>
    have hlt := hsound.outstanding_lt hrefuses
    have hbytes : minDataPduSize ≤ nofBytes := by
      apply Nat.not_lt.mp
      intro hsmall
      simp [refusesData, hsmall] at hrefuses
    have hnext : s.txSdu = none → 0 < nSdus s.txSduQueue := by
      intro hnone
      rcases hsdus hnone with hempty | hpos
      · exact absurd hrefuses (by simp [refusesData, hnone, hempty])
      · exact hpos
    rcases buildDataPdu_cases hrefuses with ⟨f, hpull, hbuild⟩ | ⟨f, hpull, hbuild⟩
    · obtain ⟨hf, hdata⟩ := @sane_pull_fillInit (s.addPdu s.vtS) f s.vtS nofBytes hs.sdus hbytes
        hnext hpull
      rw [hbuild] at hgrows ⊢
      exact hs.finished hgrows hfront hlt (finished_finishData _ _ f) hf hdata
    · rw [hbuild] at hgrows ⊢
      have hsane := (@sane_fillInit (s.addPdu s.vtS) hs.sdus nofBytes).pull (.inr hpull)
      refine hs.of_get? hgrows.inv rfl ?_ hsane.1.sdus rfl
      intro sn pdu hpdu
      rw [get?_abortData] at hpdu
      split at hpdu
      · cases hpdu
      · exact hpdu

theorem RetxInv.readData (hsound : s.AdmissionSound)
    (hsdus : s.txSdu = none → s.txSduQueue = [] ∨ 0 < nSdus s.txSduQueue) (nofBytes : ℕ) :
    (s.readData nofBytes).1.RetxInv := by
  unfold Tx.readData
  generalize hretx : (if decide (windowSize ≤ s.txWindow.count) && s.retxQueue.isEmpty then
    s.retransmitPdu s.vtA else s) = t
  obtain ⟨hst, ht⟩ : s.SamePdus t ∧ t.RetxInv := by
    rw [← hretx]
    split
    · exact ⟨samePdus_retransmitPdu s _, hs.retransmitPdu _⟩
    · exact ⟨SamePdus.refl s, hs⟩
  have hdata : ∀ u : Tx, s.SamePdus u → u.RetxInv → u.FrontStored →
      (u.buildDataPdu nofBytes).1.RetxInv := by
    intro u hsu hu hfront
    refine hu.buildDataPdu (hsu.admissionSound hsound) hfront ?_ nofBytes
    rw [hsu.txSdu, hsu.txSduQueue]
    exact hsdus
  have hbuild := ht.buildRetxPdu nofBytes
  have hsame := hst.trans (samePdus_buildRetxPdu t nofBytes)
  dsimp only
  split
  · next hempty =>
    refine hdata t hst ht fun retx hretx => ?_
    rw [List.isEmpty_iff.mp hempty] at hretx
    cases hretx
  · split
    · next u pdu hu =>
      rw [hu] at hbuild
      exact hbuild.1
    · next u hu =>
      rw [hu] at hbuild hsame
      exact hdata u hsame hbuild.1 (hbuild.2 rfl)

theorem RetxInv.readPdu (hsound : s.AdmissionSound)
    (hsdus : s.txSdu = none → s.txSduQueue = [] ∨ 0 < nSdus s.txSduQueue) (rx : RxView)
    (nofBytes : ℕ) : (s.readPdu rx nofBytes).1.RetxInv := by
  unfold Tx.readPdu
  split
  · exact hs
  split
  · refine hs.sublist (samePdus_buildStatusPdu s rx nofBytes) ?_
    have hqueue : (s.buildStatusPdu rx nofBytes).1.retxQueue = s.retxQueue := by
      unfold buildStatusPdu
      split
      · split
        · rfl
        · rfl
      · rfl
    rw [hqueue]
  · exact hs.readData hsound hsdus nofBytes

/-! ## SDUs, timers and status PDUs -/

theorem RetxInv.writeSdu {sdu : Sdu} (hsdu : sdu.msg ≠ []) : (s.writeSdu sdu).RetxInv := by
  have hwindow := (windowGrows_writeSdu hs.window sdu).inv
  unfold Tx.writeSdu at hwindow ⊢
  split
  · next hroom =>
    rw [if_pos hroom] at hwindow
    refine hs.of_get? hwindow rfl id ⟨hs.sdus.current, fun other hother => ?_⟩ rfl
    rcases mem_append.mp (mem_waiting.mp hother) with hold | hlast
    · exact hs.sdus.waiting other (mem_waiting.mpr hold)
    · obtain rfl := some.inj (mem_singleton.mp hlast)
      exact hsdu
  · exact hs

theorem RetxInv.discardSdu (discardSn : ℕ) : (s.discardSdu discardSn).RetxInv := by
  have hwindow := (windowGrows_discardSdu hs.window discardSn).inv
  unfold Tx.discardSdu at hwindow ⊢
  split
  · next henabled =>
    rw [if_pos henabled] at hwindow
    refine hs.of_get? hwindow rfl id ⟨hs.sdus.current, fun sdu hsdu => ?_⟩ rfl
    obtain ⟨entry, hentry, hfilter⟩ := mem_map.mp (mem_waiting.mp hsdu)
    obtain ⟨rfl, -⟩ := filter_eq_some_iff.mp hfilter
    exact hs.sdus.waiting sdu (mem_waiting.mpr hentry)
  · exact hs

theorem RetxInv.dropInvalidRetx : s.dropInvalidRetx.RetxInv := by
  refine hs.sublist (samePdus_dropInvalidRetx s) ?_
  unfold Tx.dropInvalidRetx
  split
  · rfl
  rename_i retx queue hqueue
  split
  · rfl
  split
  · rw [hqueue]
    simp
  rfl

theorem RetxInv.timerExpired (timer : TxTimer) : (s.timerExpired timer).RetxInv := by
  have hreport : ∀ t : Tx, t.RetxInv →
      (if t.cfg.bsrCallback then t.dropInvalidRetx else t).RetxInv := by
    intro t ht
    split
    · exact ht.dropInvalidRetx
    · exact ht
  apply hreport
  cases timer with
  | pollRetx =>
    have hexpired : Tx.RetxInv { s with pollRetxTimer := .expired } :=
      hs.of_get? { hs.window with } rfl id hs.sdus rfl
    dsimp only
    split
    · exact hexpired.retransmitPdu _
    · exact hexpired
  | statusProhibit =>
    exact hs.of_get? { hs.window with } rfl id hs.sdus rfl

theorem RetxInv.controlStart (status : StatusPdu) : (s.controlStart status).1.RetxInv := by
  refine hs.sublist (samePdus_controlStart s status) ?_
  unfold Tx.controlStart
  split
  · rfl
  split
  · rfl
  dsimp only
  split
  · rfl
  simp

omit hs in
theorem ackPdu_of_get? {i : ℕ} (h : s.txWindow.get? i = some pdu) :
    (s.ackPdu i).txWindow = s.txWindow.erase i ∧ (s.ackPdu i).retxQueue = s.retxQueue ∧
      (s.ackPdu i).txSdu = s.txSdu ∧ (s.ackPdu i).txSduQueue = s.txSduQueue := by
  simp only [ackPdu, h, removePdu]
  simp

theorem RetxInv.ackPdu (i : ℕ) : (s.ackPdu i).RetxInv := by
  cases hpdu : s.txWindow.get? i with
  | none =>
    have hnothing : s.ackPdu i = s := by simp only [Tx.ackPdu, hpdu]
    rw [hnothing]
    exact hs
  | some pdu =>
    obtain ⟨hwindow, hqueue, hsdu, hsduQueue⟩ := ackPdu_of_get? hpdu
    refine hs.of_get? (hs.window.ackPdu i) (vtS_ackPdu s i) ?_ ?_ hqueue
    · intro sn pdu' hpdu'
      rw [hwindow, CircularMap.get?_erase] at hpdu'
      split at hpdu'
      · cases hpdu'
      · exact hpdu'
    · rw [hsdu, hsduQueue]
      exact hs.sdus

/-- A critical section of `handle_control_pdu`, with a NACK that fits. -/
theorem RetxInv.controlStep {run : ControlRun} (hrun : ControlInv s run)
    (hnack : ∀ nack todo found, run.phase = .nacks (nack :: todo) found → nack.nackSn = run.i →
      ∀ pdu, s.txWindow.get? run.i = some pdu → nack.Fits pdu.buf.length) :
    (s.controlStep run).1.RetxInv := by
  have hwindow := (hrun.controlStep hs.window).1
  obtain ⟨status, i, vtSLocal, updateVtA, phase⟩ := run
  cases phase with
  | head =>
    unfold Tx.controlStep at hwindow ⊢
    dsimp only at hwindow ⊢
    split
    · exact hs
    · next hends =>
      rw [if_neg hends] at hwindow
      exact hs.of_get? hwindow rfl id hs.sdus rfl
  | nacks todo found =>
    cases todo with
    | cons nack todo =>
      unfold Tx.controlStep
      dsimp only
      split
      · next heq => exact hs.nackPdu (hnack nack todo found rfl heq)
      · exact hs
    | nil =>
      cases found with
      | true => exact hs
      | false =>
        have hacked := hs.ackPdu i
        cases updateVtA with
        | true => exact hacked.of_get? hwindow rfl id hacked.sdus rfl
        | false => exact hacked

end

end Tx

/-! ## Runs -/

/-- The NACK that the next critical section of `handle_control_pdu` acts on. -/
def TxState.nextNack (st : TxState) : Option Nack :=
  match st.control with
  | some { i := i, phase := .nacks (nack :: _) _, .. } =>
    if nack.nackSn = i then some nack else none
  | _ => none

/-- The condition on a run: SDUs are not empty; a grant finds a sound admission test, and an SDU to
send unless nothing waits; and a NACK that is acted on fits its PDU. -/
def TxState.RetxSound (st : TxState) : TxAction → Prop
  | .writeSdu sdu => sdu.msg ≠ []
  | .readPdu _ _ => st.tx.AdmissionSound ∧
      (st.tx.txSdu = none → st.tx.txSduQueue = [] ∨ 0 < nSdus st.tx.txSduQueue)
  | .controlStep => ∀ nack ∈ st.nextNack, ∀ pdu ∈ st.tx.txWindow.get? nack.nackSn,
      nack.Fits pdu.buf.length
  | _ => True

instance (st : TxState) : (a : TxAction) → Decidable (st.RetxSound a)
  | .writeSdu _ => inferInstanceAs (Decidable (_ ≠ _))
  | .readPdu _ _ => inferInstanceAs (Decidable (_ ∧ _))
  | .controlStep => inferInstanceAs (Decidable (∀ nack ∈ st.nextNack, _))
  | .discardSdu _ | .timerExpired _ | .controlPdu _ => isTrue trivial

theorem TxState.RetxSound.grantSound {st : TxState} {a : TxAction} (h : st.RetxSound a) :
    st.GrantSound a := by
  cases a with
  | readPdu rx nofBytes => exact h.1
  | _ => trivial

theorem TxState.retxInv_step {st st' : TxState} {a : TxAction} (hst : st.Inv)
    (hretx : st.tx.RetxInv) (hsound : st.RetxSound a) (hstep : st.step a = some st') :
    st'.tx.RetxInv := by
  cases a with
  | writeSdu sdu =>
    cases hstep
    exact hretx.writeSdu hsound
  | discardSdu discardSn =>
    cases hstep
    exact hretx.discardSdu discardSn
  | readPdu rx nofBytes =>
    cases hstep
    exact hretx.readPdu hsound.1 hsound.2 rx nofBytes
  | timerExpired timer =>
    cases hstep
    exact hretx.timerExpired timer
  | controlPdu status =>
    obtain rfl := TxState.step_controlPdu hstep
    exact hretx.controlStart status
  | controlStep =>
    obtain ⟨run, hrun, rfl⟩ := map_eq_some_iff.mp hstep
    refine hretx.controlStep (hst.control run hrun) fun nack todo found hphase hsn pdu hpdu => ?_
    have hnext : st.nextNack = some nack := by
      obtain ⟨status, i, vtSLocal, updateVtA, phase⟩ := run
      subst hphase
      simp [TxState.nextNack, hrun, hsn]
    exact hsound nack hnext pdu (hsn ▸ hpdu)

theorem TxState.retxInv_init {st : TxState} (hst : txSystem.Init st) : st.tx.RetxInv := by
  have hwindow := (TxState.Inv.init hst).window
  obtain ⟨cfg, rfl⟩ := hst
  refine ⟨hwindow, fun h => ?_, ⟨fun _ h => ?_, fun _ h => ?_⟩, fun _ h => ?_, List.Pairwise.nil⟩
  · exact absurd (contains_of_get? h) (by simp)
  · cases h
  · exact absurd h (by simp [waiting])
  · cases h

/-- An SDU of ten bytes is sent in one PDU, and a NACK for a segment of it is handled. -/
def nackRun (soStart soEnd : ℕ) : List TxAction :=
  [.writeSdu ⟨[0, 1, 2, 3, 4, 5, 6, 7, 8, 9], 0⟩, .readPdu ⟨false, 0⟩ 20,
    .controlPdu { ackSn := 1, nacks := [{ nackSn := 0, hasSo := true, soStart, soEnd }] },
    .controlStep, .controlStep]

end MbmsTx.Rlc.Am
