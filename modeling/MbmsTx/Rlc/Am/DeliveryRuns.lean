import MbmsTx.Rlc.Am.Delivery

/-!
# Delivery notifications in runs

An acknowledged RLC PDU leaves the lists of its SDUs. A fully transmitted SDU of which nothing is
left in its list has, by the record, no unacknowledged PDU and is complete, so it is notified at the
right moment and, since its place is cleared, only once.
-/

namespace MbmsTx.Rlc.Am

open MbmsTx.Transition List SegmentTracking Delivery
open Function (update)

variable {t u v : SegmentTracking} {lists : ℕ → List ℕ} {sdus : ℕ → Delivery} {d : Delivery}
  {notify notify' ids : List ℕ} {i sn capacity : ℕ} {full : Bool}

/-- An SDU is notified at most once and only when it is acknowledged, and an acknowledged SDU was
notified unless the vector was full. -/
structure Delivery.Settled (full : Bool) (d : Delivery) : Prop where
  once : d.notified ≤ 1
  acked : 0 < d.notified → d.Acked
  told : d.Acked → d.notified = 1 ∨ full = true

namespace Delivery

theorem notify_nil (sdus : ℕ → Delivery) : Delivery.notify [] sdus = sdus := rfl

theorem settled_of_incomplete (hnotified : d.notified = 0) (hcomplete : d.complete = false) :
    d.Settled full := by
  refine ⟨by omega, fun h => by omega, fun h => ?_⟩
  exact absurd h.1 (by simp [hcomplete])

theorem settled_update {other : ℕ} (h : (sdus sn).Settled full) (hd : d.Settled full) :
    (update sdus other d sn).Settled full := by
  by_cases hsn : sn = other
  · rw [hsn, Function.update_self]
    exact hd
  · rw [Function.update_of_ne hsn]
    exact h

theorem Settled.mono {full' : Bool} (h : d.Settled full) (hfull : full → full') : d.Settled full' :=
  ⟨h.once, h.acked, fun hacked => (h.told hacked).imp_right hfull⟩

end Delivery

/-! ## An acknowledged PDU -/

theorem count_drop_of_prefix (h : notify <+: notify') (sn : ℕ) :
    (notify'.drop notify.length).count sn + notify.count sn = notify'.count sn := by
  obtain ⟨rest, rfl⟩ := h
  rw [drop_left, count_append, add_comm]

/-- The segments of the PDU `i` are gone. -/
def Place.ack (i : ℕ) (p : Place) : Place :=
  { p with rlcSns := p.rlcSns.filter (· ≠ some i) }

/-- What the acknowledgement of the PDU `i` does to the places and the vector: an SDU that was fully
transmitted leaves the list with its last segment. -/
structure SegmentTracking.Acknowledged (t : SegmentTracking) (i : ℕ) (notify notify' : List ℕ)
    (u : SegmentTracking) : Prop where
  sn : ∀ {j sn}, (u.pdus j).sn = some sn → (t.pdus j).sn = some sn
  grows : notify <+: notify'
  place : ∀ sn,
    (u.place sn = (t.place sn).ack i ∧
      ((t.place sn).fullyTxed → ((t.place sn).ack i).rlcSns ≠ []) ∧
        notify'.count sn = notify.count sn) ∨
      ((t.place sn).placed ∧ (t.place sn).fullyTxed ∧ ((t.place sn).ack i).rlcSns = [] ∧
        u.place sn = ⟨false, false, []⟩ ∧ (notify'.count sn = notify.count sn + 1 ∨
          notify'.count sn = notify.count sn ∧ Tx.maxSdusToNotify ≤ notify'.length))

open SegmentTracking (Acknowledged)

theorem Entry.mem_unacked_acked {p : Place} (h : Entry p d) (i w : ℕ) :
    w ∈ d.unacked.filter (· ≠ i) ↔ some w ∈ (p.ack i).rlcSns := by
  simp [Place.ack, h.unacked w]

theorem Entry.acked (h : Entry (t.place sn) (sdus sn)) (hsettled : (sdus sn).Settled full)
    (hack : t.Acknowledged i notify notify' u) :
    Entry (u.place sn) (Delivery.notify (notify'.drop notify.length) (Delivery.ack i sdus) sn) ∧
      (Delivery.notify (notify'.drop notify.length) (Delivery.ack i sdus) sn).Settled
        (full || decide (Tx.maxSdusToNotify ≤ notify'.length)) := by
  have hunacked := h.mem_unacked_acked i
  have hdrop := count_drop_of_prefix hack.grows sn
  rcases hack.place sn with ⟨hplace, hbusy, hcount⟩ | ⟨hplaced, htxed, hnil, hplace, hcount⟩
  · -- the SDU keeps its place
    have hzero : (notify'.drop notify.length).count sn = 0 := by omega
    have hrecord : Delivery.notify (notify'.drop notify.length) (Delivery.ack i sdus) sn =
        { sdus sn with unacked := (sdus sn).unacked.filter (· ≠ i) } := by
      simp [Delivery.notify, Delivery.ack, hzero]
    have hnone : none ∈ ((t.place sn).ack i).rlcSns ↔ none ∈ (t.place sn).rlcSns := by
      simp [Place.ack]
    rw [hrecord, hplace]
    refine ⟨⟨hunacked, fun hfresh => ?_, h.written, fun hplaced hcomplete => ?_, fun htxed => ?_⟩,
      ⟨hsettled.once, fun hpos => ?_, fun hacked => ?_⟩⟩
    · exact ⟨(h.fresh hfresh).1, by simp [Place.ack, (h.fresh hfresh).2]⟩
    · rw [hnone]
      exact h.complete hplaced hcomplete
    · rw [hnone]
      exact ⟨hbusy htxed, (h.fullyTxed htxed).2⟩
    · obtain ⟨hcomplete, hnil⟩ := hsettled.acked hpos
      exact ⟨hcomplete, by simp [hnil]⟩
    · obtain ⟨hcomplete, hnil⟩ : (sdus sn).complete ∧ (sdus sn).unacked.filter (· ≠ i) = [] :=
        hacked
      -- an SDU with a place still has an unacknowledged PDU
      have hunplaced : (t.place sn).placed = false := by
        by_contra hplaced
        obtain ⟨htxed, hattached⟩ := h.complete (Bool.eq_true_of_not_eq_false hplaced) hcomplete
        obtain ⟨r, hr⟩ := exists_mem_of_ne_nil _ (hbusy htxed)
        cases r with
        | none => exact hattached (hnone.mp hr)
        | some w =>
          have hmem := (hunacked w).mpr hr
          rw [hnil] at hmem
          cases hmem
      have hempty : (sdus sn).unacked = [] := by
        apply eq_nil_iff_forall_not_mem.mpr
        intro w hw
        rw [h.unacked, (h.fresh hunplaced).2] at hw
        cases hw
      exact (hsettled.told ⟨hcomplete, hempty⟩).imp_right fun hfull => by simp [hfull]
  · -- nothing is left of the SDU
    have hnone : (sdus sn).unacked.filter (· ≠ i) = [] := by
      apply eq_nil_iff_forall_not_mem.mpr
      intro w hw
      rw [hunacked, hnil] at hw
      cases hw
    have hcomplete : (sdus sn).complete := by
      rcases (h.fullyTxed htxed).2 with hcomplete | hdetached
      · exact hcomplete
      have hmem : none ∈ ((t.place sn).ack i).rlcSns := by simp [Place.ack, hdetached]
      rw [hnil] at hmem
      cases hmem
    have hnotified := (h.written hplaced).2
    have hrecord : Delivery.notify (notify'.drop notify.length) (Delivery.ack i sdus) sn =
        { sdus sn with unacked := [], notified := (notify'.drop notify.length).count sn } := by
      simp only [Delivery.notify, Delivery.ack, hnone, hnotified, zero_add]
    rw [hrecord, hplace]
    refine ⟨entry_of_fresh rfl ⟨rfl, rfl⟩ rfl, ⟨?_, fun _ => ⟨hcomplete, rfl⟩, fun _ => ?_⟩⟩
    · dsimp only
      omega
    · rcases hcount with hone | ⟨-, hfull⟩
      · exact .inl (by dsimp only; omega)
      · exact .inr (by simp [hfull])

theorem Ledger.acked {txSdu : Option Sdu} {queue : List (Option Sdu)}
    (h : Ledger t txSdu queue sdus) (hsettled : ∀ sn, (sdus sn).Settled full)
    (hack : t.Acknowledged i notify notify' u) :
    Ledger u txSdu queue (Delivery.notify (notify'.drop notify.length) (Delivery.ack i sdus)) := by
  refine ⟨fun {j sn} hj => h.plain (hack.sn hj), fun {j sn} hj => h.small (hack.sn hj),
    fun sn => ((h.entry sn).acked (hsettled sn) hack).1, fun sdu hsdu => ?_, h.distinct,
    fun sdu hsdu => ?_⟩
  · have hwaits := h.waits sdu hsdu
    rcases hack.place sdu.pdcpSn with ⟨hplace, -, hcount⟩ | ⟨hplaced, -⟩
    · refine ⟨hwaits.small, by rw [hplace]; exact hwaits.unplaced, ?_⟩
      have hdrop := count_drop_of_prefix hack.grows sdu.pdcpSn
      have hzero : (notify'.drop notify.length).count sdu.pdcpSn = 0 := by omega
      simp [Delivery.notify, Delivery.ack, hwaits.record, hzero]
    · exact absurd (hwaits.unplaced.symm.trans hplaced) (by simp)
  · have hcurrent := h.current sdu hsdu
    rcases hack.place sdu.pdcpSn with ⟨hplace, -, -⟩ | ⟨-, htxed, -⟩
    · refine ⟨hcurrent.small, hcurrent.msg, by rw [hplace]; exact hcurrent.placed,
        by rw [hplace]; exact hcurrent.unfinished, hcurrent.record, ?_⟩
      simp [hplace, Place.ack, hcurrent.attached]
    · exact absurd (hcurrent.unfinished.symm.trans htxed) (by simp)

namespace Tx

variable {s : Tx}

/-- `update_notification_ack_info` and the removal of the PDU. -/
theorem Conserved.acknowledged (hs : s.Conserved) (hledger : s.Recorded sdus) {pdu : TxPdu}
    (hpdu : s.txWindow.get? i = some pdu) :
    s.tracking.Acknowledged i s.notifyInfoVec (s.ackPdu i).notifyInfoVec
      (s.ackPdu i).tracking := by
  have hbusy : ∀ sn, (s.tracking.pdus (some sn)).fullyTxed →
      (s.tracking.pdus (some sn)).list ≠ [] := fun sn h hnil =>
    ((hledger.entry sn).fullyTxed h).1 (by simp [SegmentTracking.place, hnil])
  have hplace : ∀ sn, SegmentTracking.PlaceAcked maxSdusToNotify sn pdu.list
      (s.tracking, s.notifyInfoVec) (updateNotificationAckInfo maxSdusToNotify
        pdu.list (s.tracking, s.notifyInfoVec)) := fun sn =>
    @SegmentTracking.PoolInv.placeAcked _ sn _ (s.tracking, s.notifyInfoVec) hs hledger.plain
      (hbusy sn) pdu.list
  have hframe := ackFrame_updateNotificationAckInfo maxSdusToNotify pdu.list
    (s.tracking, s.notifyInfoVec)
  have hgrows := prefix_updateNotificationAckInfo maxSdusToNotify pdu.list
    (s.tracking, s.notifyInfoVec)
  have htracking : (s.ackPdu i).tracking = (updateNotificationAckInfo
      maxSdusToNotify pdu.list (s.tracking, s.notifyInfoVec)).1.releasePdu pdu.list := by
    simp only [Tx.ackPdu, hpdu, removePdu]
  have hnotify : (s.ackPdu i).notifyInfoVec = (updateNotificationAckInfo
      maxSdusToNotify pdu.list (s.tracking, s.notifyInfoVec)).2 := by
    simp only [Tx.ackPdu, hpdu, removePdu]
  have hreleased := released_releasePdu (updateNotificationAckInfo
      maxSdusToNotify pdu.list (s.tracking, s.notifyInfoVec)).1 pdu.list
  rw [htracking, hnotify]
  generalize updateNotificationAckInfo maxSdusToNotify pdu.list
    (s.tracking, s.notifyInfoVec) = st at hplace hframe hgrows hreleased
  refine ⟨fun {j sn} hsn => ?_, hgrows, fun sn => ?_⟩
  · rw [hreleased.pdus] at hsn
    exact hframe.sn hsn
  · have hmem : ∀ id, id ∈ pdu.list ↔ s.tracking.rlcSn id = some i := by
      intro id
      rw [← lists_of_get? hpdu]
      exact hs.mem_lists
    have hrlcSns : ((s.tracking.pdus (some sn)).list.filter (· ∉ pdu.list)).map
        (st.1.releasePdu pdu.list).rlcSn = ((s.tracking.place sn).ack i).rlcSns := by
      simp only [Place.ack, SegmentTracking.place, filter_map]
      have hfilter : (fun id => decide (id ∉ pdu.list)) =
          (fun r => decide (r ≠ some i)) ∘ s.tracking.rlcSn := by
        funext id
        simp [hmem]
      rw [← hfilter]
      refine map_congr_left fun id hid => ?_
      rw [hreleased.rlcSn, hframe.rlcSn, if_neg (by simpa using (mem_filter.mp hid).2)]
    rcases hplace sn with ⟨hinfo, hleft, hcount⟩ | ⟨hsn, htxed, hnil, hinfo, hcount⟩
    · refine .inl ⟨?_, fun htxed hempty => ?_, hcount⟩
      · rw [SegmentTracking.place, hreleased.pdus, hinfo, hrlcSns]
        rfl
      · rw [← hrlcSns, map_eq_nil_iff] at hempty
        exact hleft htxed hempty
    · refine .inr ⟨Option.isSome_iff_exists.mpr ⟨sn, hsn⟩, htxed, ?_, ?_, hcount⟩
      · rw [← hrlcSns, hnil, map_nil]
      · simp [SegmentTracking.place, hreleased.pdus, hinfo]

theorem Recorded.ack_eq_self (hs : s.Recorded sdus) (hconserved : s.Conserved)
    (hpdu : s.txWindow.get? i = none) : Delivery.ack i sdus = sdus := by
  funext sn
  have hnone : i ∉ (sdus sn).unacked := by
    intro hmem
    obtain ⟨id, -, hid⟩ := mem_map.mp (((hs.entry sn).unacked i).mp hmem)
    have hin : id ∈ s.lists i := hconserved.mem_lists.mpr hid
    rw [lists_of_none hpdu] at hin
    cases hin
  have hfilter : (sdus sn).unacked.filter (· ≠ i) = (sdus sn).unacked := by
    apply filter_eq_self.mpr
    intro w hw
    exact decide_eq_true fun heq => hnone (heq ▸ hw)
  rw [Delivery.ack, hfilter]

theorem Recorded.ackPdu (hs : s.Recorded sdus) (hconserved : s.Conserved)
    (hsettled : ∀ sn, (sdus sn).Settled full) (i : ℕ) :
    (s.ackPdu i).Recorded (Delivery.notify
        ((s.ackPdu i).notifyInfoVec.drop s.notifyInfoVec.length) (Delivery.ack i sdus)) ∧
      ∀ sn, (Delivery.notify ((s.ackPdu i).notifyInfoVec.drop s.notifyInfoVec.length)
        (Delivery.ack i sdus) sn).Settled
          (full || decide (maxSdusToNotify ≤ (s.ackPdu i).notifyInfoVec.length)) := by
  cases hpdu : s.txWindow.get? i with
  | none =>
    have hsame : s.ackPdu i = s := by simp only [Tx.ackPdu, hpdu]
    rw [hsame, drop_length, notify_nil, hs.ack_eq_self hconserved hpdu]
    exact ⟨hs, fun sn => (hsettled sn).mono fun hfull => by simp [hfull]⟩
  | some pdu =>
    have hack := hconserved.acknowledged hs hpdu
    have hqueue : (s.ackPdu i).txSdu = s.txSdu ∧ (s.ackPdu i).txSduQueue = s.txSduQueue := by
      simp [Tx.ackPdu, hpdu, removePdu]
    refine ⟨?_, fun sn => ((hs.entry sn).acked (hsettled sn) hack).2⟩
    unfold Recorded
    rw [hqueue.1, hqueue.2]
    exact Ledger.acked hs hsettled hack

theorem controlStep_of_acks {run : ControlRun} (h : run.phase = .nacks [] false) :
    (s.controlStep run).1 = s.ackPdu run.i ∨
      (s.controlStep run).1 = (s.ackPdu run.i).advanceVtA := by
  obtain ⟨status, i, vtSLocal, updateVtA, phase⟩ := run
  subst h
  cases updateVtA with
  | true => exact .inr rfl
  | false => exact .inl rfl

end Tx

/-! ## Runs -/

namespace DeliveryState

variable {g : DeliveryState} {st : TxState}

/-- The record agrees with the transmitter, and what was told about every SDU is right. -/
structure Inv (g : DeliveryState) : Prop where
  conserved : g.st.tx.Conserved
  recorded : g.st.tx.Recorded g.sdus
  settled : ∀ sn, (g.sdus sn).Settled g.full

/-- The state that `step` makes of the next state of the transmitter. -/
def next (g : DeliveryState) (a : TxAction) (st : TxState) : DeliveryState :=
  { st := st
    sdus := Delivery.notify (st.tx.notifyInfoVec.drop g.st.tx.notifyInfoVec.length)
      (g.record st.tx a)
    full := g.full || decide (Tx.maxSdusToNotify ≤ st.tx.notifyInfoVec.length) }

theorem Inv.next_of_silent {a : TxAction} {sdus' : ℕ → Delivery} (hg : g.Inv)
    (hstep : g.st.step a = some st)
    (hsilent : st.tx.notifyInfoVec.length ≤ g.st.tx.notifyInfoVec.length)
    (hrecord : g.record st.tx a = sdus') (hrecorded : st.tx.Recorded sdus')
    (hsettled : ∀ sn, (sdus' sn).Settled g.full) : (g.next a st).Inv := by
  have hsdus : (g.next a st).sdus = sdus' := by
    simp only [next, drop_eq_nil_of_le hsilent, Delivery.notify_nil, hrecord]
  refine ⟨TxState.conserved_step hg.conserved hstep, ?_, fun sn => ?_⟩
  · rw [hsdus]
    exact hrecorded
  · rw [hsdus]
    exact (hsettled sn).mono fun hfull => by simp [next, hfull]

theorem Inv.writeSdu {sdu : Sdu} (hg : g.Inv) (hstep : g.st.step (.writeSdu sdu) = some st)
    (htx : st.tx = g.st.tx.writeSdu sdu) (hregular : g.Regular (.writeSdu sdu)) :
    (g.next (.writeSdu sdu) st).Inv := by
  have hnotify : st.tx.notifyInfoVec = g.st.tx.notifyInfoVec := by
    rw [htx]
    unfold Tx.writeSdu
    split
    · rfl
    · rfl
  have hrecorded := hg.recorded.writeSdu hregular.1 hregular.2
  rw [← htx] at hrecorded
  refine hg.next_of_silent hstep (le_of_eq (congrArg _ hnotify)) rfl hrecorded fun sn => ?_
  dsimp only [record]
  split
  · exact hg.settled sn
  · exact settled_update (hg.settled sn) (settled_of_incomplete rfl rfl)

theorem Inv.discardSdu {discardSn : ℕ} (hg : g.Inv)
    (hstep : g.st.step (.discardSdu discardSn) = some st)
    (htx : st.tx = g.st.tx.discardSdu discardSn) : (g.next (.discardSdu discardSn) st).Inv := by
  have hnotify : st.tx.notifyInfoVec = g.st.tx.notifyInfoVec := by
    rw [htx]
    unfold Tx.discardSdu
    split
    · rfl
    · rfl
  have hrecorded := hg.recorded.discardSdu discardSn
  rw [← htx] at hrecorded
  refine hg.next_of_silent hstep (le_of_eq (congrArg _ hnotify)) rfl hrecorded fun sn => ?_
  dsimp only [record]
  split
  · exact settled_update (hg.settled sn) (settled_of_incomplete rfl rfl)
  · exact hg.settled sn

theorem settled_carry {rlcSn : ℕ} {parts : List Tx.Part} (hsettled : (sdus sn).Settled full)
    (hparts : ∀ part ∈ parts, (sdus part.pdcpSn).complete = false) :
    (parts.foldl (carry rlcSn) sdus sn).Settled full := by
  obtain ⟨-, hnotified, hunacked, hcomplete⟩ := foldl_carry rlcSn parts sdus sn
  refine ⟨by rw [hnotified]; exact hsettled.once, fun hpos => ?_, fun hacked => ?_⟩
  · rw [hnotified] at hpos
    obtain ⟨hdone, hnil⟩ := hsettled.acked hpos
    refine ⟨hcomplete.mpr (.inl hdone), eq_nil_iff_forall_not_mem.mpr fun w hw => ?_⟩
    rcases (hunacked w).mp hw with hold | ⟨-, part, hpart, rfl⟩
    · rw [hnil] at hold
      cases hold
    · exact absurd hdone (by simp [hparts part hpart])
  · have hnone : ∀ w, w ∉ (parts.foldl (carry rlcSn) sdus sn).unacked := by
      simp [hacked.2]
    rw [hnotified]
    refine hsettled.told ⟨?_, eq_nil_iff_forall_not_mem.mpr fun w hw => ?_⟩
    · rcases hcomplete.mp hacked.1 with hdone | ⟨part, hpart, hsn, -⟩
      · exact hdone
      · exact absurd ((hunacked rlcSn).mpr (.inr ⟨rfl, part, hpart, hsn⟩)) (hnone rlcSn)
    · exact absurd ((hunacked w).mpr (.inl hw)) (hnone w)

theorem Inv.readPdu {rx : Tx.RxView} {nofBytes : ℕ} (hg : g.Inv)
    (hstep : g.st.step (.readPdu rx nofBytes) = some st)
    (htx : st.tx = (g.st.tx.readPdu rx nofBytes).1) (hregular : g.Regular (.readPdu rx nofBytes)) :
    (g.next (.readPdu rx nofBytes) st).Inv := by
  rcases Tx.readPdu_cases g.st.tx rx nofBytes with ⟨-, hsame⟩ | ⟨hadds, u, hsame, hrefuses, hread⟩
  · rw [← htx] at hsame
    exact hg.next_of_silent hstep (le_of_eq (congrArg _ hsame.notifyInfoVec))
      (if_pos hsame.vtS) (hsame.recorded hg.recorded) hg.settled
  have hspace := hregular hadds
  have huspace : u.txWindow.hasSpace u.vtS := by
    rw [hsame.vtS]
    exact hsame.hasSpace hspace
  obtain ⟨hnotify, hbuilt⟩ := (hsame.recorded hg.recorded).buildDataPdu
    (hg.conserved.of_samePdus hsame) huspace hrefuses
  rw [← hread, ← htx, hsame.notifyInfoVec] at hnotify
  rw [← hread, ← htx, hsame.vtS, hsame.dataParts hspace] at hbuilt
  rcases hbuilt with ⟨hvtS, hparts, hrecorded⟩ | ⟨hvtS, hrecorded⟩
  · exact hg.next_of_silent hstep (le_of_eq (congrArg _ hnotify)) (if_neg hvtS) hrecorded
      fun sn => settled_carry (hg.settled sn) hparts
  · exact hg.next_of_silent hstep (le_of_eq (congrArg _ hnotify)) (if_pos hvtS) hrecorded hg.settled

theorem Inv.controlStep {run : ControlRun} (hg : g.Inv)
    (hstep : g.st.step .controlStep = some st) (hrun : g.st.control = some run)
    (htx : st.tx = (g.st.tx.controlStep run).1) : (g.next .controlStep st).Inv := by
  by_cases hphase : run.phase = .nacks [] false
  · -- the PDU `i` is acknowledged
    have hrecord : g.record st.tx .controlStep = Delivery.ack run.i g.sdus := by
      obtain ⟨status, i, vtSLocal, updateVtA, phase⟩ := run
      subst hphase
      simp only [record, hrun]
    obtain ⟨hrecorded, hsettled⟩ := hg.recorded.ackPdu hg.conserved hg.settled run.i
    have hsame : st.tx.notifyInfoVec = (g.st.tx.ackPdu run.i).notifyInfoVec ∧
        st.tx.tracking = (g.st.tx.ackPdu run.i).tracking ∧
        st.tx.txSdu = (g.st.tx.ackPdu run.i).txSdu ∧
        st.tx.txSduQueue = (g.st.tx.ackPdu run.i).txSduQueue := by
      rcases Tx.controlStep_of_acks hphase with hacked | hacked
      · rw [htx, hacked]
        simp
      · rw [htx, hacked]
        exact ⟨rfl, rfl, rfl, rfl⟩
    obtain ⟨hnotify, htracking, htxSdu, hqueue⟩ := hsame
    refine ⟨TxState.conserved_step hg.conserved hstep, ?_, fun sn => ?_⟩
    · simp only [next, Tx.Recorded, hrecord, hnotify, htracking, htxSdu, hqueue]
      exact hrecorded
    · simp only [next, hrecord, hnotify]
      exact hsettled sn
  · have hrecord : g.record st.tx .controlStep = g.sdus := by
      simp only [record, hrun]
      split
      · next heq =>
        cases heq
        exact absurd rfl hphase
      · rfl
    rcases Tx.controlStep_cases g.st.tx run with hsame | hends | ⟨hacks, -⟩
    · rw [← htx] at hsame
      exact hg.next_of_silent hstep (le_of_eq (congrArg _ hsame.notifyInfoVec)) hrecord
        (hsame.recorded hg.recorded) hg.settled
    · refine hg.next_of_silent hstep ?_ hrecord ?_ hg.settled
      · rw [htx, hends]
        simp
      · rw [htx, hends]
        exact hg.recorded
    · exact absurd hacks hphase

theorem Inv.step {g' : DeliveryState} {a : TxAction} (hg : g.Inv) (hregular : g.Regular a)
    (hstep : g.step a = some g') : g'.Inv := by
  obtain ⟨st, hst, rfl⟩ := Option.map_eq_some_iff.mp hstep
  rcases TxState.step_cases hst with ⟨sdu, rfl, htx⟩ | ⟨discardSn, rfl, htx⟩ |
    ⟨rx, nofBytes, rfl, htx⟩ | ⟨hquiet, hsame⟩ | ⟨run, rfl, hrun, htx⟩
  · exact hg.writeSdu hst htx hregular
  · exact hg.discardSdu hst htx
  · exact hg.readPdu hst htx hregular
  · have hrecord : g.record st.tx a = g.sdus := by
      rcases hquiet with ⟨timer, rfl⟩ | ⟨status, rfl⟩ <;> rfl
    exact hg.next_of_silent hst (le_of_eq (congrArg _ hsame.notifyInfoVec)) hrecord
      (hsame.recorded hg.recorded) hg.settled
  · exact hg.controlStep hst hrun htx

theorem inv_init (cfg : TxCfg) : Inv { st := { tx := { cfg := cfg } } } := by
  have hpool := poolInv_init
  have hpdus : ∀ i, init.pdus i = {} := fun i => by rfl
  have hsn : ∀ {i sn}, (init.pdus i).sn ≠ some sn := by simp [hpdus]
  refine ⟨hpool, ⟨fun h => absurd h hsn, fun h => absurd h hsn, fun sn => ?_, by simp [Tx.waiting],
    by simp [Tx.waiting], by simp⟩, fun sn => settled_of_incomplete rfl rfl⟩
  have hplace : init.place sn = ⟨false, false, []⟩ := by simp [SegmentTracking.place, hpdus]
  exact hplace ▸ entry_of_fresh rfl ⟨rfl, rfl⟩ rfl

end DeliveryState

/-- In every run in which outstanding SDUs have different SNs below 4096 and no PDU of the window is
overwritten, an SDU is notified at most once, and only after it was completely transmitted and every
RLC PDU with a part of it was acknowledged; such an SDU was notified, unless the notification vector
was full. -/
theorem notified_once_of_acked {g : DeliveryState}
    (hg : (deliverySystem.restrict DeliveryState.Regular).Reachable g) (sn : ℕ) :
    (g.sdus sn).notified ≤ 1 ∧ (0 < (g.sdus sn).notified → (g.sdus sn).Acked) ∧
      ((g.sdus sn).Acked → (g.sdus sn).notified = 1 ∨ g.full = true) := by
  have hinit : ∀ g, deliverySystem.Init g → g.Inv := by
    rintro _ ⟨cfg, rfl⟩
    exact DeliveryState.inv_init cfg
  have hinv : g.Inv := by
    refine hg.restrict_invariant DeliveryState.Inv hinit ?_
    intro g a g' hg hregular hstep
    exact hg.step hregular hstep
  have hsettled := hinv.settled sn
  exact ⟨hsettled.once, hsettled.acked, hsettled.told⟩

/-- An SDU is sent in two PDUs, and notified when both are acknowledged. -/
theorem notified_once_of_two_pdus :
    ∃ g, (deliverySystem.restrict DeliveryState.Regular).Reachable g ∧
      (g.st.tx.vtS = 2 ∧ g.full = false ∧ (g.sdus 7).Acked ∧ (g.sdus 7).notified = 1) ∧
      (g.sdus 7).notified ≤ 1 ∧ (0 < (g.sdus 7).notified → (g.sdus 7).Acked) ∧
      ((g.sdus 7).Acked → (g.sdus 7).notified = 1 ∨ g.full = true) := by
  have hinit : (deliverySystem.restrict DeliveryState.Regular).Init
      { st := { tx := { cfg := exampleTxCfg } } } := ⟨exampleTxCfg, rfl⟩
  exact System.exists_reachable_and hinit
    [.writeSdu ⟨replicate 20 1, 7⟩, .readPdu ⟨false, 0⟩ 12, .readPdu ⟨false, 0⟩ 20,
      .controlPdu ⟨2, []⟩, .controlStep, .controlStep, .controlStep, .controlStep, .controlStep]
    (by decide +kernel) fun g hg _ => notified_once_of_acked hg 7

end MbmsTx.Rlc.Am
