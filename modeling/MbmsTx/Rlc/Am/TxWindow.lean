import MbmsTx.Lib.SeqNum
import MbmsTx.Rlc.Am.Tx

/-!
# The transmit window

The window holds the PDUs that were sent and not yet acknowledged. Their sequence numbers are meant
to lie between `vt_a` and `vt_s`, at most 512 of them, so that in a map of 512 slots a new PDU never
meets an old one.

The admission test of `build_data_pdu` does not say this: it compares the number of stored PDUs with
the size of the window, and is only made when no SDU is being sent. `Tx.AdmissionSound` is the
condition under which it is good enough; then a grant, an SDU or a timer only lets the window grow
(`Tx.WindowGrows`).
-/

namespace MbmsTx.Rlc.Am

open CircularMap

/-! ## The invariant -/

/-- `vt_s - vt_a` modulo 1024. -/
def Tx.outstanding (s : Tx) : ℕ := seqDist snMod s.vtA s.vtS

/-- The window is within its size, and its PDUs lie between `vt_a` and `vt_s`. -/
structure Tx.WindowInv (s : Tx) : Prop where
  vtA_lt : s.vtA < snMod
  vtS_lt : s.vtS < snMod
  outstanding_le : s.outstanding ≤ windowSize
  mem_window : ∀ {sn}, s.txWindow.contains sn = true →
    sn < snMod ∧ seqDist snMod s.vtA sn < s.outstanding

/-- The admission test of `build_data_pdu` is sound: when 512 PDUs are outstanding, it has nothing
to send or finds as many PDUs in the window. -/
def Tx.AdmissionSound (s : Tx) : Prop :=
  s.outstanding < windowSize ∨ s.txSdu = none ∧ (s.txSduQueue = [] ∨ windowSize ≤ s.txWindow.count)

instance (s : Tx) : Decidable s.AdmissionSound := inferInstanceAs (Decidable (_ ∨ _))

/-! ## What the functions leave alone -/

/-- The two states agree on the window, what waits to be sent and the segments. -/
structure Tx.SameWindow (s t : Tx) : Prop where
  vtA : t.vtA = s.vtA
  vtS : t.vtS = s.vtS
  txSdu : t.txSdu = s.txSdu
  txSduQueue : t.txSduQueue = s.txSduQueue
  tracking : t.tracking = s.tracking
  count : t.txWindow.count = s.txWindow.count
  contains : ∀ sn, t.txWindow.contains sn = s.txWindow.contains sn

/-- What was sent in a PDU: all but the count of its retransmissions. -/
def TxPdu.sent (pdu : TxPdu) : TxPdu := { pdu with retxCount := 0 }

/-- The two states also agree on what was sent in the PDUs and on the SDUs to be notified. -/
structure Tx.SamePdus (s t : Tx) : Prop extends s.SameWindow t where
  pdus : ∀ sn, (t.txWindow.get? sn).map TxPdu.sent = (s.txWindow.get? sn).map TxPdu.sent
  notifyInfoVec : t.notifyInfoVec = s.notifyInfoVec

namespace Tx

variable {s t u : Tx}

theorem SameWindow.refl (s : Tx) : s.SameWindow s :=
  ⟨rfl, rfl, rfl, rfl, rfl, rfl, fun _ => rfl⟩

theorem SameWindow.trans (hst : s.SameWindow t) (htu : t.SameWindow u) : s.SameWindow u where
  vtA := htu.vtA.trans hst.vtA
  vtS := htu.vtS.trans hst.vtS
  txSdu := htu.txSdu.trans hst.txSdu
  txSduQueue := htu.txSduQueue.trans hst.txSduQueue
  tracking := htu.tracking.trans hst.tracking
  count := htu.count.trans hst.count
  contains sn := (htu.contains sn).trans (hst.contains sn)

theorem SameWindow.admissionSound (h : s.SameWindow t) (hs : s.AdmissionSound) :
    t.AdmissionSound := by
  simp only [AdmissionSound, outstanding, h.vtA, h.vtS, h.txSdu, h.txSduQueue, h.count]
  exact hs

theorem SamePdus.refl (s : Tx) : s.SamePdus s :=
  ⟨SameWindow.refl s, fun _ => rfl, rfl⟩

theorem SamePdus.trans (hst : s.SamePdus t) (htu : t.SamePdus u) : s.SamePdus u where
  toSameWindow := hst.toSameWindow.trans htu.toSameWindow
  pdus sn := (htu.pdus sn).trans (hst.pdus sn)
  notifyInfoVec := htu.notifyInfoVec.trans hst.notifyInfoVec

theorem SamePdus.get? (h : s.SamePdus t) {sn : ℕ} {pdu : TxPdu}
    (hpdu : t.txWindow.get? sn = some pdu) :
    ∃ pdu', s.txWindow.get? sn = some pdu' ∧ pdu'.sent = pdu.sent := by
  have hsame := h.pdus sn
  rw [hpdu, Option.map_some] at hsame
  exact Option.map_eq_some_iff.mp hsame.symm

theorem samePdus_countPoll (s : Tx) (nofBytes : ℕ) : s.SamePdus (s.countPoll nofBytes) :=
  { SamePdus.refl s with }

theorem samePdus_restartPoll (s : Tx) (p : Bool) : s.SamePdus (s.restartPoll p) := by
  unfold restartPoll
  split
  · exact { SamePdus.refl s with }
  · exact SamePdus.refl s

theorem samePdus_retxQueue (s : Tx) (queue : List Retx) :
    s.SamePdus { s with retxQueue := queue } :=
  { SamePdus.refl s with }

theorem samePdus_schedule (s : Tx) (sn : ℕ) (queue : List Retx) : s.SamePdus
      { s with
          txWindow := s.txWindow.modify sn fun pdu => { pdu with retxCount := pdu.retxCount + 1 }
          retxQueue := queue } := by
  refine ⟨⟨rfl, rfl, rfl, rfl, rfl, count_modify,
    fun _ => contains_modify _⟩, fun i => ?_, rfl⟩
  rw [get?_modify]
  split
  · next heq =>
    rw [heq, Option.map_map]
    rfl
  · rfl

theorem samePdus_retransmitPdu (s : Tx) (sn : ℕ) : s.SamePdus (s.retransmitPdu sn) := by
  unfold retransmitPdu
  split
  · exact SamePdus.refl s
  · exact samePdus_schedule s sn _

theorem samePdus_nackPdu (s : Tx) (i : ℕ) (nack : Nack) : s.SamePdus (s.nackPdu i nack) := by
  unfold nackPdu
  split
  · exact SamePdus.refl s
  · split
    · exact SamePdus.refl s
    · exact samePdus_schedule s i _

theorem samePdus_dropMissing (s : Tx) : s.SamePdus s.dropMissing := by
  unfold dropMissing
  dsimp only
  split
  · exact (samePdus_retxQueue s _).trans (samePdus_retransmitPdu _ _)
  · exact samePdus_retxQueue s _

theorem samePdus_buildSegment (s : Tx) (nofBytes : ℕ) (pdu : TxPdu) (retx : Retx) :
    s.SamePdus (s.buildSegment nofBytes pdu retx).1 := by
  have hpoll : ∀ n p, s.SamePdus ((s.countPoll n).restartPoll p) := fun n p =>
    (samePdus_countPoll s n).trans (samePdus_restartPoll _ p)
  unfold buildSegment
  dsimp only
  split
  · exact hpoll _ _
  · exact (hpoll _ _).trans (samePdus_retxQueue _ _)

theorem samePdus_buildRetxPdu (s : Tx) (nofBytes : ℕ) : s.SamePdus (s.buildRetxPdu nofBytes).1 := by
  unfold buildRetxPdu
  generalize ht : (if s.retxQueue.isEmpty then s else s.dropMissing) = t
  have hdrop : s.SamePdus t := by
    rw [← ht]
    split
    · exact SamePdus.refl s
    · exact samePdus_dropMissing s
  refine hdrop.trans ?_
  dsimp only
  split
  · exact SamePdus.refl t
  split
  · exact samePdus_retxQueue t _
  split
  · exact samePdus_retxQueue t _
  · split
    · exact samePdus_buildSegment t nofBytes _ _
    · exact ((samePdus_countPoll t _).trans (samePdus_restartPoll _ _)).trans
        (samePdus_retxQueue _ _)

theorem samePdus_dropInvalidRetx (s : Tx) : s.SamePdus s.dropInvalidRetx := by
  unfold dropInvalidRetx
  split
  · exact SamePdus.refl s
  split
  · exact SamePdus.refl s
  · split
    · exact samePdus_retxQueue s _
    · exact SamePdus.refl s

theorem samePdus_buildStatusPdu (s : Tx) (rx : RxView) (nofBytes : ℕ) :
    s.SamePdus (s.buildStatusPdu rx nofBytes).1 := by
  unfold buildStatusPdu
  split
  · split
    · exact { SamePdus.refl s with }
    · exact SamePdus.refl s
  · exact SamePdus.refl s

theorem samePdus_timerExpired (s : Tx) (timer : TxTimer) : s.SamePdus (s.timerExpired timer) := by
  have hexpired : ∀ t : Tx, s.SamePdus t →
      s.SamePdus (if t.cfg.bsrCallback then t.dropInvalidRetx else t) := by
    intro t ht
    split
    · exact ht.trans (samePdus_dropInvalidRetx t)
    · exact ht
  apply hexpired
  cases timer with
  | pollRetx =>
    have hpoll : s.SamePdus { s with pollRetxTimer := .expired } :=
      { SamePdus.refl s with }
    dsimp only
    split
    · exact hpoll.trans (samePdus_retransmitPdu _ _)
    · exact hpoll
  | statusProhibit =>
    exact { SamePdus.refl s with }

/-! ## New data PDUs -/

variable {nofBytes : ℕ} {f : Fill}

theorem AdmissionSound.outstanding_lt (hs : s.AdmissionSound)
    (hrefuses : s.refusesData nofBytes = false) : s.outstanding < windowSize := by
  rcases hs with hlt | ⟨hnone, hempty | hfull⟩
  · exact hlt
  · exact absurd hrefuses (by simp [refusesData, hnone, hempty])
  · exact absurd hrefuses (by simp [refusesData, hnone, hfull])

theorem WindowInv.slot_ne (hs : s.WindowInv) (hlt : s.outstanding < windowSize) {sn : ℕ}
    (hsn : s.txWindow.contains sn) : sn % windowSize ≠ s.vtS % windowSize := by
  intro hslot
  obtain ⟨hsnlt, hdist⟩ := hs.mem_window hsn
  have hsame : sn = s.vtS :=
    eq_of_seqDist_lt_of_mod_eq hs.vtA_lt hsnlt hs.vtS_lt (hdist.trans hlt) hlt hslot
  rw [hsame] at hdist
  exact lt_irrefl _ hdist

theorem contains_addPdu (s : Tx) (sn other : ℕ) : (s.addPdu sn).txWindow.contains other ↔
      other = sn ∨ other % windowSize ≠ sn % windowSize ∧ s.txWindow.contains other :=
  contains_overwrite other

/-- The end of `build_data_pdu` moves the send state, stores what was filled in under the old one,
and keeps the rest of the window and the retransmissions. -/
structure Finished (s : Tx) (f : Fill) (t : Tx) : Prop where
  txEnabled : t.txEnabled = s.txEnabled
  vtA : t.vtA = s.vtA
  vtS : t.vtS = seqSucc snMod s.vtS
  txSdu : t.txSdu = f.txSdu
  txSduQueue : t.txSduQueue = f.txSduQueue
  tracking : t.tracking = f.tracking
  retxQueue : t.retxQueue = s.retxQueue
  notifyInfoVec : t.notifyInfoVec = s.notifyInfoVec
  txWindow : ∃ header : AmdHeader, header.li = f.li ∧ t.txWindow =
    s.txWindow.modify s.vtS fun pdu => { pdu with header := header, buf := f.data, list := f.list }

theorem finished_finishData (s : Tx) (startedSdu : Bool) (f : Fill) :
    Finished s f (s.finishData startedSdu f).1 := by
  unfold finishData
  dsimp only
  generalize pollRequired _ = p
  cases p with
  | true | false => exact ⟨rfl, rfl, rfl, rfl, rfl, rfl, rfl, rfl, ⟨_, rfl, rfl⟩⟩

theorem Finished.contains (h : Finished s f t) (sn : ℕ) :
    t.txWindow.contains sn = s.txWindow.contains sn := by
  obtain ⟨header, -, hwindow⟩ := h.txWindow
  rw [hwindow, contains_modify]

theorem Finished.get? (h : Finished (s.addPdu s.vtS) f t) :
    ∃ header : AmdHeader, header.li = f.li ∧ ∀ sn, t.txWindow.get? sn =
      if sn = s.vtS then
        some { rlcSn := s.vtS, header := header, buf := f.data, list := f.list }
      else if sn % windowSize = s.vtS % windowSize then none
      else s.txWindow.get? sn := by
  obtain ⟨header, hli, hwindow⟩ := h.txWindow
  refine ⟨header, hli, fun sn => ?_⟩
  have hadd : (s.addPdu s.vtS).txWindow = s.txWindow.overwrite s.vtS { rlcSn := s.vtS } := rfl
  have hvtS : (s.addPdu s.vtS).vtS = s.vtS := rfl
  rw [hwindow, hvtS, hadd, get?_modify, get?_overwrite_self,
    get?_overwrite]
  split
  · rfl
  · rfl

theorem get?_abortData (s : Tx) (f : Fill) (sn : ℕ) :
    ((s.addPdu s.vtS).abortData f).txWindow.get? sn =
      if sn % windowSize = s.vtS % windowSize then none else s.txWindow.get? sn := by
  change ((s.txWindow.overwrite s.vtS { rlcSn := s.vtS }).erase s.vtS).get? sn = _
  rw [get?_erase, get?_overwrite]
  by_cases hsn : sn = s.vtS
  · simp [hsn]
  · simp [hsn]

/-- `build_data_pdu` when it does not refuse: the PDU is filled and sent, or the segment resources
are used up before its first byte and it is removed. -/
theorem buildDataPdu_cases (hrefuses : s.refusesData nofBytes = false) :
    (∃ f, Fill.pull s.vtS s.txSduQueue.length ((s.addPdu s.vtS).fillInit nofBytes) = .ok f ∧
        s.buildDataPdu nofBytes = (s.addPdu s.vtS).finishData s.txSdu.isSome f) ∨
      ∃ f, Fill.pull s.vtS s.txSduQueue.length ((s.addPdu s.vtS).fillInit nofBytes) = .error f ∧
        s.buildDataPdu nofBytes = ((s.addPdu s.vtS).abortData f, none) := by
  unfold buildDataPdu
  simp only [hrefuses, Bool.false_eq_true, if_false]
  cases Fill.pull s.vtS s.txSduQueue.length ((s.addPdu s.vtS).fillInit nofBytes) with
  | ok f => simp
  | error f => simp

/-- The window after `build_data_pdu` that does not refuse: the next sequence number is added, or,
when the resources are used up at once, added and removed. -/
theorem buildDataPdu_window (hrefuses : s.refusesData nofBytes = false) :
    (s.buildDataPdu nofBytes).1.vtA = s.vtA ∧
      ((s.buildDataPdu nofBytes).1.vtS = seqSucc snMod s.vtS ∧
          (∀ sn, (s.buildDataPdu nofBytes).1.txWindow.contains sn =
            (s.addPdu s.vtS).txWindow.contains sn) ∨
        (s.buildDataPdu nofBytes).1.vtS = s.vtS ∧
          ∀ sn, (s.buildDataPdu nofBytes).1.txWindow.contains sn ↔
            sn ≠ s.vtS ∧ (s.addPdu s.vtS).txWindow.contains sn) := by
  rcases buildDataPdu_cases hrefuses with ⟨f, -, hbuild⟩ | ⟨f, -, hbuild⟩
  · have hfinished := finished_finishData (s.addPdu s.vtS) s.txSdu.isSome f
    rw [hbuild]
    exact ⟨hfinished.vtA, .inl ⟨hfinished.vtS, hfinished.contains⟩⟩
  · rw [hbuild]
    refine ⟨rfl, .inr ⟨rfl, fun sn => ?_⟩⟩
    exact contains_erase sn

theorem pull_one {sdu : Sdu} (sn : ℕ) (hqueue : f.txSduQueue = [some sdu])
    (hli : f.li = []) (hlast : f.lastLi = 0) (hhead : f.headLen = packedLengthOf false 0)
    (hspace : packedLengthOf false 0 < f.pduSpace) (hsegments : f.tracking.hasSegments) :
    Fill.pull sn 1 f = .ok (Fill.addSdu { f with txSduQueue := [] } sn sdu) := by
  have hgoes : f.headLen < f.pduSpace ∧ 0 < nSdus f.txSduQueue ∧ f.li.length < maxSdusPerPdu := by
    refine ⟨by omega, ?_, by simp [hli, maxSdusPerPdu]⟩
    simp [hqueue, nSdus]
  have hroom := Nat.not_le.mpr hspace
  rw [Fill.pull, if_pos hgoes, if_pos hsegments]
  simp only [hli, hlast, hqueue, lt_irrefl, if_false, List.length_nil, hroom, readQueue, Fill.pull]
  rw [← hli, ← hhead]

/-- `build_data_pdu` for the only SDU of the queue. -/
theorem buildDataPdu_firstSdu {sdu : Sdu} (hsdu : s.txSdu = none)
    (hqueue : s.txSduQueue = [some sdu]) (hbytes : minDataPduSize ≤ nofBytes)
    (hrefuses : s.refusesData nofBytes = false)
    (hsegments : (s.addPdu s.vtS).tracking.hasSegments) :
    s.buildDataPdu nofBytes = (s.addPdu s.vtS).finishData s.txSdu.isSome
      (Fill.addSdu { (s.addPdu s.vtS).fillEmpty nofBytes with txSduQueue := [] } s.vtS sdu) := by
  have hspace : 2 < min nofBytes (tailroom 0) := by
    have htail : 3 ≤ tailroom 0 := by decide
    rw [minDataPduSize] at hbytes
    omega
  have hpull : Fill.pull s.vtS s.txSduQueue.length ((s.addPdu s.vtS).fillInit nofBytes) =
      .ok (Fill.addSdu { (s.addPdu s.vtS).fillEmpty nofBytes with txSduQueue := [] }
        s.vtS sdu) := by
    have hinit : (s.addPdu s.vtS).fillInit nofBytes = (s.addPdu s.vtS).fillEmpty nofBytes := by
      have hnone : (s.addPdu s.vtS).txSdu = none := hsdu
      rw [fillInit, hnone]
    rw [hinit, hqueue]
    exact pull_one s.vtS hqueue rfl rfl rfl hspace hsegments
  simp [Tx.buildDataPdu, hrefuses, hpull]

/-- The window of `t` is that of `s` after more PDUs: what is stored stays. -/
structure WindowGrows (s t : Tx) : Prop where
  inv : t.WindowInv
  vtA : t.vtA = s.vtA
  le : s.outstanding ≤ t.outstanding
  contains : ∀ {sn}, s.txWindow.contains sn = true → t.txWindow.contains sn = true

theorem windowGrows_of_same (hs : s.WindowInv) (hvtA : t.vtA = s.vtA) (hvtS : t.vtS = s.vtS)
    (hcontains : ∀ sn, t.txWindow.contains sn ↔ s.txWindow.contains sn) :
    s.WindowGrows t := by
  have hout : t.outstanding = s.outstanding := by rw [outstanding, hvtA, hvtS, outstanding]
  refine ⟨⟨?_, ?_, ?_, ?_⟩, hvtA, hout.ge, fun {sn} hsn => (hcontains sn).mpr hsn⟩
  · rw [hvtA]
    exact hs.vtA_lt
  · rw [hvtS]
    exact hs.vtS_lt
  · rw [hout]
    exact hs.outstanding_le
  · intro sn hsn
    rw [hvtA, hout]
    exact hs.mem_window ((hcontains sn).mp hsn)

theorem SameWindow.windowGrows (h : s.SameWindow t) (hs : s.WindowInv) : s.WindowGrows t :=
  windowGrows_of_same hs h.vtA h.vtS fun sn => by rw [h.contains]

theorem windowGrows_of_sent (hs : s.WindowInv) (hlt : s.outstanding < windowSize)
    (hvtA : t.vtA = s.vtA) (hvtS : t.vtS = seqSucc snMod s.vtS)
    (hcontains : ∀ sn, t.txWindow.contains sn ↔
      sn = s.vtS ∨ s.txWindow.contains sn) : s.WindowGrows t := by
  have hround : s.outstanding + 1 < snMod := by
    have hsize : windowSize + 1 < snMod := by decide
    omega
  have hout : t.outstanding = s.outstanding + 1 := by
    rw [outstanding, hvtA, hvtS]
    exact seqDist_seqSucc hs.vtA_lt hs.vtS_lt hround
  refine ⟨⟨?_, ?_, ?_, ?_⟩, hvtA, ?_, fun {sn} hsn => (hcontains sn).mpr (.inr hsn)⟩
  · rw [hvtA]
    exact hs.vtA_lt
  · rw [hvtS]
    exact seqSucc_lt (by decide)
  · omega
  · intro sn hsn
    rw [hvtA, hout]
    rcases (hcontains sn).mp hsn with rfl | hsn
    · exact ⟨hs.vtS_lt, Nat.lt_succ_self _⟩
    · obtain ⟨hsnlt, hdist⟩ := hs.mem_window hsn
      omega
  · omega

theorem WindowGrows.trans (hst : s.WindowGrows t) (htu : t.WindowGrows u) : s.WindowGrows u where
  inv := htu.inv
  vtA := htu.vtA.trans hst.vtA
  le := hst.le.trans htu.le
  contains hsn := htu.contains (hst.contains hsn)

theorem WindowInv.contains_addPdu_iff (hs : s.WindowInv) (hlt : s.outstanding < windowSize)
    (sn : ℕ) : (s.addPdu s.vtS).txWindow.contains sn ↔ sn = s.vtS ∨ s.txWindow.contains sn := by
  rw [contains_addPdu]
  constructor
  · rintro (rfl | ⟨-, h⟩)
    · omega
    · exact .inr h
  · rintro (rfl | h)
    · omega
    · exact .inr ⟨hs.slot_ne hlt h, h⟩

theorem buildDataPdu_of_refuses {nofBytes : ℕ} (h : s.refusesData nofBytes) :
    (s.buildDataPdu nofBytes).1 = s := by
  simp [buildDataPdu, h]

theorem windowGrows_buildDataPdu (hs : s.WindowInv) (hsound : s.AdmissionSound) (nofBytes : ℕ) :
    s.WindowGrows (s.buildDataPdu nofBytes).1 := by
  cases hrefuses : s.refusesData nofBytes with
  | true =>
    rw [buildDataPdu_of_refuses hrefuses]
    exact (SameWindow.refl s).windowGrows hs
  | false =>
    have hlt : s.outstanding < windowSize := hsound.outstanding_lt hrefuses
    obtain ⟨hvtA, ⟨hvtS, hcontains⟩ | ⟨hvtS, hcontains⟩⟩ := buildDataPdu_window hrefuses
    · refine windowGrows_of_sent hs hlt hvtA hvtS fun sn => ?_
      rw [hcontains]
      exact hs.contains_addPdu_iff hlt sn
    -- the PDU was removed again
    refine windowGrows_of_same hs hvtA hvtS fun sn => ?_
    rw [hcontains, hs.contains_addPdu_iff hlt]
    constructor
    · rintro ⟨hne, heq | h⟩
      · omega
      · exact h
    · intro h
      refine ⟨?_, .inr h⟩
      rintro rfl
      exact hs.slot_ne hlt h rfl

/-- A grant adds a PDU to the window: it is not used for a status PDU or a retransmission, and
`build_data_pdu` does not refuse. -/
def addsPdu (s : Tx) (rx : RxView) (nofBytes : ℕ) : Bool :=
  s.txEnabled && !(rx.doStatus && s.statusProhibitTimer != .running) &&
    (let t :=
      if decide (windowSize ≤ s.txWindow.count) && s.retxQueue.isEmpty then s.retransmitPdu s.vtA
      else s
     t.retxQueue.isEmpty || (t.buildRetxPdu nofBytes).2.isNone) &&
    !s.refusesData nofBytes

theorem SameWindow.refusesData (h : s.SameWindow t) (nofBytes : ℕ) :
    t.refusesData nofBytes = s.refusesData nofBytes := by
  simp only [Tx.refusesData, h.txSdu, h.txSduQueue, h.count, h.tracking]

/-- A grant leaves the PDUs alone, or `build_data_pdu` adds one. -/
theorem readPdu_cases (s : Tx) (rx : RxView) (nofBytes : ℕ) :
    s.addsPdu rx nofBytes = false ∧ s.SamePdus (s.readPdu rx nofBytes).1 ∨
      s.addsPdu rx nofBytes ∧ ∃ u, s.SamePdus u ∧ u.refusesData nofBytes = false ∧
        (s.readPdu rx nofBytes).1 = (u.buildDataPdu nofBytes).1 := by
  unfold readPdu addsPdu
  cases henabled : s.txEnabled with
  | false => exact .inl ⟨rfl, SamePdus.refl s⟩
  | true =>
    cases hstatus : rx.doStatus && s.statusProhibitTimer != .running with
    | true => exact .inl ⟨rfl, samePdus_buildStatusPdu s rx nofBytes⟩
    | false =>
      unfold readData
      simp only [Bool.not_true, Bool.false_eq_true, if_false, Bool.not_false, Bool.true_and]
      generalize ht : (if decide (windowSize ≤ s.txWindow.count) && s.retxQueue.isEmpty then
        s.retransmitPdu s.vtA else s) = t
      have hretx : s.SamePdus t := by
        rw [← ht]
        split
        · exact samePdus_retransmitPdu s _
        · exact SamePdus.refl s
      have hdata : ∀ u : Tx, s.SamePdus u →
          (!s.refusesData nofBytes) = false ∧ s.SamePdus (u.buildDataPdu nofBytes).1 ∨
            (!s.refusesData nofBytes) ∧ ∃ v, s.SamePdus v ∧
              v.refusesData nofBytes = false ∧
              (u.buildDataPdu nofBytes).1 = (v.buildDataPdu nofBytes).1 := by
        intro u hu
        have hrefuses := hu.refusesData nofBytes
        cases hs : s.refusesData nofBytes with
        | true =>
          have hsame : (u.buildDataPdu nofBytes).1 = u := by
            simp [buildDataPdu, hrefuses, hs]
          rw [hsame]
          exact .inl ⟨rfl, hu⟩
        | false => exact .inr ⟨rfl, u, hu, hrefuses.trans hs, rfl⟩
      have hbuild := samePdus_buildRetxPdu t nofBytes
      cases hempty : t.retxQueue.isEmpty with
      | true =>
        exact hdata t hretx
      | false =>
        generalize hresult : t.buildRetxPdu nofBytes = result at hbuild ⊢
        obtain ⟨u, pdu⟩ := result
        cases pdu with
        | some pdu => exact .inl ⟨rfl, hretx.trans hbuild⟩
        | none =>
          exact hdata u (hretx.trans hbuild)

theorem windowGrows_readPdu (hs : s.WindowInv) (hsound : s.AdmissionSound) (rx : RxView)
    (nofBytes : ℕ) : s.WindowGrows (s.readPdu rx nofBytes).1 := by
  rcases readPdu_cases s rx nofBytes with ⟨-, hsame⟩ | ⟨-, u, hsame, -, hread⟩
  · exact hsame.windowGrows hs
  · have hgrows : s.WindowGrows u := hsame.windowGrows hs
    rw [hread]
    exact hgrows.trans (windowGrows_buildDataPdu hgrows.inv (hsame.admissionSound hsound) nofBytes)

/-! ## SDUs and timers -/

theorem windowGrows_writeSdu (hs : s.WindowInv) (sdu : Sdu) : s.WindowGrows (s.writeSdu sdu) := by
  unfold writeSdu
  split
  · exact windowGrows_of_same hs rfl rfl fun _ => Iff.rfl
  · exact (SameWindow.refl s).windowGrows hs

theorem windowGrows_discardSdu (hs : s.WindowInv) (discardSn : ℕ) :
    s.WindowGrows (s.discardSdu discardSn) := by
  unfold discardSdu
  split
  · exact windowGrows_of_same hs rfl rfl fun _ => Iff.rfl
  · exact (SameWindow.refl s).windowGrows hs

end Tx

end MbmsTx.Rlc.Am
