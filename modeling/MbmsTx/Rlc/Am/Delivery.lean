import MbmsTx.Rlc.Am.AckInfo
import MbmsTx.Rlc.Am.TxLifecycle

/-!
# Delivery notifications

PDCP is told about an SDU when all of it was transmitted and all RLC PDUs that carried a part of it
are acknowledged. The transmitter finds this out from the segment lists of the RLC PDUs and of the
SDUs, and a flag for the SDUs that were fully transmitted.

What should be told is recorded from the SDUs and PDUs alone (`Delivery`): which unacknowledged RLC
PDUs carried a part of an SDU, whether its last part was transmitted, and how often it was notified.
In every run in which the outstanding SDUs have different SNs below 4096 and no PDU of the window is
overwritten, the two agree.
-/

namespace MbmsTx.Rlc.Am

open MbmsTx.Transition List Option Function SegmentTracking
open Function (update)

/-! ## What should be notified -/

/-- What happened to the SDU with a PDCP SN since it was written: the unacknowledged RLC PDUs that
carried a part of it, whether its last part was transmitted, and how often it was put into the
notification vector. -/
structure Delivery where
  written : Bool := false
  unacked : List ℕ := []
  complete : Bool := false
  notified : ℕ := 0
deriving DecidableEq

namespace Delivery

/-- All of the SDU was transmitted, and every RLC PDU with a part of it is acknowledged. -/
def Acked (d : Delivery) : Prop := d.complete = true ∧ d.unacked = []

instance (d : Delivery) : Decidable d.Acked := inferInstanceAs (Decidable (_ ∧ _))

/-- The SDU was written and is not acknowledged. -/
def Outstanding (d : Delivery) : Prop := d.written = true ∧ ¬ d.Acked

instance (d : Delivery) : Decidable d.Outstanding := inferInstanceAs (Decidable (_ ∧ _))

/-- The RLC PDU `rlcSn` carries a part of the SDU. -/
def carry (rlcSn : ℕ) (sdus : ℕ → Delivery) (part : Tx.Part) : ℕ → Delivery :=
  update sdus part.pdcpSn
    { sdus part.pdcpSn with
        unacked := rlcSn :: (sdus part.pdcpSn).unacked
        complete := (sdus part.pdcpSn).complete || part.last }

/-- The RLC PDU `rlcSn` is acknowledged. -/
def ack (rlcSn : ℕ) (sdus : ℕ → Delivery) (sn : ℕ) : Delivery :=
  { sdus sn with unacked := (sdus sn).unacked.filter (· ≠ rlcSn) }

/-- The SNs `sns` are put into the notification vector. -/
def notify (sns : List ℕ) (sdus : ℕ → Delivery) (sn : ℕ) : Delivery :=
  { sdus sn with notified := (sdus sn).notified + sns.count sn }

end Delivery

/-- The parts of SDUs in the PDU of `build_data_pdu`. -/
def Tx.dataParts (s : Tx) (nofBytes : ℕ) : List Tx.Part :=
  let t := s.addPdu s.vtS
  (match s.txSdu with
    | some sdu => [(t.fillEmpty nofBytes).part sdu]
    | none => []) ++
  Fill.pullParts s.vtS s.txSduQueue.length (t.fillInit nofBytes)

/-- The transmitter with a record of its SDUs, and whether the vector was ever full. -/
structure DeliveryState where
  st : TxState
  sdus : ℕ → Delivery := fun _ => {}
  full : Bool := false

/-- The record after an event that leads to `tx`, but for the notifications: an accepted SDU is
recorded anew, one discarded in the queue is forgotten, a new PDU carries its parts, and an
acknowledged PDU is removed. -/
def DeliveryState.record (g : DeliveryState) (tx : Tx) : TxAction → ℕ → Delivery
  | .writeSdu sdu =>
    if tx.txSduQueue.length = g.st.tx.txSduQueue.length then g.sdus
    else update g.sdus sdu.pdcpSn { written := true }
  | .discardSdu discardSn =>
    if g.st.tx.txEnabled = true ∧ discardSn ∈ (Tx.waiting g.st.tx.txSduQueue).map Sdu.pdcpSn then
      update g.sdus discardSn {}
    else g.sdus
  | .readPdu _ nofBytes =>
    if tx.vtS = g.st.tx.vtS then g.sdus
    else (g.st.tx.dataParts nofBytes).foldl (Delivery.carry g.st.tx.vtS) g.sdus
  | .controlStep =>
    match g.st.control with
    | some { i := i, phase := .nacks [] false, .. } => Delivery.ack i g.sdus
    | _ => g.sdus
  | .timerExpired _ => g.sdus
  | .controlPdu _ => g.sdus

/-- The state after an event, with its notifications. -/
def DeliveryState.step (g : DeliveryState) (a : TxAction) : Option DeliveryState :=
  (g.st.step a).map fun st =>
    { st := st
      sdus := Delivery.notify (st.tx.notifyInfoVec.drop g.st.tx.notifyInfoVec.length)
        (g.record st.tx a)
      full := g.full || decide (Tx.maxSdusToNotify ≤ st.tx.notifyInfoVec.length) }

/-- The runs of a transmitter with the record of its SDUs. -/
def deliverySystem : System DeliveryState TxAction where
  Init g := ∃ cfg, g = { st := { tx := { cfg := cfg } } }
  step := DeliveryState.step

/-- The condition on a run: outstanding SDUs have different SNs below 4096, and a grant that adds a
PDU finds its slot free. -/
def DeliveryState.Regular (g : DeliveryState) : TxAction → Prop
  | .writeSdu sdu => sdu.pdcpSn < pdcpBufferSize ∧ ¬ (g.sdus sdu.pdcpSn).Outstanding
  | .readPdu rx nofBytes =>
    g.st.tx.addsPdu rx nofBytes = true → g.st.tx.txWindow.hasSpace g.st.tx.vtS = true
  | _ => True

instance (g : DeliveryState) : (a : TxAction) → Decidable (g.Regular a)
  | .writeSdu _ => inferInstanceAs (Decidable (_ ∧ _))
  | .readPdu _ _ => inferInstanceAs (Decidable (_ → _))
  | .discardSdu _ | .timerExpired _ | .controlPdu _ | .controlStep => isTrue trivial

/-! ## The invariant -/

/-- What the transmitter knows of an SDU: whether it has its place in the list, whether it was fully
transmitted, and the RLC PDUs of its segments. -/
structure Place where
  placed : Bool
  fullyTxed : Bool
  rlcSns : List (Option ℕ)

def SegmentTracking.place (t : SegmentTracking) (sn : ℕ) : Place where
  placed := (t.pdus (some sn)).sn.isSome
  fullyTxed := (t.pdus (some sn)).fullyTxed
  rlcSns := (t.pdus (some sn)).list.map t.rlcSn

/-- What the transmitter knows of an SDU is what is recorded. An SDU with its place in the list is
not fully acknowledged; its segments are those of the unacknowledged PDUs that carry it. A segment
without RLC PDU stays behind when a PDU could not be built; its SDU is not complete. -/
structure Entry (p : Place) (d : Delivery) : Prop where
  unacked : ∀ rlcSn, rlcSn ∈ d.unacked ↔ some rlcSn ∈ p.rlcSns
  fresh : p.placed = false → p.fullyTxed = false ∧ p.rlcSns = []
  written : p.placed = true → d.written = true ∧ d.notified = 0
  complete : p.placed = true → d.complete = true → p.fullyTxed = true ∧ none ∉ p.rlcSns
  fullyTxed : p.fullyTxed = true → p.rlcSns ≠ [] ∧ (d.complete = true ∨ none ∈ p.rlcSns)

/-- The SDU that waits is recorded and has no place in the list yet. -/
structure Waits (t : SegmentTracking) (sdus : ℕ → Delivery) (sdu : Sdu) : Prop where
  small : sdu.pdcpSn < pdcpBufferSize
  unplaced : (t.place sdu.pdcpSn).placed = false
  record : sdus sdu.pdcpSn = { written := true }

/-- Something is left of the SDU that is being sent, and its segments are in RLC PDUs. -/
structure InTransmission (t : SegmentTracking) (sdus : ℕ → Delivery) (sdu : Sdu) : Prop where
  small : sdu.pdcpSn < pdcpBufferSize
  msg : sdu.msg ≠ []
  placed : (t.place sdu.pdcpSn).placed = true
  unfinished : (t.place sdu.pdcpSn).fullyTxed = false
  record : (sdus sdu.pdcpSn).complete = false
  attached : none ∉ (t.place sdu.pdcpSn).rlcSns

/-- The record agrees with the transmitter. -/
structure Ledger (t : SegmentTracking) (txSdu : Option Sdu) (queue : List (Option Sdu))
    (sdus : ℕ → Delivery) : Prop where
  plain : t.Plain
  small : ∀ {i sn}, (t.pdus i).sn = some sn → sn < pdcpBufferSize
  entry : ∀ sn, Entry (t.place sn) (sdus sn)
  waits : ∀ sdu ∈ Tx.waiting queue, Waits t sdus sdu
  distinct : ((Tx.waiting queue).map Sdu.pdcpSn).Nodup
  current : ∀ sdu, txSdu = some sdu → InTransmission t sdus sdu

section

variable {t u : SegmentTracking} {lists : ℕ → List ℕ} {sdus : ℕ → Delivery} {txSdu : Option Sdu}
  {queue : List (Option Sdu)} {sdu : Sdu}

variable {sn : ℕ}

theorem pduIndex_of_small (h : sn < pdcpBufferSize) : pduIndex sn = some sn := by
  have hne : sn ≠ statusReportSn := by
    have hlarge : pdcpBufferSize < statusReportSn := by decide
    omega
  rw [pduIndex, if_neg hne]
  exact congrArg some (Nat.mod_eq_of_lt h)

/-! ## Carrying a part -/

theorem Entry.carry {p : Place} {d : Delivery} (h : Entry p d) (hwritten : d.written)
    (hnotified : d.notified = 0) (hcomplete : d.complete = false)
    (hunfinished : p.fullyTxed = false) (hattached : none ∉ p.rlcSns) (rlcSn : ℕ) (last : Bool) :
    Entry ⟨true, p.fullyTxed || last, some rlcSn :: p.rlcSns⟩
      { d with unacked := rlcSn :: d.unacked, complete := d.complete || last } := by
  refine ⟨fun w => by simp [h.unacked w], by simp, fun _ => ⟨hwritten, hnotified⟩,
    fun _ hlast => ?_, fun hlast => ⟨by simp, .inl ?_⟩⟩
  · rw [hcomplete] at hlast
    rw [hunfinished]
    exact ⟨hlast, by simp [hattached]⟩
  · rw [hunfinished] at hlast
    rw [hcomplete]
    exact hlast

theorem entry_of_fresh {p : Place} {d : Delivery} (hplaced : p.placed = false)
    (hfresh : p.fullyTxed = false ∧ p.rlcSns = []) (hd : d.unacked = []) : Entry p d :=
  ⟨by simp [hd, hfresh.2], fun _ => hfresh, by simp [hplaced], by simp [hplaced],
    by simp [hfresh.1]⟩

/-- The RLC PDU `rlcSn`, of which nothing is recorded in `d`, is taken back: its segments stay
without RLC PDU. -/
theorem Entry.takeBack {p : Place} {d d' : Delivery} {rlcSn : ℕ} {carried last : Prop}
    (h : Entry p d') (hwritten : d'.written = d.written)
    (hnotified : d'.notified = d.notified)
    (hunacked : ∀ w, w ∈ d'.unacked ↔ w ∈ d.unacked ∨ w = rlcSn ∧ carried)
    (hcomplete : d'.complete ↔ d.complete ∨ last) (hlast : last → carried)
    (hopen : carried → d.complete = false) (hnew : rlcSn ∉ d.unacked) :
    Entry { p with rlcSns := p.rlcSns.map fun r => if r = some rlcSn then none else r } d := by
  have hsome : ∀ w, some w ∈ p.rlcSns.map (fun r => if r = some rlcSn then none else r) ↔
      some w ∈ p.rlcSns ∧ w ≠ rlcSn := by
    intro w
    simp only [List.mem_map, ite_eq_iff, reduceCtorEq, and_false, false_or]
    constructor
    · rintro ⟨r, hr, hne, rfl⟩
      exact ⟨hr, fun heq => hne (congrArg some heq)⟩
    · rintro ⟨hw, hne⟩
      exact ⟨some w, hw, fun heq => hne (some.inj heq), rfl⟩
  have hnone : none ∈ p.rlcSns.map (fun r => if r = some rlcSn then none else r) ↔
      none ∈ p.rlcSns ∨ some rlcSn ∈ p.rlcSns := by
    simp only [List.mem_map]
    constructor
    · rintro ⟨r, hr, heq⟩
      split at heq
      · next h => exact .inr (h ▸ hr)
      · exact .inl (heq ▸ hr)
    · rintro (hr | hr)
      · exact ⟨none, hr, rfl⟩
      · exact ⟨some rlcSn, hr, if_pos rfl⟩
  refine ⟨fun w => ?_, fun hp => ⟨(h.fresh hp).1, by simp [(h.fresh hp).2]⟩, ?_,
    fun hp hd => ?_, fun htxed => ?_⟩
  · rw [hsome, ← h.unacked, hunacked]
    constructor
    · intro hw
      exact ⟨.inl hw, fun heq => hnew (heq ▸ hw)⟩
    · rintro ⟨hw | ⟨heq, -⟩, hne⟩
      · exact hw
      · exact absurd heq hne
  · rw [← hwritten, ← hnotified]
    exact h.written
  · obtain ⟨htxed, hattached⟩ := h.complete hp (hcomplete.mpr (.inl hd))
    refine ⟨htxed, fun hmem => ?_⟩
    rcases hnone.mp hmem with hwas | hin
    · exact hattached hwas
    · rcases (hunacked rlcSn).mp ((h.unacked rlcSn).mpr hin) with hold | ⟨-, hcarried⟩
      · exact hnew hold
      · exact absurd hd (by simp [hopen hcarried])
  · obtain ⟨hne, hcases⟩ := h.fullyTxed htxed
    rw [hnone]
    refine ⟨by simpa using hne, ?_⟩
    rcases hcases with hdone | hdetached
    · rcases hcomplete.mp hdone with hold | hl
      · exact .inl hold
      · have hcarried := (hunacked rlcSn).mpr (.inr ⟨rfl, hlast hl⟩)
        exact .inr (.inr ((h.unacked rlcSn).mp hcarried))
    · exact .inr (.inl hdetached)

/-- The places after a new segment of the SDU `sn` in the RLC PDU `rlcSn`. -/
theorem SegmentTracking.Segmented.place {rlcSn : ℕ} {last : Bool}
    (ht : t.Segmented rlcSn sn last u) (hpool : t.PoolInv lists) (hsn : sn < pdcpBufferSize)
    (other : ℕ) : u.place other =
      if other = sn then ⟨true, (t.place sn).fullyTxed || last, some rlcSn :: (t.place sn).rlcSns⟩
      else t.place other := by
  obtain ⟨id, -, hid, hrlc, hpdus⟩ := ht
  rw [pduIndex_of_small hsn] at hpdus
  have hkept : ∀ i, (t.pdus i).list.map u.rlcSn = (t.pdus i).list.map t.rlcSn := by
    intro i
    refine map_congr_left fun other hother => ?_
    rw [hrlc, if_neg]
    rintro rfl
    obtain ⟨sn, hsn, -⟩ := hpool.mem_pdus.mp hother
    exact absurd (hid.symm.trans hsn) (by simp)
  unfold SegmentTracking.place
  rw [hpdus]
  by_cases heq : other = sn
  · simp [heq, hkept, hrlc]
  · simp [heq, hkept]

/-- The record after a part of the first SDU of the queue, or of the one being sent, was put into
the RLC PDU `rlcSn`. -/
theorem Ledger.segmented {rlcSn : ℕ} {last : Bool} {rest : Option Sdu} {queue' : List (Option Sdu)}
    (h : Ledger t txSdu queue sdus) (hpool : t.PoolInv lists) (ht : t.Segmented rlcSn sn last u)
    (hwritten : (sdus sn).written) (hnotified : (sdus sn).notified = 0)
    (hcomplete : (sdus sn).complete = false) (hunfinished : (t.place sn).fullyTxed = false)
    (hattached : none ∉ (t.place sn).rlcSns) (hsn : sn < pdcpBufferSize)
    (hrest : ∀ sdu', rest = some sdu' → sdu'.pdcpSn = sn ∧ sdu'.msg ≠ [] ∧ last = false)
    (hqueue : ∀ sdu' ∈ Tx.waiting queue', sdu' ∈ Tx.waiting queue ∧ sdu'.pdcpSn ≠ sn)
    (hdistinct : ((Tx.waiting queue').map Sdu.pdcpSn).Nodup) :
    Ledger u rest queue' (Delivery.carry rlcSn sdus ⟨sn, last⟩) := by
  have hplace := ht.place hpool hsn
  have hself := hplace sn
  rw [if_pos rfl] at hself
  obtain ⟨id, -, -, -, hpdus⟩ := ht
  rw [pduIndex_of_small hsn] at hpdus
  have hsnInfo : ∀ {i sn'}, (u.pdus i).sn = some sn' →
      i = some sn ∧ sn' = sn ∨ (t.pdus i).sn = some sn' := by
    intro i sn' hi
    rw [hpdus] at hi
    split at hi
    · next heq => exact .inl ⟨heq, (some.inj hi).symm⟩
    · exact .inr hi
  refine ⟨fun {i sn'} hi => ?_, fun {i sn'} hi => ?_, fun other => ?_, fun sdu' hsdu' => ?_,
    hdistinct, fun sdu' hsdu' => ?_⟩
  · rcases hsnInfo hi with ⟨rfl, rfl⟩ | hold
    · rfl
    · exact h.plain hold
  · rcases hsnInfo hi with ⟨-, rfl⟩ | hold
    · exact hsn
    · exact h.small hold
  · by_cases heq : other = sn
    · rw [heq, hself, Delivery.carry, update_self]
      exact (h.entry sn).carry hwritten hnotified hcomplete hunfinished hattached rlcSn last
    · rw [hplace, if_neg heq, Delivery.carry, update_of_ne heq]
      exact h.entry other
  · obtain ⟨hmem, hne⟩ := hqueue sdu' hsdu'
    have hwaits := h.waits sdu' hmem
    refine ⟨hwaits.small, ?_, ?_⟩
    · rw [hplace, if_neg hne]
      exact hwaits.unplaced
    · rw [Delivery.carry, update_of_ne hne]
      exact hwaits.record
  · obtain ⟨rfl, hmsg, rfl⟩ := hrest sdu' hsdu'
    exact ⟨hsn, hmsg, by rw [hself], by simp [hself, hunfinished],
      by simp [Delivery.carry, hcomplete], by simp [hself, hattached]⟩

/-! ## Filling a PDU -/

theorem Delivery.foldl_carry (rlcSn : ℕ) (parts : List Tx.Part) (sdus : ℕ → Delivery) (sn : ℕ) :
    ((parts.foldl (Delivery.carry rlcSn) sdus) sn).written = (sdus sn).written ∧
      ((parts.foldl (Delivery.carry rlcSn) sdus) sn).notified = (sdus sn).notified ∧
      (∀ w, w ∈ ((parts.foldl (Delivery.carry rlcSn) sdus) sn).unacked ↔
        w ∈ (sdus sn).unacked ∨ w = rlcSn ∧ ∃ part ∈ parts, part.pdcpSn = sn) ∧
      (((parts.foldl (Delivery.carry rlcSn) sdus) sn).complete ↔
        (sdus sn).complete ∨ ∃ part ∈ parts, part.pdcpSn = sn ∧ part.last) := by
  induction parts generalizing sdus with
  | nil => simp
  | cons part parts ih =>
    obtain ⟨hwritten, hnotified, hunacked, hcomplete⟩ := ih (Delivery.carry rlcSn sdus part)
    rw [foldl_cons]
    by_cases heq : sn = part.pdcpSn
    · have hcarry : Delivery.carry rlcSn sdus part sn =
          { sdus sn with
              unacked := rlcSn :: (sdus sn).unacked
              complete := (sdus sn).complete || part.last } := by
        rw [heq, Delivery.carry, update_self]
      rw [hcarry] at hwritten hnotified hunacked hcomplete
      refine ⟨hwritten, hnotified, fun w => (hunacked w).trans ?_, hcomplete.trans ?_⟩
      · simp only [mem_cons, exists_eq_or_imp, heq, true_or, and_true]
        tauto
      · simp only [mem_cons, exists_eq_or_imp, heq, true_and, Bool.or_eq_true]
        tauto
    · have hne : part.pdcpSn ≠ sn := Ne.symm heq
      rw [Delivery.carry, update_of_ne heq] at hwritten hnotified hunacked hcomplete
      refine ⟨hwritten, hnotified, fun w => (hunacked w).trans ?_, hcomplete.trans ?_⟩
      · simp [hne]
      · simp [hne]

namespace Tx

variable {s : Tx} {f g : Fill} {parts : List Part} {rlcSn nofBytes : ℕ}

/-- While the PDU `rlcSn` is filled, the record, with the parts so far, agrees with the transmitter.
The SDUs of the parts were not complete before, and a PDU without data leaves no SDU in
transmission. -/
structure FillLedger (sdus : ℕ → Delivery) (rlcSn : ℕ) (lists : ℕ → List ℕ) (f : Fill)
    (parts : List Part) : Prop where
  conserved : f.Conserved rlcSn lists
  ledger : Ledger f.tracking f.txSdu f.txSduQueue (parts.foldl (Delivery.carry rlcSn) sdus)
  incomplete : ∀ part ∈ parts, (sdus part.pdcpSn).complete = false
  empty : f.data = [] → f.txSdu = none

theorem part_last_eq (f : Fill) (sdu : Sdu) :
    (f.part sdu).last = decide (sdu.msg.length - toMove f sdu = 0) := by
  simp only [Fill.part, Nat.sub_eq_zero_iff_le]

/-- What is left of an SDU after its part in the PDU has its SN, and the part was not the last one.
-/
theorem sduRest_part {rest : Sdu} (h : sduRest sdu (toMove f sdu) = some rest) :
    rest.pdcpSn = sdu.pdcpSn ∧ rest.msg ≠ [] ∧ (f.part sdu).last = false := by
  have hmsg := msg_ne_nil_of_sduRest h
  unfold sduRest at h
  split at h
  · cases h
  rename_i hne
  cases h
  have hle : toMove f sdu ≤ sdu.msg.length := by
    unfold toMove
    split <;> omega
  refine ⟨rfl, hmsg, ?_⟩
  simp [Fill.part]
  omega

theorem FillLedger.addSdu (h : FillLedger sdus rlcSn lists f parts) (hadds : f.Adds)
    (hwaiting : waiting f.txSduQueue = sdu :: waiting queue) :
    FillLedger sdus rlcSn lists ((f.opened queue).addSdu rlcSn sdu)
      (parts ++ [(f.opened queue).part sdu]) := by
  have hwaits := h.ledger.waits sdu (by rw [hwaiting]; simp)
  have hindex := pduIndex_of_small hwaits.small
  have hpool := h.conserved
  have hdistinct := h.ledger.distinct
  rw [hwaiting, map_cons] at hdistinct
  obtain ⟨hnew, hdistinct⟩ := nodup_cons.mp hdistinct
  have hunplaced : (f.tracking.pdus (pduIndex sdu.pdcpSn)).sn = none := by
    rw [hindex]
    simpa [SegmentTracking.place] using hwaits.unplaced
  have hhas : f.tracking.hasPdcpSn sdu.pdcpSn = false := by
    simp [hasPdcpSn, hunplaced]
  obtain ⟨hunfinished, hnil⟩ := (h.ledger.entry sdu.pdcpSn).fresh hwaits.unplaced
  have hsegmented : f.tracking.Segmented rlcSn sdu.pdcpSn ((f.opened queue).part sdu).last
      ((f.opened queue).addSdu rlcSn sdu).tracking := by
    rw [part_last_eq]
    have hmade := hpool.segmented_addPdcpSdu hadds.2.2.2.1 hunplaced rlcSn
      (sdu.msg.length - toMove (f.opened queue) sdu) f.list
    have htracking : (f.opened queue).tracking = f.tracking := rfl
    simp only [Fill.addSdu, htracking, hhas]
    exact hmade
  refine ⟨Fill.Conserved.addSdu h.conserved, ?_, ?_, ?_⟩
  · rw [foldl_append]
    refine h.ledger.segmented hpool hsegmented (by rw [hwaits.record])
      (by rw [hwaits.record]) (by rw [hwaits.record]) hunfinished (by simp [hnil]) hwaits.small
      (fun rest hrest => sduRest_part hrest) (fun other hother => ?_) hdistinct
    refine ⟨by rw [hwaiting]; exact mem_cons_of_mem _ hother, fun heq => ?_⟩
    exact hnew (heq ▸ mem_map_of_mem hother)
  · intro part hpart
    rcases mem_append.mp hpart with hold | hlast
    · exact h.incomplete part hold
    rw [mem_singleton.mp hlast]
    have hrecord := (Delivery.foldl_carry rlcSn parts sdus sdu.pdcpSn).2.2.2
    rw [hwaits.record] at hrecord
    apply Bool.eq_false_iff.mpr
    intro hcomplete
    exact absurd (hrecord.mpr (.inl hcomplete)) (by simp)
  · -- a part without data is that of an empty SDU
    intro hnil
    have htake := length_take_toMove (f.opened queue) sdu
    rw [(append_eq_nil_iff.mp hnil).2, length_nil] at htake
    have hempty : sdu.msg = [] := by
      by_contra hne
      have hpos := toMove_pos (f := f.opened queue) hne hadds.2.2.2.2
      omega
    change sduRest sdu (toMove (f.opened queue) sdu) = none
    rw [sduRest, if_pos]
    rw [hempty, length_nil]
    exact htake

theorem fillLedger_addSegment (hconserved : f.Conserved rlcSn lists)
    (hledger : Ledger f.tracking f.txSdu f.txSduQueue sdus) (hroom : f.headLen < f.pduSpace)
    (hsegments : f.tracking.hasSegments) (hsdu : InTransmission f.tracking sdus sdu) :
    FillLedger sdus rlcSn lists (f.addSegment rlcSn sdu) [f.part sdu] := by
  have hindex := pduIndex_of_small hsdu.small
  have hplaced : (f.tracking.pdus (pduIndex sdu.pdcpSn)).sn = some sdu.pdcpSn := by
    rw [hindex]
    obtain ⟨sn, hsn⟩ := isSome_iff_exists.mp hsdu.placed
    rw [hsn, ← hledger.plain hsn]
  have hhas : f.tracking.hasPdcpSn sdu.pdcpSn := by
    simp [hasPdcpSn, hplaced]
  have hsegmented : f.tracking.Segmented rlcSn sdu.pdcpSn (f.part sdu).last
      (f.addSegment rlcSn sdu).tracking := by
    rw [part_last_eq]
    simp only [Fill.addSegment, hhas, if_true]
    exact hconserved.segmented hsegments hplaced rlcSn (sdu.msg.length - toMove f sdu) f.list
  obtain ⟨hwritten, hnotified⟩ := (hledger.entry sdu.pdcpSn).written hsdu.placed
  refine ⟨Fill.Conserved.addSegment hconserved, ?_, ?_, ?_⟩
  · refine hledger.segmented hconserved hsegmented hwritten hnotified hsdu.record
      hsdu.unfinished hsdu.attached hsdu.small (fun rest hrest => sduRest_part hrest)
      (fun other hother => ?_) hledger.distinct
    refine ⟨hother, fun heq => ?_⟩
    have hunplaced := (hledger.waits other hother).unplaced
    rw [heq, hsdu.placed] at hunplaced
    cases hunplaced
  · intro part hpart
    rw [mem_singleton.mp hpart]
    exact hsdu.record
  · intro hnil
    have htake := length_take_toMove f sdu
    have hpos := toMove_pos hsdu.msg hroom
    rw [(append_eq_nil_iff.mp hnil).2, length_nil] at htake
    omega

theorem fillLedger_fillInit (hs : s.Conserved) (hlist : s.lists s.vtS = [])
    (hledger : Ledger s.tracking s.txSdu s.txSduQueue sdus)
    (hsegments : s.tracking.hasSegments) (hbytes : minDataPduSize ≤ nofBytes) :
    FillLedger sdus s.vtS s.lists (s.fillInit nofBytes)
      (match s.txSdu with
        | some sdu => [(s.fillEmpty nofBytes).part sdu]
        | none => []) := by
  have hempty := hs.fillEmpty hlist nofBytes
  unfold fillInit
  cases htx : s.txSdu with
  | some sdu =>
    exact fillLedger_addSegment hempty hledger
      (packedLengthOf_zero_lt_space hbytes) hsegments (hledger.current sdu htx)
  | none => exact ⟨hempty, hledger, fun _ h => absurd h (by simp), fun _ => htx⟩

theorem FillLedger.pull {fuel : ℕ} (h : FillLedger sdus rlcSn lists f parts) :
    (∀ g, Fill.pull rlcSn fuel f = .ok g →
        FillLedger sdus rlcSn lists g (parts ++ Fill.pullParts rlcSn fuel f)) ∧
      ∀ g, Fill.pull rlcSn fuel f = .error g →
        FillLedger sdus rlcSn lists g (parts ++ Fill.pullParts rlcSn fuel f) ∧ g.data = [] := by
  refine pull_invariant_parts (FillLedger sdus rlcSn lists) ?_ ?_ h
  · intro f g parts hf hends
    refine ⟨?_, ?_, hf.incomplete, ?_⟩
    · rw [Fill.Conserved, hends.tracking, hends.list]
      exact hf.conserved
    · rw [hends.tracking, hends.txSdu, hends.txSduQueue]
      exact hf.ledger
    · rw [hends.data, hends.txSdu]
      exact hf.empty
  · intro f sdu queue parts hf hadds hwaiting _
    exact hf.addSdu hadds hwaiting

/-- A PDU that was filled but not sent is taken back. Its SDUs keep a segment without RLC PDU, so
they are never notified; they have no data, and none is being sent. -/
theorem FillLedger.abort (h : FillLedger sdus rlcSn lists f parts) (hdata : f.data = [])
    (hnew : ∀ sn, rlcSn ∉ (sdus sn).unacked) :
    Ledger (f.tracking.releasePdu f.list) f.txSdu f.txSduQueue sdus := by
  have hreleased := released_releasePdu f.tracking f.list
  have hmem : ∀ {id}, id ∈ f.list ↔ f.tracking.rlcSn id = some rlcSn := by
    intro id
    have hlists := @SegmentTracking.PoolInv.mem_lists _ _ id rlcSn h.conserved
    rw [update_self] at hlists
    exact hlists
  generalize f.tracking.releasePdu f.list = u at hreleased
  have hplace : ∀ sn, u.place sn = { f.tracking.place sn with
      rlcSns := (f.tracking.place sn).rlcSns.map fun r => if r = some rlcSn then none else r } := by
    intro sn
    have hrlc : u.rlcSn = (fun r => if r = some rlcSn then none else r) ∘ f.tracking.rlcSn := by
      funext id
      simp only [hreleased.rlcSn, Function.comp, hmem]
    simp only [SegmentTracking.place, hreleased.pdus, List.map_map, hrlc]
  have hledger := h.ledger
  refine ⟨?_, ?_, fun sn => ?_, fun sdu hsdu => ?_, hledger.distinct, fun sdu hsdu => ?_⟩
  · unfold SegmentTracking.Plain
    rw [hreleased.pdus]
    exact hledger.plain
  · rw [hreleased.pdus]
    exact hledger.small
  · obtain ⟨hwritten, hnotified, hunacked, hcomplete⟩ := Delivery.foldl_carry rlcSn parts sdus sn
    rw [hplace]
    refine (hledger.entry sn).takeBack hwritten hnotified hunacked hcomplete ?_ ?_ (hnew sn)
    · rintro ⟨part, hpart, hsn, -⟩
      exact ⟨part, hpart, hsn⟩
    · rintro ⟨part, hpart, rfl⟩
      exact h.incomplete part hpart
  · have hwaits := hledger.waits sdu hsdu
    obtain ⟨hwritten, hnotified, hunacked, hcomplete⟩ :=
      Delivery.foldl_carry rlcSn parts sdus sdu.pdcpSn
    rw [hwaits.record] at hwritten hnotified hunacked hcomplete
    refine ⟨hwaits.small, by rw [hplace]; exact hwaits.unplaced, ?_⟩
    have hnil : (sdus sdu.pdcpSn).unacked = [] := by
      apply eq_nil_iff_forall_not_mem.mpr
      intro w hw
      exact absurd ((hunacked w).mpr (.inl hw)) (by simp)
    have hopen : (sdus sdu.pdcpSn).complete = false := by
      apply Bool.eq_false_iff.mpr
      intro hdone
      exact absurd (hcomplete.mpr (.inl hdone)) (by simp)
    generalize sdus sdu.pdcpSn = d at hwritten hnotified hnil hopen
    obtain ⟨written, unacked, complete, notified⟩ := d
    dsimp only at hwritten hnotified hnil hopen
    rw [← hwritten, ← hnotified, hnil, hopen]
  · rw [h.empty hdata] at hsdu
    cases hsdu

/-- The record agrees with the transmitter. -/
def Recorded (s : Tx) (sdus : ℕ → Delivery) : Prop :=
  Ledger s.tracking s.txSdu s.txSduQueue sdus

theorem SamePdus.recorded {t : Tx} (h : s.SamePdus t) (hs : s.Recorded sdus) : t.Recorded sdus := by
  unfold Recorded
  rw [h.tracking, h.txSdu, h.txSduQueue]
  exact hs

theorem addPdu_of_hasSpace (h : s.txWindow.hasSpace sn) :
    (s.addPdu sn).tracking = s.tracking ∧ s.lists sn = [] := by
  have hslot : s.txWindow.slots (sn % windowSize) = none := by simpa [CircularMap.hasSpace] using h
  refine ⟨?_, lists_of_none ?_⟩
  · simp only [Tx.addPdu, CircularMap.evicted, hslot]
  · simp [CircularMap.get?, hslot]

theorem SamePdus.hasSpace {t : Tx} (h : s.SamePdus t) (hs : s.txWindow.hasSpace sn) :
    t.txWindow.hasSpace sn := by
  apply CircularMap.hasSpace_of_forall
  intro other hother
  have hslot : s.txWindow.slots (sn % windowSize) = none := by simpa [CircularMap.hasSpace] using hs
  rw [h.contains, CircularMap.contains, CircularMap.get?, hother, hslot]
  rfl

theorem SamePdus.dataParts {t : Tx} (h : s.SamePdus t) (hs : s.txWindow.hasSpace s.vtS)
    (nofBytes : ℕ) : t.dataParts nofBytes = s.dataParts nofBytes := by
  have ht : t.txWindow.hasSpace t.vtS := by
    rw [h.vtS]
    exact h.hasSpace hs
  have hempty : (t.addPdu t.vtS).fillEmpty nofBytes = (s.addPdu s.vtS).fillEmpty nofBytes := by
    simp only [fillEmpty, (addPdu_of_hasSpace hs).1, (addPdu_of_hasSpace ht).1]
    change ({ txSdu := t.txSdu, txSduQueue := t.txSduQueue, tracking := t.tracking, .. } : Fill) =
      { txSdu := s.txSdu, txSduQueue := s.txSduQueue, tracking := s.tracking, .. }
    rw [h.txSdu, h.txSduQueue, h.tracking]
  have hinit : (t.addPdu t.vtS).fillInit nofBytes = (s.addPdu s.vtS).fillInit nofBytes := by
    have htx : (t.addPdu t.vtS).txSdu = (s.addPdu s.vtS).txSdu := h.txSdu
    have hvtS : (t.addPdu t.vtS).vtS = (s.addPdu s.vtS).vtS := h.vtS
    rw [fillInit, fillInit, htx, hvtS, hempty]
  simp only [Tx.dataParts]
  rw [hempty, hinit, h.txSdu, h.txSduQueue, h.vtS]

theorem seqSucc_ne (sn : ℕ) : seqSucc snMod sn ≠ sn := by
  unfold seqSucc snMod
  omega

/-- `build_data_pdu` into a free slot of the window: the PDU is sent and its parts are recorded, or
it is taken back and the record stays. -/
theorem Recorded.buildDataPdu (hs : s.Recorded sdus) (hconserved : s.Conserved)
    (hspace : s.txWindow.hasSpace s.vtS) (hrefuses : s.refusesData nofBytes = false) :
    (s.buildDataPdu nofBytes).1.notifyInfoVec = s.notifyInfoVec ∧
      ((s.buildDataPdu nofBytes).1.vtS ≠ s.vtS ∧
          (∀ part ∈ s.dataParts nofBytes, (sdus part.pdcpSn).complete = false) ∧
          (s.buildDataPdu nofBytes).1.Recorded
            ((s.dataParts nofBytes).foldl (Delivery.carry s.vtS) sdus) ∨
        (s.buildDataPdu nofBytes).1.vtS = s.vtS ∧ (s.buildDataPdu nofBytes).1.Recorded sdus) := by
  have hsegments : s.tracking.hasSegments := by
    by_contra hnone
    simp [refusesData, hnone] at hrefuses
  have hbytes : minDataPduSize ≤ nofBytes := by
    apply Nat.not_lt.mp
    intro hsmall
    simp [refusesData, hsmall] at hrefuses
  obtain ⟨htracking, -⟩ := addPdu_of_hasSpace hspace
  have hlist : (s.addPdu s.vtS).lists s.vtS = [] := by rw [lists_addPdu, if_pos rfl]
  have hledger : (s.addPdu s.vtS).Recorded sdus := by
    unfold Recorded
    rw [htracking]
    exact hs
  have hinit := @fillLedger_fillInit sdus (s.addPdu s.vtS) nofBytes (hconserved.addPdu s.vtS) hlist
    hledger (by rw [htracking]; exact hsegments) hbytes
  have hpull := @FillLedger.pull _ _ _ _ _ s.txSduQueue.length hinit
  rcases buildDataPdu_cases hrefuses with ⟨f, hok, hbuild⟩ | ⟨f, herror, hbuild⟩
  · have hfinished := finished_finishData (s.addPdu s.vtS) s.txSdu.isSome f
    rw [hbuild]
    refine ⟨hfinished.notifyInfoVec, .inl ⟨?_, (hpull.1 f hok).incomplete, ?_⟩⟩
    · rw [hfinished.vtS]
      exact seqSucc_ne s.vtS
    · unfold Recorded
      rw [hfinished.tracking, hfinished.txSdu, hfinished.txSduQueue]
      exact (hpull.1 f hok).ledger
  · obtain ⟨hf, hdata⟩ := hpull.2 f herror
    rw [hbuild]
    refine ⟨rfl, .inr ⟨rfl, hf.abort hdata fun sn hmem => ?_⟩⟩
    obtain ⟨id, -, hsome⟩ := mem_map.mp (((hs.entry sn).unacked s.vtS).mp hmem)
    have hin : id ∈ s.lists s.vtS := hconserved.mem_lists.mpr hsome
    rw [(addPdu_of_hasSpace hspace).2] at hin
    cases hin

/-! ## Writing and discarding SDUs -/

theorem waiting_append (queue : List (Option Sdu)) (sdu : Sdu) :
    waiting (queue ++ [some sdu]) = waiting queue ++ [sdu] := by
  simp [waiting]

theorem waiting_discard (queue : List (Option Sdu)) (discardSn : ℕ) :
    waiting (queue.map fun entry => entry.filter fun sdu => sdu.pdcpSn ≠ discardSn) =
      (waiting queue).filter fun sdu => sdu.pdcpSn ≠ discardSn := by
  induction queue with
  | nil => rfl
  | cons entry queue ih =>
    simp only [waiting, map_cons] at ih ⊢
    cases entry with
    | none => simpa using ih
    | some sdu =>
      by_cases hsn : sdu.pdcpSn = discardSn
      · simpa [hsn] using ih
      · simpa [Option.filter, hsn] using ih

theorem Recorded.unplaced (hs : s.Recorded sdus) (h : ¬ (sdus sn).Outstanding) :
    (s.tracking.place sn).placed = false := by
  by_contra hplaced
  rw [Bool.not_eq_false] at hplaced
  have hentry := hs.entry sn
  refine h ⟨(hentry.written hplaced).1, fun hacked => ?_⟩
  -- a complete SDU in the list has a segment, and with it an unacknowledged PDU
  obtain ⟨htxed, hattached⟩ := hentry.complete hplaced hacked.1
  obtain ⟨r, hr⟩ := exists_mem_of_ne_nil _ (hentry.fullyTxed htxed).1
  cases r with
  | none => exact hattached hr
  | some w =>
    have hmem := (hentry.unacked w).mpr hr
    rw [hacked.2] at hmem
    cases hmem

theorem waits_update {sdu : Sdu} {t : SegmentTracking} (h : Waits t sdus sdu) (d : Delivery)
    (hne : sdu.pdcpSn ≠ sn) : Waits t (update sdus sn d) sdu :=
  ⟨h.small, h.unplaced, (update_of_ne hne _ _).trans h.record⟩

/-- The SDU `sn`, without a place in the list, is recorded anew; the queue may change. -/
theorem recorded_update {t : Tx} {d : Delivery} (hs : s.Recorded sdus)
    (hunplaced : (s.tracking.place sn).placed = false) (hd : d.unacked = [])
    (htracking : t.tracking = s.tracking) (htxSdu : t.txSdu = s.txSdu)
    (hwaits : ∀ sdu ∈ waiting t.txSduQueue, Waits s.tracking (update sdus sn d) sdu)
    (hdistinct : ((waiting t.txSduQueue).map Sdu.pdcpSn).Nodup) :
    t.Recorded (update sdus sn d) := by
  unfold Recorded
  rw [htracking, htxSdu]
  refine ⟨hs.plain, hs.small, fun sn' => ?_, hwaits, hdistinct, fun sdu htx => ?_⟩
  · by_cases heq : sn' = sn
    · rw [heq, update_self]
      exact entry_of_fresh hunplaced ((hs.entry _).fresh hunplaced) hd
    · rw [update_of_ne heq]
      exact hs.entry sn'
  · have hcurrent := hs.current sdu htx
    have hne : sdu.pdcpSn ≠ sn := by
      intro heq
      have hplaced := hcurrent.placed
      rw [heq, hunplaced] at hplaced
      cases hplaced
    refine ⟨hcurrent.small, hcurrent.msg, hcurrent.placed, hcurrent.unfinished, ?_,
      hcurrent.attached⟩
    rw [update_of_ne hne]
    exact hcurrent.record

theorem Recorded.writeSdu (hs : s.Recorded sdus)
    (hsmall : sdu.pdcpSn < pdcpBufferSize) (hnew : ¬ (sdus sdu.pdcpSn).Outstanding) :
    (s.writeSdu sdu).Recorded
      (if (s.writeSdu sdu).txSduQueue.length = s.txSduQueue.length then sdus
        else update sdus sdu.pdcpSn { written := true }) := by
  have hunplaced := hs.unplaced hnew
  unfold Tx.writeSdu
  split
  · rw [if_neg (by simp)]
    have hwaiting : ∀ other ∈ waiting s.txSduQueue, other.pdcpSn ≠ sdu.pdcpSn := by
      intro other hmem heq
      apply hnew
      rw [← heq, (hs.waits other hmem).record]
      exact ⟨rfl, fun hacked => absurd hacked.1 (by simp)⟩
    refine recorded_update hs hunplaced rfl rfl rfl (fun other hmem => ?_) ?_
    · rw [waiting_append] at hmem
      rcases mem_append.mp hmem with hold | hlast
      · exact waits_update (hs.waits other hold) _ (hwaiting other hold)
      · obtain rfl := mem_singleton.mp hlast
        exact ⟨hsmall, hunplaced, update_self _ _ _⟩
    · rw [waiting_append, map_append, nodup_append]
      refine ⟨hs.distinct, by simp, fun sn hsn sn' hsn' => ?_⟩
      obtain ⟨other, hmem, rfl⟩ := mem_map.mp hsn
      obtain rfl : sn' = sdu.pdcpSn := by simpa using hsn'
      exact hwaiting other hmem
  · rw [if_pos rfl]
    exact hs

theorem Recorded.discardSdu (hs : s.Recorded sdus) (discardSn : ℕ) :
    (s.discardSdu discardSn).Recorded
      (if s.txEnabled ∧ discardSn ∈ (waiting s.txSduQueue).map Sdu.pdcpSn then
        update sdus discardSn {} else sdus) := by
  unfold Tx.discardSdu
  cases henabled : s.txEnabled with
  | false =>
    assumption
  | true =>
    rw [if_pos rfl]
    have hwaits : ∀ other ∈ (waiting s.txSduQueue).filter fun sdu => sdu.pdcpSn ≠ discardSn,
        Waits s.tracking sdus other ∧ other.pdcpSn ≠ discardSn := by
      intro other hmem
      obtain ⟨hold, hne⟩ := mem_filter.mp hmem
      exact ⟨hs.waits other hold, by simpa using hne⟩
    have hdistinct : (((waiting s.txSduQueue).filter fun sdu => sdu.pdcpSn ≠ discardSn).map
        Sdu.pdcpSn).Nodup := hs.distinct.sublist (filter_sublist.map _)
    rw [← waiting_discard] at hwaits hdistinct
    by_cases hmem : discardSn ∈ (waiting s.txSduQueue).map Sdu.pdcpSn
    · rw [if_pos ⟨rfl, hmem⟩]
      obtain ⟨sdu, hsdu, rfl⟩ := mem_map.mp hmem
      exact recorded_update hs (hs.waits sdu hsdu).unplaced rfl rfl rfl
        (fun other hother => waits_update (hwaits other hother).1 _ (hwaits other hother).2)
        hdistinct
    · rw [if_neg fun h => hmem h.2]
      exact ⟨hs.plain, hs.small, hs.entry, fun other hother => (hwaits other hother).1, hdistinct,
        hs.current⟩

end Tx

end

end MbmsTx.Rlc.Am
