import MbmsTx.Rlc.Am.Reassembly
import MbmsTx.Rlc.Am.Rx
import MbmsTx.Rlc.Am.Tx

/-!
# Re-segmentation round trip

The transmitter cuts a PDU into segments, one for each grant, and the receiver puts the PDU together
from the segments, in whatever order and how often they arrive (`receiveSegments_exact`). It does so
only when a segment arrives for a list that exists: a PDU that comes in one segment is complete when
its list is started, but nothing looks at it.
-/

namespace MbmsTx.Rlc.Am

open List

/-! ## Sending the segments -/

/-- The segments that `build_segment` emits, one for each grant, until the entry at the front of the
retransmission queue is popped. -/
def emitSegments (pdu : TxPdu) : List ℕ → Tx → Option (List AmdPdu)
  | [], _ => none
  | nofBytes :: grants, s =>
    match s.retxQueue with
    | [] => none
    | retx :: queue =>
      let out := s.buildSegment nofBytes pdu retx
      if out.1.retxQueue.length = queue.length then some out.2.toList
      else (emitSegments pdu grants out.1).map fun segments => out.2.toList ++ segments

section

variable {pdu : TxPdu} {s : Tx} {retx : Retx} {queue : List Retx} {nofBytes a : ℕ}

variable (hwf : pdu.header.WellFormed pdu.buf.length) (hqueue : s.retxQueue = retx :: queue)
  (hrange : Tx.retxRange retx pdu.buf.length = (a, pdu.buf.length))
  (hend : retx.soEnd = pdu.buf.length) (ha : a < pdu.buf.length)
include hwf hqueue hrange hend ha

/-- `build_segment` for an entry from `a` to the end of the PDU: the grant is too small, or is used
for a segment. The last segment pops the entry. -/
theorem buildSegment_cases :
    (∃ t, s.buildSegment nofBytes pdu retx = (t, none) ∧ t.retxQueue = retx :: queue) ∨
    (∃ t segment, s.buildSegment nofBytes pdu retx = (t, some segment) ∧ t.retxQueue = queue ∧
      SegmentOf pdu.header pdu.buf a pdu.buf.length segment) ∨
    ∃ t segment b, s.buildSegment nofBytes pdu retx = (t, some segment) ∧
      t.retxQueue = { retx with isSegment := true, soStart := b } :: queue ∧
      SegmentOf pdu.header pdu.buf a b segment ∧ b < pdu.buf.length := by
  unfold Tx.buildSegment
  rw [hrange]
  set t := s.countPoll (pdu.buf.length + AmdHeader.packedLength {})
  have htq : (t.restartPoll t.pollRequired).retxQueue = retx :: queue := by
    cases t.pollRequired with
    | false | true => exact hqueue
  cases hseg : segmentOf pdu.header pdu.buf.length nofBytes a pdu.buf.length t.pollRequired with
  | none => exact .inl ⟨_, by simp only [hseg], htq⟩
  | some found =>
    obtain ⟨header, b⟩ := found
    have hspec := segmentOf_spec hwf ha hseg
    have hlt := hspec.lt
    have hle := hspec.le
    have hsmall := hwf.lt_two_pow
    have hof : SegmentOf pdu.header pdu.buf a b (header, (pdu.buf.drop a).take (sub32 b a)) :=
      ⟨hspec, by rw [sub32_of_le hlt.le (by omega)]⟩
    simp only [hseg, htq, hspec.lsf, hend, Bool.or_self, tail_cons]
    by_cases hb : pdu.buf.length = b
    · subst hb
      exact .inr (.inl ⟨_, _, rfl, by simp, hof⟩)
    · exact .inr (.inr ⟨_, _, b, rfl, by simp [hb], hof, by omega⟩)

theorem segmentChain_of_emitSegments {grants : List ℕ} {segments : List AmdPdu}
    (hemit : emitSegments pdu grants s = some segments) :
    SegmentChain pdu.header pdu.buf a segments := by
  induction grants generalizing s retx a segments with
  | nil => exact absurd hemit (by simp [emitSegments])
  | cons nofBytes grants ih =>
    simp only [emitSegments, hqueue] at hemit
    rcases @buildSegment_cases _ _ _ _ nofBytes _ hwf hqueue hrange hend ha with
      ⟨t, ht, htq⟩ | ⟨t, segment, ht, htq, hof⟩ | ⟨t, segment, b, ht, htq, hof, hb⟩
    · rw [ht, if_neg (by simp [htq])] at hemit
      obtain ⟨rest, hrest, rfl⟩ := Option.map_eq_some_iff.mp hemit
      exact ih htq hrange hend ha hrest
    · rw [ht, if_pos (by rw [htq])] at hemit
      rw [← Option.some.inj hemit]
      exact SegmentChain.last hof
    · rw [ht, if_neg (by simp [htq])] at hemit
      obtain ⟨rest, hrest, rfl⟩ := Option.map_eq_some_iff.mp hemit
      exact SegmentChain.cons hof hb (ih htq (by simp [Tx.retxRange, hend]) hend hb hrest)

end

/-! ## Receiving the segments -/

/-- The PDUs for which `handle_data_pdu` is called when segments arrive. -/
def receiveSegments : Rx → List AmdPdu → List AmdPdu
  | _, [] => []
  | s, segment :: feed =>
    (s.handleDataPduSegment segment).2.toList ++
      receiveSegments (s.handleDataPduSegment segment).1 feed

namespace Rx

@[simp] theorem setSegments_self (s : Rx) (sn : ℕ) (segments : Option (List AmdPdu)) :
    (s.setSegments sn segments).rxSegments sn = segments := by
  simp [setSegments]

theorem startSegments_spec (s : Rx) (segment : AmdPdu) :
    (s.startSegments segment).rxSegments segment.1.sn = some [segment] ∧
      (s.startSegments segment).insideRxWindow = s.insideRxWindow := by
  obtain ⟨vrH, poll, status, -, heq⟩ := s.startSegments_eq segment
  rw [heq]
  exact ⟨setSegments_self s _ _, rfl⟩

end Rx

section

variable {old : AmdHeader} {data : List UInt8} {segments feed : List AmdPdu} {segment : AmdPdu}
  {held : AmdPdu → Bool} {s : Rx}

/-- The PDU up to the poll bit and the fields of a segment. -/
def SamePdu (old : AmdHeader) (data : List UInt8) (pdu : AmdPdu) : Prop :=
  ∃ p, pdu = ({ old with rf := false, p := p, lsf := false, so := 0 }, data)

/-- There is no list for the PDU, or one with some segments. -/
def HoldsSome (old : AmdHeader) (segments : List AmdPdu) (s : Rx) : Prop :=
  s.rxSegments old.sn = none ∨ ∃ held, s.rxSegments old.sn = some (segments.filter held)

variable (hchain : SegmentChain old data 0 segments) (hwf : old.WellFormed data.length)
include hchain hwf

theorem fits_tailroom (hmem : segment ∈ segments) : ¬ tailroom 0 < segment.2.length :=
  Nat.not_lt.mpr ((hchain.length_le segment hmem).trans hwf.le_tailroom)

theorem handleDataPduSegment_of_none (hmem : segment ∈ segments) (hinside : s.insideRxWindow old.sn)
    (hnone : s.rxSegments old.sn = none) :
    s.handleDataPduSegment segment = (s.startSegments segment, none) := by
  have hlen := fits_tailroom hchain hwf hmem
  rw [Rx.handleDataPduSegment, hchain.sn_eq segment hmem]
  simp [hinside, hlen, hnone]

/-- The missing segment makes the receiver call `handle_data_pdu` with the PDU. -/
theorem handleDataPduSegment_of_complete (hmem : segment ∈ segments)
    (hinside : s.insideRxWindow old.sn) (hheld : s.rxSegments old.sn = some (segments.filter held))
    (hall : ∀ t ∈ segments, (held t || decide (t = segment))) :
    ∃ t pdu, s.handleDataPduSegment segment = (t, some pdu) ∧ SamePdu old data pdu ∧
      t.rxSegments old.sn = none := by
  have hlen := fits_tailroom hchain hwf hmem
  obtain ⟨p, hadd⟩ := RxSegments.addSegmentAndCheck_of_complete hwf hchain hmem hall
  rw [Rx.handleDataPduSegment, hchain.sn_eq segment hmem]
  simp only [hinside, Bool.not_true, Bool.false_eq_true, if_false, hlen, hheld, hadd]
  exact ⟨_, _, rfl, ⟨p, rfl⟩, Rx.setSegments_self _ _ _⟩

theorem handleDataPduSegment_of_missing (hmem : segment ∈ segments)
    (hinside : s.insideRxWindow old.sn) (hheld : s.rxSegments old.sn = some (segments.filter held))
    (hmiss : ∃ t ∈ segments, (held t || decide (t = segment)) = false) :
    ∃ t, s.handleDataPduSegment segment = (t, none) ∧
      t.rxSegments old.sn = some (segments.filter fun t => held t || decide (t = segment)) ∧
      t.insideRxWindow = s.insideRxWindow := by
  have hlen := fits_tailroom hchain hwf hmem
  rw [Rx.handleDataPduSegment, hchain.sn_eq segment hmem]
  simp only [hinside, Bool.not_true, Bool.false_eq_true, if_false, hlen, hheld,
    RxSegments.addSegmentAndCheck_of_missing hchain hmem hmiss]
  exact ⟨_, rfl, Rx.setSegments_self _ _ _, rfl⟩

omit hwf in
theorem filter_eq_singleton
    (hmem : segment ∈ segments) : segments.filter (fun t => decide (t = segment)) = [segment] := by
  have hinsert := RxSegments.insertSegment_filter hchain.sorted hmem fun _ => false
  simpa [RxSegments.insertSegment] using hinsert.symm

theorem HoldsSome.step (hmem : segment ∈ segments) (hs : HoldsSome old segments s) :
    HoldsSome old segments (s.handleDataPduSegment segment).1 ∧
      ∀ pdu ∈ (s.handleDataPduSegment segment).2, SamePdu old data pdu := by
  by_cases hinside : s.insideRxWindow old.sn
  · rcases hs with hnone | ⟨held, hheld⟩
    · rw [handleDataPduSegment_of_none hchain hwf hmem hinside hnone]
      refine ⟨.inr ⟨fun t => decide (t = segment), ?_⟩, by simp⟩
      rw [filter_eq_singleton hchain hmem, ← hchain.sn_eq segment hmem]
      exact (s.startSegments_spec segment).1
    · by_cases hall : ∀ t ∈ segments, (held t || decide (t = segment))
      · obtain ⟨t, pdu, heq, hpdu, hnone⟩ :=
          handleDataPduSegment_of_complete hchain hwf hmem hinside hheld hall
        rw [heq]
        exact ⟨.inl hnone, by simpa using hpdu⟩
      · simp only [not_forall, Bool.not_eq_true] at hall
        obtain ⟨miss, hmiss, hfalse⟩ := hall
        obtain ⟨t, heq, hlist, -⟩ :=
          handleDataPduSegment_of_missing hchain hwf hmem hinside hheld ⟨miss, hmiss, hfalse⟩
        rw [heq]
        exact ⟨.inr ⟨_, hlist⟩, by simp⟩
  · -- a segment outside the window is discarded
    rw [Rx.handleDataPduSegment, hchain.sn_eq segment hmem]
    simp only [hinside, Bool.not_false, if_true]
    exact ⟨hs, by simp⟩

/-- Every call of `handle_data_pdu` has the PDU that was cut. -/
theorem receiveSegments_exact (hs : HoldsSome old segments s)
    (hfeed : ∀ t ∈ feed, t ∈ segments) : ∀ pdu ∈ receiveSegments s feed, SamePdu old data pdu := by
  induction feed generalizing s with
  | nil => simp [receiveSegments]
  | cons segment feed ih =>
    obtain ⟨hnext, hcall⟩ := HoldsSome.step hchain hwf (hfeed segment (by simp)) hs
    intro pdu hpdu
    rcases mem_append.mp hpdu with hpdu | hpdu
    · exact hcall pdu (by simpa using hpdu)
    · exact ih hnext (fun t ht => hfeed t (mem_cons_of_mem _ ht)) pdu hpdu

/-- When all missing segments arrive at a receiver with a list, it calls `handle_data_pdu`. -/
theorem receiveSegments_ne_nil (hinside : s.insideRxWindow old.sn)
    (hheld : s.rxSegments old.sn = some (segments.filter held)) (hne : feed ≠ [])
    (hfeed : ∀ t ∈ feed, t ∈ segments) (hcover : ∀ t ∈ segments, held t ∨ t ∈ feed) :
    receiveSegments s feed ≠ [] := by
  induction feed generalizing s held with
  | nil => assumption
  | cons segment feed ih =>
    have hmem := hfeed segment (by simp)
    have hrest : ∀ t ∈ feed, t ∈ segments := fun t ht => hfeed t (mem_cons_of_mem _ ht)
    rw [receiveSegments]
    by_cases hall : ∀ t ∈ segments, (held t || decide (t = segment))
    · obtain ⟨t, pdu, heq, -, -⟩ :=
        handleDataPduSegment_of_complete hchain hwf hmem hinside hheld hall
      rw [heq]
      simp
    · simp only [not_forall, Bool.not_eq_true] at hall
      obtain ⟨miss, hmiss, hfalse⟩ := hall
      obtain ⟨t, heq, hlist, hwindow⟩ :=
        handleDataPduSegment_of_missing hchain hwf hmem hinside hheld ⟨miss, hmiss, hfalse⟩
      have hcover' : ∀ t ∈ segments, (held t || decide (t = segment)) ∨ t ∈ feed := by
        intro t ht
        rcases hcover t ht with hheldt | hfed
        · exact .inl (by simp [hheldt])
        · rcases mem_cons.mp hfed with rfl | hfed
          · simp
          · exact .inr hfed
      have hfed : miss ∈ feed := by
        rcases hcover' miss hmiss with htrue | hfed
        · rw [hfalse] at htrue
          cases htrue
        · exact hfed
      rw [heq]
      exact ih (by rw [hwindow, hinside]) hlist (ne_nil_of_mem hfed) hrest hcover'

/-- The receiver calls `handle_data_pdu` unless it starts the list for the only segment. -/
theorem receiveSegments_ne_nil_iff (hinside : s.insideRxWindow old.sn)
    (hempty : (s.rxSegments old.sn).getD [] = []) (hfeed : ∀ t, t ∈ feed ↔ t ∈ segments) :
    receiveSegments s feed ≠ [] ↔ 2 ≤ feed.length ∨ s.rxSegments old.sn ≠ none := by
  cases feed with
  | nil =>
    have hnil : segments = [] := eq_nil_iff_forall_not_mem.mpr fun t ht =>
      absurd ((hfeed t).mpr ht) (by simp)
    exact absurd hnil hchain.ne_nil
  | cons segment feed =>
    have hmem : segment ∈ segments := (hfeed segment).mp (by simp)
    cases hlist : s.rxSegments old.sn with
    | some list =>
      rw [hlist] at hempty
      have hheld : s.rxSegments old.sn = some (segments.filter fun _ => false) := by
        rw [hlist]
        simpa using hempty
      have hne := receiveSegments_ne_nil hchain hwf hinside hheld (cons_ne_nil segment feed)
        (fun t ht => (hfeed t).mp ht) fun t ht => .inr ((hfeed t).mpr ht)
      simp [hne]
    | none =>
      have hstart := handleDataPduSegment_of_none hchain hwf hmem hinside hlist
      obtain ⟨hsegs, hwindow⟩ := s.startSegments_spec segment
      rw [hchain.sn_eq segment hmem, ← filter_eq_singleton hchain hmem] at hsegs
      rw [receiveSegments, hstart, Option.toList_none, nil_append]
      cases feed with
      | nil => simp [receiveSegments]
      | cons next feed =>
        have hne := receiveSegments_ne_nil hchain hwf (by rw [hwindow, hinside]) hsegs
          (cons_ne_nil next feed)
          (fun t ht => (hfeed t).mp (mem_cons_of_mem _ ht)) fun t ht => by
            rcases mem_cons.mp ((hfeed t).mpr ht) with rfl | hfed
            · simp
            · exact .inr hfed
        simp [hne]

end

/-! ## The round trip -/

/-- Segments of a PDU, emitted by repeated calls of `build_segment` and fed to a receiver that has
none of them yet, in any order and with repetitions: the receiver puts the PDU together, and nothing
else, exactly when it gets more than one segment or has a list for the SN already. -/
theorem resegmentation_roundtrip {pdu : TxPdu} (hwf : pdu.header.WellFormed pdu.buf.length) {s : Tx}
    {retx : Retx} {queue : List Retx} (hqueue : s.retxQueue = retx :: queue)
    (hrange : Tx.retxRange retx pdu.buf.length = (0, pdu.buf.length))
    (hend : retx.soEnd = pdu.buf.length) {grants : List ℕ} {segments : List AmdPdu}
    (hemit : emitSegments pdu grants s = some segments) {rx : Rx}
    (hinside : rx.insideRxWindow pdu.header.sn = true)
    (hempty : (rx.rxSegments pdu.header.sn).getD [] = []) {feed : List AmdPdu}
    (hfeed : ∀ segment, segment ∈ feed ↔ segment ∈ segments) :
    (receiveSegments rx feed ≠ [] ∧
        ∀ call ∈ receiveSegments rx feed, SamePdu pdu.header pdu.buf call) ↔
      2 ≤ feed.length ∨ rx.rxSegments pdu.header.sn ≠ none := by
  have hpos : 0 < pdu.buf.length := (Nat.zero_le _).trans_lt hwf.sum_lt
  have hchain := segmentChain_of_emitSegments hwf hqueue hrange hend hpos hemit
  have hholds : HoldsSome pdu.header segments rx := by
    cases hlist : rx.rxSegments pdu.header.sn with
    | none => exact .inl hlist
    | some list =>
      rw [hlist] at hempty
      exact .inr ⟨fun _ => false, by rw [hlist]; simpa using hempty⟩
  have hexact := receiveSegments_exact hchain hwf hholds fun t ht => (hfeed t).mp ht
  rw [← receiveSegments_ne_nil_iff hchain hwf hinside hempty hfeed]
  exact and_iff_left hexact

/-- Five bytes with an SDU boundary behind the second one. -/
def twoSduPdu : TxPdu :=
  { rlcSn := 0, header := { li := [2] }, buf := [1, 2, 3, 4, 5] }

/-- A transmitter that has the whole PDU to retransmit. -/
def retransmitting : Tx :=
  { cfg := exampleTxCfg
    retxQueue := [{ sn := 0, isSegment := false, soStart := 0, soEnd := 5 }] }

/-- The segments for grants of eight and twenty bytes, in reverse order. -/
theorem roundtrip_of_two_segments :
    ∃ segments, emitSegments twoSduPdu [8, 20] retransmitting = some segments ∧
      segments.length = 2 ∧ receiveSegments {} segments.reverse ≠ [] ∧
      ∀ call ∈ receiveSegments {} segments.reverse,
        SamePdu twoSduPdu.header twoSduPdu.buf call := by
  obtain ⟨segments, hsegments, hlen⟩ :
      ∃ segments, emitSegments twoSduPdu [8, 20] retransmitting = some segments ∧
        segments.length = 2 := ⟨_, rfl, rfl⟩
  have hrx : ({} : Rx).insideRxWindow twoSduPdu.header.sn := by decide
  have hround := (resegmentation_roundtrip ⟨by decide, by decide, by decide⟩ rfl rfl rfl
    hsegments hrx rfl fun segment => mem_reverse).mpr (.inl (by rw [length_reverse, hlen]))
  exact ⟨segments, hsegments, hlen, hround⟩

/-- The whole PDU in one segment, received once. -/
theorem single_segment_not_delivered :
    ∃ segment, emitSegments twoSduPdu [20] retransmitting = some [segment] ∧
      segment.2 = twoSduPdu.buf ∧ receiveSegments {} [segment] = [] :=
  ⟨_, rfl, rfl, rfl⟩

end MbmsTx.Rlc.Am
