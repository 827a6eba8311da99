import Mathlib.Algebra.Order.BigOperators.Group.List
import MbmsTx.Rlc.Am.RxRuns

/-!
# Faults of the receiver

When a part of an SDU does not fit the buffer, the SDU is dropped and `rx_sdu` is null; if the next
PDU is in the window already, it is used in that state. And a segment without payload at the offset
zero is erased as covered, so that the list of segments can be empty when its last element is taken.
In every run in which the SDUs in the window fit their buffer and no such segment arrives, there is
no fault (`fault_eq_none`).
-/

namespace MbmsTx.Rlc.Am

open MbmsTx.Transition List Option RxSegments CircularMap

/-! ## SDUs that fit -/

/-- The length indicators before the first zero. -/
def usedLis (pdu : AmdPdu) : List ℕ := pdu.1.li.takeWhile fun l => l ≠ 0

/-- The bytes of a PDU for the SDU under construction. -/
def firstPart (pdu : AmdPdu) : ℕ := (usedLis pdu).head?.getD pdu.2.length

/-- The bytes of an SDU that a PDU leaves open, when `carry` were open before it. -/
def openPart (carry : ℕ) (pdu : AmdPdu) : ℕ :=
  if pdu.1.fi.notEnd then
    if usedLis pdu = [] then carry + pdu.2.length else pdu.2.length - (usedLis pdu).sum
  else 0

/-- With `carry` bytes before it, an SDU still fits its buffer after the PDU, which is smaller than
the buffer. -/
def SduFits (carry : ℕ) (pdu : AmdPdu) : Prop :=
  carry + firstPart pdu ≤ tailroom 0 ∧ pdu.2.length < tailroom 0

instance (carry : ℕ) (pdu : AmdPdu) : Decidable (SduFits carry pdu) :=
  inferInstanceAs (Decidable (_ ∧ _))

/-- The SDUs in consecutive PDUs, from an SN on, fit their buffer. -/
def roomFrom (window : ℕ → Option AmdPdu) : ℕ → ℕ → ℕ → Bool
  | 0, _, _ => true
  | fuel + 1, sn, carry =>
    match window sn with
    | none => true
    | some pdu =>
      decide (SduFits carry pdu) && roomFrom window fuel ((sn + 1) % snMod) (openPart carry pdu)

theorem roomFrom_succ {window : ℕ → Option AmdPdu} {fuel sn carry : ℕ} {pdu : AmdPdu}
    (hpdu : window sn = some pdu) :
    roomFrom window (fuel + 1) sn carry ↔ SduFits carry pdu ∧
      roomFrom window fuel ((sn + 1) % snMod) (openPart carry pdu) := by
  rw [roomFrom, hpdu, Bool.and_eq_true, decide_eq_true_eq]

theorem openPart_mono {carry carry' : ℕ} (h : carry' ≤ carry) (pdu : AmdPdu) :
    openPart carry' pdu ≤ openPart carry pdu := by
  unfold openPart
  split
  · split
    · omega
    rfl
  rfl

/-- A PDU that needs no more room than another one. -/
structure NeedsLess (pdu' pdu : AmdPdu) : Prop where
  first : firstPart pdu' ≤ firstPart pdu
  length : pdu'.2.length ≤ pdu.2.length
  rest : ∀ carry, openPart carry pdu' ≤ openPart carry pdu

theorem NeedsLess.refl (pdu : AmdPdu) : NeedsLess pdu pdu :=
  ⟨le_rfl, le_rfl, fun _ => le_rfl⟩

theorem roomFrom_mono {window window' : ℕ → Option AmdPdu} {fuel sn carry carry' : ℕ}
    (h : roomFrom window fuel sn carry)
    (hwindow : ∀ i, ∀ pdu' ∈ window' i, ∃ pdu ∈ window i, NeedsLess pdu' pdu)
    (hcarry : carry' ≤ carry) : roomFrom window' fuel sn carry' := by
  induction fuel generalizing sn carry carry' with
  | zero => rfl
  | succ fuel ih =>
    cases hpdu' : window' sn with
    | none => rw [roomFrom, hpdu']
    | some pdu' =>
      obtain ⟨pdu, hpdu, hless⟩ := hwindow sn pdu' hpdu'
      obtain ⟨⟨hfirst, hlen⟩, hrest⟩ := (roomFrom_succ hpdu).mp h
      have hfirst' := hless.first
      have hlen' := hless.length
      refine (roomFrom_succ hpdu').mpr ⟨⟨by omega, by omega⟩, ih hrest ?_⟩
      exact (hless.rest carry').trans (openPart_mono hcarry pdu)

theorem sum_usedLis_le (pdu : AmdPdu) : (usedLis pdu).sum ≤ pdu.1.li.sum := by
  have hsplit := congrArg sum (takeWhile_append_dropWhile (p := fun l => l ≠ 0) (l := pdu.1.li))
  rw [sum_append] at hsplit
  exact Nat.le.intro hsplit

namespace Rx

/-! ## Reassembly without drops -/

theorem takeLis_of_fits {lis : List ℕ} {read : ℕ} {rxSdu msg : List UInt8}
    (hsum : (lis.takeWhile fun l => l ≠ 0).sum ≤ msg.length)
    (hread : read + msg.length < tailroom 0)
    (hfirst : ∀ l ∈ (lis.takeWhile fun l => l ≠ 0).head?, rxSdu.length + l ≤ tailroom 0) :
    (takeLis lis read rxSdu msg).rxSdu =
        some (if (lis.takeWhile fun l => l ≠ 0) = [] then rxSdu else []) ∧
      (takeLis lis read rxSdu msg).msg.length =
        msg.length - (lis.takeWhile fun l => l ≠ 0).sum := by
  induction lis generalizing read rxSdu msg with
  | nil => exact ⟨rfl, rfl⟩
  | cons len lis ih =>
    rw [takeLis]
    by_cases hzero : len = 0
    · rw [if_pos hzero, takeWhile_cons_of_neg (by simpa using hzero)]
      simp
    rw [takeWhile_cons_of_pos (by simpa using hzero)] at hsum hfirst ⊢
    rw [sum_cons] at hsum
    have hroom := hfirst len rfl
    have hdrop : ¬ (tailroom rxSdu.length < len ∨
        maxBufferSizeBytes ≤ bufferHeaderOffset + read + len ∨ msg.length < len) := by
      unfold tailroom at *
      omega
    rw [if_neg hzero, if_neg hdrop]
    have hrest := @ih (read + len) [] (msg.drop len)
      (by rw [length_drop]; omega) (by rw [length_drop]; omega) (by
        intro l hl
        have hmem := List.mem_of_mem_head? hl
        have hle := le_sum_of_mem hmem
        rw [length_nil]
        omega)
    rw [ite_self, length_drop] at hrest
    refine ⟨?_, ?_⟩
    · rw [if_neg (cons_ne_nil _ _)]
      exact hrest.1
    · rw [sum_cons, ← Nat.sub_sub]
      exact hrest.2

theorem takePdu_of_fits {rxSdu : List UInt8} {pdu : AmdPdu} (hli : pdu.1.li.sum ≤ pdu.2.length)
    (hfits : SduFits rxSdu.length pdu) :
    ∃ rest, (takePdu rxSdu pdu).rxSdu = some rest ∧ rest.length = openPart rxSdu.length pdu := by
  obtain ⟨hfirst, hlen⟩ := hfits
  have hused := (sum_usedLis_le pdu).trans hli
  have hlis := @takeLis_of_fits pdu.1.li 0 rxSdu pdu.2 hused (by omega) (by
    intro l hl
    have hhead : firstPart pdu = l := by
      rw [firstPart, usedLis, mem_def.mp hl, getD_some]
    omega)
  change _ = some (if usedLis pdu = [] then rxSdu else []) ∧
    _ = pdu.2.length - (usedLis pdu).sum at hlis
  rw [takePdu, hlis.1]
  dsimp only
  generalize takeLis pdu.1.li 0 rxSdu pdu.2 = first at hlis
  have hroom : ¬ tailroom (if usedLis pdu = [] then rxSdu else []).length < first.msg.length := by
    rw [hlis.2]
    by_cases hnil : usedLis pdu = []
    · rw [firstPart, hnil] at hfirst
      rw [if_pos hnil, hnil, sum_nil, Nat.sub_zero]
      exact Nat.not_lt.mpr (Nat.le_sub_of_add_le' hfirst)
    · rw [if_neg hnil]
      rw [length_nil]
      omega
  rw [takeLast, if_neg hroom, Fi.endAligned_eq, openPart]
  cases pdu.1.fi.notEnd with
  | false => simp
  | true =>
    refine ⟨_, rfl, ?_⟩
    rw [length_append, hlis.2]
    by_cases hnil : usedLis pdu = []
    · simp [hnil]
    · simp [hnil]

/-- There is no fault, and what is stored does not lead to one by itself: the payload of a PDU
covers its length indicators, and no segment is empty at the offset zero. -/
structure Safe (s : Rx) : Prop where
  fault : s.fault = none
  window : ∀ sn, ∀ pdu ∈ s.rxWindow.get? sn, pdu.1.li.sum ≤ pdu.2.length
  segments : ∀ sn, ∀ list ∈ s.rxSegments sn, ∀ t ∈ list, t.1.sn = sn ∧ ¬ (t.1.so = 0 ∧ t.2 = [])

/-- The SDUs fit when the PDU is put into the window. -/
def RoomFor (s : Rx) (pdu : AmdPdu) : Prop :=
  roomFrom (fun i => if i = pdu.1.sn then some pdu else s.rxWindow.get? i) (windowSize + 1) s.vrR
    (s.rxSdu.getD []).length = true

instance (s : Rx) (pdu : AmdPdu) : Decidable (s.RoomFor pdu) :=
  inferInstanceAs (Decidable (_ = true))

variable {s : Rx} {pdu segment : AmdPdu}

theorem Safe.moveWindow (h : s.Safe) : s.moveWindow.Safe where
  fault := h.fault
  window := by
    intro sn pdu hpdu
    change pdu ∈ (s.rxWindow.erase s.vrR).get? sn at hpdu
    rw [get?_erase] at hpdu
    split at hpdu
    · cases hpdu
    · exact h.window sn pdu hpdu
  segments := forall_segments_moveWindow h.segments

/-- There is no fault in `reassemble_rx_sdus` when the SDUs fit. -/
theorem Safe.reassembleLoop {fuel : ℕ} {part : List UInt8} (h : s.Safe) (hsdu : s.rxSdu = some part)
    (hroom : roomFrom s.rxWindow.get? fuel s.vrR part.length) :
    (reassembleLoop fuel s).Safe := by
  induction fuel generalizing s part with
  | zero => exact h
  | succ fuel ih =>
    rw [Rx.reassembleLoop]
    cases hget : s.rxWindow.get? s.vrR with
    | none => exact h
    | some pdu =>
      obtain ⟨hfits, hrest⟩ := (roomFrom_succ hget).mp hroom
      obtain ⟨rest, htaken, hlen⟩ := takePdu_of_fits (h.window _ pdu hget) hfits
      rw [hsdu]
      have hsafe : Safe
          { s with
              rxSdu := (takePdu part pdu).rxSdu
              delivered := s.delivered ++ (takePdu part pdu).sdus } :=
        { h with }
      refine ih hsafe.moveWindow htaken ?_
      -- the PDU that was taken is not in the window any more
      refine roomFrom_mono hrest (fun i pdu' hpdu' => ?_) hlen.le
      change pdu' ∈ (s.rxWindow.erase s.vrR).get? i at hpdu'
      rw [get?_erase] at hpdu'
      split at hpdu'
      · cases hpdu'
      · exact ⟨pdu', hpdu', NeedsLess.refl pdu'⟩

theorem Safe.overwrite (h : s.Safe) (hli : pdu.1.li.sum ≤ pdu.2.length) (sn : ℕ) :
    Safe { s with rxWindow := s.rxWindow.overwrite sn pdu } where
  fault := h.fault
  window := by
    intro i q hq
    rw [get?_overwrite] at hq
    split at hq
    · rw [← some.inj hq]
      exact hli
    · split at hq
      · cases hq
      · exact h.window i q hq
  segments := h.segments

theorem Safe.receivePdu (h : s.Safe) (hli : pdu.1.li.sum ≤ pdu.2.length) (hroom : s.RoomFor pdu) :
    (s.receivePdu pdu).Safe := by
  have hstored := h.overwrite hli pdu.1.sn
  obtain ⟨vrH, vrMs, poll, status, running, vrX, -, -, -, heq⟩ := s.receivePdu_eq pdu
  rw [heq]
  generalize hu : Rx.reassembleLoop _ _ = u
  have hloop : u.Safe := by
    rw [← hu]
    refine Safe.reassembleLoop { hstored with } rfl (roomFrom_mono hroom (fun i q hq => ?_) le_rfl)
    rw [get?_overwrite] at hq
    split at hq
    · next hi => exact ⟨q, by rw [if_pos hi]; exact hq, NeedsLess.refl q⟩
    rename_i hi
    split at hq
    · cases hq
    · exact ⟨q, by rw [if_neg hi]; exact hq, NeedsLess.refl q⟩
  exact { hloop with }

theorem Safe.handleDataPdu (h : s.Safe) (hroom : pdu.1.li.sum ≤ pdu.2.length → s.RoomFor pdu) :
    (s.handleDataPdu pdu).Safe := by
  unfold Rx.handleDataPdu
  dsimp only
  split
  · exact h
  rename_i hli
  split
  · exact { h with }
  · split
    · exact @Safe.overwrite s ({}, []) h (Nat.le_refl 0) _
    · exact h.receivePdu (Nat.not_lt.mp hli) (hroom (Nat.not_lt.mp hli))

/-! ## Segments -/

/-- The bytes of a list of segments. -/
def segmentBytes (list : List AmdPdu) : ℕ := (list.map fun t => t.2.length).sum

theorem segmentBytes_cons (t : AmdPdu) (list : List AmdPdu) :
    segmentBytes (t :: list) = t.2.length + segmentBytes list := rfl

variable (list : List AmdPdu)

theorem segmentBytes_insertSegment_le :
    segmentBytes (insertSegment segment list) ≤ segmentBytes list + segment.2.length := by
  induction list with
  | nil => simp [insertSegment, segmentBytes]
  | cons u list ih =>
    rw [insertSegment]
    split
    · rw [segmentBytes_cons, segmentBytes_cons]
      omega
    split
    · split <;> simp only [segmentBytes_cons] <;> omega
    · simp only [segmentBytes_cons]
      omega

theorem insertSegment_ne_nil : insertSegment segment list ≠ [] := by
  cases list with
  | nil => simp [insertSegment]
  | cons u list =>
    rw [insertSegment]
    split
    · simp
    · split <;> simp

theorem segmentBytes_le_of_sublist {list list' : List AmdPdu} (h : list'.Sublist list) :
    segmentBytes list' ≤ segmentBytes list := by
  induction h with
  | slnil => rfl
  | cons t _ ih =>
    rw [segmentBytes_cons]
    omega
  | cons_cons t _ ih =>
    rw [segmentBytes_cons, segmentBytes_cons]
    omega

theorem checkGaps_ne_nil {list : List AmdPdu} (hne : list ≠ [])
    (hlist : ∀ t ∈ list, ¬ (t.1.so = 0 ∧ t.2 = [])) : (checkGaps 0 list).1 ≠ [] := by
  cases list with
  | nil => assumption
  | cons t list =>
    rw [checkGaps]
    split
    · simp
    rename_i hso
    rw [if_neg]
    · simp
    · intro hle
      refine hlist t mem_cons_self ⟨by omega, ?_⟩
      exact eq_nil_of_length_eq_zero (by omega)

theorem length_foldl_appendData (fullPdu : List UInt8) :
    (list.foldl appendData fullPdu).length ≤ fullPdu.length + segmentBytes list := by
  induction list generalizing fullPdu with
  | nil => rfl
  | cons t list ih =>
    rw [foldl_cons, segmentBytes_cons]
    have hrest := ih (appendData fullPdu t)
    have happend : (appendData fullPdu t).length ≤ fullPdu.length + t.2.length := by
      unfold appendData
      split
      · simp
      · omega
    omega

/-- What `add_segment_and_check` leaves and finds, when no segment is empty at the offset zero. -/
theorem addSegmentAndCheck_safe {list : List AmdPdu} {sn : ℕ}
    (hlist : ∀ t ∈ list, t.1.sn = sn ∧ ¬ (t.1.so = 0 ∧ t.2 = [])) (hsn : segment.1.sn = sn)
    (hsegment : ¬ (segment.1.so = 0 ∧ segment.2 = [])) :
    (addSegmentAndCheck list segment).1 ≠ [] ∧
      (∀ t ∈ (addSegmentAndCheck list segment).1, t.1.sn = sn ∧ ¬ (t.1.so = 0 ∧ t.2 = [])) ∧
      (addSegmentAndCheck list segment).2 ≠ .emptyList ∧
      ∀ pdu, (addSegmentAndCheck list segment).2 = .complete pdu →
        pdu.1.sn = sn ∧ pdu.2.length ≤ segmentBytes list + segment.2.length := by
  have hinsert : ∀ t ∈ insertSegment segment list, t.1.sn = sn ∧ ¬ (t.1.so = 0 ∧ t.2 = []) := by
    intro t ht
    rcases mem_insertSegment ht with rfl | ht
    · exact ⟨hsn, hsegment⟩
    · exact hlist t ht
  have hsub := checkGaps_sublist 0 (insertSegment segment list)
  have hkept := checkGaps_ne_nil (insertSegment_ne_nil list) fun t ht => (hinsert t ht).2
  have hbytes := (segmentBytes_le_of_sublist hsub).trans (segmentBytes_insertSegment_le list)
  unfold addSegmentAndCheck
  dsimp only
  generalize checkGaps 0 (insertSegment segment list) = checked at *
  have hall : ∀ t ∈ checked.1, t.1.sn = sn ∧ ¬ (t.1.so = 0 ∧ t.2 = []) := fun t ht =>
    hinsert t (hsub.subset ht)
  obtain ⟨front, hfront⟩ := ne_none_iff_exists'.mp (List.head?_eq_none_iff.not.mpr hkept)
  obtain ⟨back, hback⟩ := ne_none_iff_exists'.mp (getLast?_eq_none_iff.not.mpr hkept)
  rw [hfront, hback]
  dsimp only
  split
  · split
    · refine ⟨hkept, hall, by simp, ?_⟩
      rintro pdu heq
      obtain rfl := RxSegments.AddResult.complete.inj heq
      refine ⟨(hall front (List.mem_of_mem_head? hfront)).1, ?_⟩
      have hlen := length_foldl_appendData checked.1 []
      rw [length_nil, zero_add] at hlen
      exact hlen.trans hbytes
    · exact ⟨hkept, hall, by simp, by simp⟩
  · exact ⟨hkept, hall, by simp, by simp⟩

/-- The largest PDU that the segments of an SN can make up: all their bytes belong to one SDU, which
goes on. -/
def joinedSegments (s : Rx) (segment : AmdPdu) : AmdPdu :=
  ({ sn := segment.1.sn, fi := Fi.notEndAligned },
    ((s.rxSegments segment.1.sn).getD []).flatMap Prod.snd ++ segment.2)

theorem needsLess_joinedSegments {s : Rx} (hli : pdu.1.li.sum ≤ pdu.2.length)
    (hlen : pdu.2.length ≤ (s.joinedSegments segment).2.length) :
    NeedsLess pdu (s.joinedSegments segment) := by
  have hused := (sum_usedLis_le pdu).trans hli
  have hfirst : firstPart pdu ≤ pdu.2.length := by
    unfold firstPart
    cases hhead : (usedLis pdu).head? with
    | none => rfl
    | some l => exact (le_sum_of_mem (List.mem_of_mem_head? hhead)).trans hused
  refine ⟨hfirst.trans hlen, hlen, fun carry => ?_⟩
  change openPart carry pdu ≤ carry + (s.joinedSegments segment).2.length
  unfold openPart
  split
  · split <;> omega
  · omega

theorem RoomFor.of_needsLess {s t : Rx} {pdu' : AmdPdu} (h : s.RoomFor pdu)
    (hwindow : t.rxWindow = s.rxWindow) (hvrR : t.vrR = s.vrR) (hrxSdu : t.rxSdu = s.rxSdu)
    (hsn : pdu'.1.sn = pdu.1.sn) (hless : NeedsLess pdu' pdu) : t.RoomFor pdu' := by
  unfold RoomFor at *
  rw [hwindow, hvrR, hrxSdu, hsn]
  refine roomFrom_mono h (fun i q hq => ?_) le_rfl
  split at hq
  · next hi =>
    cases hq
    exact ⟨pdu, by rw [if_pos hi]; rfl, hless⟩
  · next hi => exact ⟨q, by rw [if_neg hi]; exact hq, NeedsLess.refl q⟩

theorem Safe.setSegments (h : s.Safe) {sn : ℕ} {list : Option (List AmdPdu)}
    (hlist : ∀ l ∈ list, ∀ t ∈ l, t.1.sn = sn ∧ ¬ (t.1.so = 0 ∧ t.2 = [])) :
    (s.setSegments sn list).Safe :=
  { h with segments := forall_segments_setSegments h.segments hlist }

theorem Safe.same {s t : Rx} (h : s.Safe) (hsame : s.SameStore t) : t.Safe := by
  refine ⟨hsame.fault.trans h.fault, ?_, ?_⟩
  · rw [hsame.rxWindow]
    exact h.window
  · rw [hsame.rxSegments]
    exact h.segments

theorem Safe.handleDataPduSegment (h : s.Safe) (hsegment : ¬ (segment.1.so = 0 ∧ segment.2 = []))
    (hroom : s.RoomFor (s.joinedSegments segment)) : (s.handleDataPduSegment segment).1.Safe := by
  have hadd : ∀ list, s.rxSegments segment.1.sn = some list → _ := fun list hlist =>
    addSegmentAndCheck_safe (h.segments _ list hlist) rfl hsegment
  refine handleDataPduSegment_induction h Safe.same (fun _ => ?_) (fun list hlist => ?_)
    (fun list hlist hnil _ => absurd hnil (hadd list hlist).2.2.1) fun list pdu hlist hpdu ht => ?_
  · refine h.setSegments fun l hl t ht => ?_
    rw [← some.inj hl, mem_singleton] at ht
    rw [ht]
    exact ⟨rfl, hsegment⟩
  · refine h.setSegments fun l hl => ?_
    rw [← some.inj hl]
    exact (hadd list hlist).2.1
  · obtain ⟨hsn, hbytes⟩ := (hadd list hlist).2.2.2 pdu hpdu
    have hlength : pdu.2.length ≤ (s.joinedSegments segment).2.length := by
      rw [joinedSegments, length_append, length_flatMap, hlist]
      exact hbytes
    refine Safe.setSegments (ht.handleDataPdu fun hli => ?_) fun l hl => ?_
    · exact hroom.of_needsLess rfl rfl rfl hsn (needsLess_joinedSegments hli hlength)
    · exact absurd hl (not_mem_none l)

/-! ## Runs without fault -/

/-- The condition on what is received: the SDUs fit, also when a segment is joined with stored ones,
and no segment is empty at the offset zero. -/
def Admits (s : Rx) (pdu : AmdPdu) : Prop :=
  if pdu.1.rf then ¬ (pdu.1.so = 0 ∧ pdu.2 = []) ∧ s.RoomFor (s.joinedSegments pdu)
  else s.RoomFor pdu

instance (s : Rx) (pdu : AmdPdu) : Decidable (s.Admits pdu) :=
  inferInstanceAs (Decidable (if pdu.1.rf = true then _ else _))

/-- The condition on an event. -/
def AdmitsAction (s : Rx) : RxAction → Prop
  | .writePdu payload => ∀ pdu ∈ readDataPduHeader payload, s.Admits pdu
  | .timerExpired => True
  | .getStatusPdu _ => True

instance (s : Rx) : (a : RxAction) → Decidable (s.AdmitsAction a)
  | .writePdu payload => inferInstanceAs (Decidable (∀ pdu ∈ readDataPduHeader payload, _))
  | .timerExpired | .getStatusPdu _ => isTrue trivial

theorem Safe.writePdu (h : s.Safe) (hadmits : s.Admits pdu) : (s.writePdu pdu).Safe := by
  unfold Admits at hadmits
  unfold Rx.writePdu
  split
  · next hrf =>
    rw [if_pos hrf] at hadmits
    exact h.handleDataPduSegment hadmits.1 hadmits.2
  · next hrf =>
    rw [if_neg hrf] at hadmits
    exact h.handleDataPdu fun _ => hadmits

theorem Safe.step {s' : Rx} {a : RxAction} (h : s.Safe) (hadmits : s.AdmitsAction a)
    (hstep : rxSystem.step s a = some s') : s'.Safe := by
  obtain ⟨payload, pdu, rfl, hpdu, rfl⟩ | ⟨running, vrX, vrMs, poll, status, -, -, rfl⟩ :=
    step_cases hstep
  · exact h.writePdu (hadmits pdu hpdu)
  · exact { h with }

theorem safe_init : Safe {} where
  fault := rfl
  window := by
    intro sn pdu hpdu
    exact absurd hpdu (by simp [get?, empty])
  segments := by
    simp

/-- Two segments without payload at the offset zero; the second one empties the list. -/
def emptySegmentTwice : List RxAction :=
  [.writePdu [0xC0, 0x00, 0x00, 0x00], .writePdu [0xC0, 0x00, 0x00, 0x00]]

/-- Three parts of an SDU that is larger than a buffer, the first of which arrives last. -/
def oversizedSdu : List RxAction :=
  [.writePdu (0x88 :: 0x02 :: List.replicate 6200 0),
    .writePdu (0x88 :: 0x01 :: List.replicate 6200 0),
    .writePdu (0x88 :: 0x00 :: List.replicate 6200 0)]

end Rx

end MbmsTx.Rlc.Am
