import MbmsTx.Rlc.Am.Header

/-!
# Segments at the receiver of an acknowledged-mode entity

The receiver keeps the segments of a PDU, ordered by their offset, until they cover the PDU.
`addSegmentAndCheck` adds a segment: when the PDU is complete, its header is put together from the
framing info and the length indicators of the segments and the PDU is given to `handle_data_pdu`.
-/

namespace MbmsTx.Rlc.Am

open List

namespace RxSegments

/-! ## The list of segments -/

/-- Insert a segment before the first one with a larger offset. Of two with the same offset the
longer one stays. -/
def insertSegment (segment : AmdPdu) : List AmdPdu → List AmdPdu
  | [] => [segment]
  | s :: segments =>
    if s.1.so < segment.1.so then s :: insertSegment segment segments
    else if s.1.so = segment.1.so then
      (if s.2.length < segment.2.length then segment else s) :: segments
    else segment :: s :: segments

/-- The loop that checks for gaps, from the offset `so` on: segments covered by those before them
are erased, and the first gap ends it. The result says whether there is none. -/
def checkGaps : ℕ → List AmdPdu → List AmdPdu × Bool
  | _, [] => ([], true)
  | so, s :: segments =>
    if so < s.1.so then (s :: segments, false)
    else if s.1.so + s.2.length ≤ so then checkGaps so segments
    else
      let rest := checkGaps (max so (s.1.so + s.2.length)) segments
      (s :: rest.1, rest.2)

/-! ## The header of the PDU -/

/-- The variables of the reconstruction of the header. `li` is the new array, with `nLi` valid
entries; the counters are `uint16_t`. -/
structure ReHeader where
  li : ℕ → ℕ := fun _ => 0
  nLi : ℕ := 0
  count : ℕ := 0
  carryover : ℕ := 0
  consumedBytes : ℕ := 0
  p : Bool := false

namespace ReHeader

/-- The valid entries of the array. -/
def lis (h : ReHeader) : List ℕ := (List.range h.nLi).map h.li

/-- Write an entry behind the valid ones. -/
def push (h : ReHeader) (value : ℕ) : ReHeader :=
  { h with
      li := fun j => if j = h.nLi then value else h.li j
      nLi := h.nLi + 1 }

/-- The loop over the length indicators of a segment: `i` is the index of the first one, and
`offset` is the offset in the PDU at which its part starts. -/
def addLis : ℕ → ℕ → List ℕ → ReHeader → ReHeader
  | _, _, [], h => h
  | i, offset, l :: ls, h =>
    let totalPduOffset := offset + l
    addLis (i + 1) totalPduOffset ls
      (if h.li i < totalPduOffset ∧ h.consumedBytes < totalPduOffset then
        { h.push ((totalPduOffset - h.consumedBytes) % 2 ^ 16) with
            consumedBytes := totalPduOffset % 2 ^ 16
            count := (h.count + l) % 2 ^ 16
            carryover := 0 }
      else h)

/-- The bytes of a segment of an SDU that goes on behind it. When the length indicators exceed the
data, the last one is taken back. -/
def updateCarryover (h : ReHeader) (so nBytes : ℕ) : ReHeader :=
  if h.count ≤ nBytes then
    { h with
        carryover := ((so + nBytes) % 2 ^ 16 + 2 ^ 16 * h.nLi - h.lis.sum) % 2 ^ 16 }
  else
    { h with
        nLi := h.nLi - 1
        carryover := (nBytes + 2 ^ 32 + h.li (h.nLi - 1) - h.count) % 2 ^ 16 }

/-- A segment that ends with an SDU ends it in the PDU, unless it is the last one. -/
def alignEnd (h : ReHeader) (fi : Fi) (isLast : Bool) : ReHeader :=
  if fi.endAligned && !isLast then
    { h.push h.carryover with
        consumedBytes := (h.consumedBytes + h.carryover) % 2 ^ 16
        carryover := 0 }
  else h

/-- The loop over the segments. -/
def addSegments : List AmdPdu → ReHeader → ReHeader
  | [], h => h
  | s :: segments, h =>
    let h := (h.addLis 0 s.1.so s.1.li).updateCarryover s.1.so s.2.length
    let h := h.alignEnd s.1.fi segments.isEmpty
    addSegments segments { h with count := 0, p := h.p || s.1.p }

end ReHeader

/-! ## The complete PDU -/

/-- Append what a segment has beyond the copied bytes. -/
def appendData (fullPdu : List UInt8) (s : AmdPdu) : List UInt8 :=
  if fullPdu.length < s.1.so + s.2.length then fullPdu ++ s.2.drop (fullPdu.length - s.1.so)
  else fullPdu

/-- The PDU put together from a list of segments with the given first and last one. -/
def reassemble (front back : AmdPdu) (segments : List AmdPdu) : AmdPdu :=
  let h := ReHeader.addSegments segments {}
  ({ p := h.p
     fi := Fi.startAndEndAligned ||| (front.1.fi &&& Fi.notStartAligned) |||
       (back.1.fi &&& Fi.notEndAligned)
     sn := front.1.sn
     li := h.lis },
    segments.foldl appendData [])

/-- The PDU is not complete, the list is empty when its last element is asked for, or
`handle_data_pdu` is called with a PDU. -/
inductive AddResult
  | incomplete
  | emptyList
  | complete (pdu : AmdPdu)
deriving DecidableEq

def addSegmentAndCheck (segments : List AmdPdu) (segment : AmdPdu) : List AmdPdu × AddResult :=
  let checked := checkGaps 0 (insertSegment segment segments)
  if checked.2 then
    match checked.1.head?, checked.1.getLast? with
    | some front, some back =>
      if back.1.lsf then (checked.1, .complete (reassemble front back checked.1))
      else (checked.1, .incomplete)
    | _, _ => (checked.1, .emptyList)
  else (checked.1, .incomplete)

/-! ## What is kept -/

theorem mem_insertSegment {t segment : AmdPdu} {list : List AmdPdu}
    (h : t ∈ insertSegment segment list) : t = segment ∨ t ∈ list := by
  induction list with
  | nil => exact .inl (mem_singleton.mp h)
  | cons u list ih =>
    rw [insertSegment] at h
    split at h
    · rcases mem_cons.mp h with rfl | h
      · simp
      · exact (ih h).imp_right (mem_cons_of_mem _)
    split at h
    · rcases mem_cons.mp h with rfl | h
      · split
        · simp
        simp
      · exact .inr (mem_cons_of_mem _ h)
    · exact mem_cons.mp h

theorem checkGaps_sublist (so : ℕ) (list : List AmdPdu) : (checkGaps so list).1.Sublist list := by
  induction list generalizing so with
  | nil => exact Sublist.refl _
  | cons t list ih =>
    rw [checkGaps]
    split
    · simp
    · split
      · exact (ih so).cons t
      · exact (ih _).cons_cons t

theorem addSegmentAndCheck_sn {P : ℕ → Prop} {segments : List AmdPdu} {segment : AmdPdu}
    (hsegments : ∀ t ∈ segments, P t.1.sn) (hsegment : P segment.1.sn) :
    (∀ t ∈ (addSegmentAndCheck segments segment).1, P t.1.sn) ∧
      ∀ pdu, (addSegmentAndCheck segments segment).2 = .complete pdu → P pdu.1.sn := by
  have hsub := checkGaps_sublist 0 (insertSegment segment segments)
  have hall : ∀ t ∈ (checkGaps 0 (insertSegment segment segments)).1, P t.1.sn := by
    intro t ht
    rcases mem_insertSegment (hsub.subset ht) with rfl | ht
    · exact hsegment
    · exact hsegments t ht
  unfold addSegmentAndCheck
  dsimp only
  generalize checkGaps 0 (insertSegment segment segments) = checked at hall
  split
  · split
    · next front back hfront hback =>
      split
      · refine ⟨hall, ?_⟩
        rintro pdu heq
        obtain rfl := AddResult.complete.inj heq
        exact hall front (List.mem_of_mem_head? hfront)
      · exact ⟨hall, by simp⟩
    · exact ⟨hall, by simp⟩
  · exact ⟨hall, by simp⟩

end RxSegments

end MbmsTx.Rlc.Am
