import Mathlib.Algebra.Order.BigOperators.Group.List
import MbmsTx.Rlc.Am.RxSegments
import MbmsTx.Rlc.Am.SegmentCut

/-!
# Putting a PDU together again

A chain of segments that covers a PDU determines it. The length indicators are followed by their
marks: after the segments up to the offset `a`, the header under construction has the marks of the
original one up to `a`. A segment adds the marks inside it with its length indicators, and the one
at its end with its framing info.
-/

namespace MbmsTx.Rlc.Am

open List Option

/-- The segment from `a` to `b` of the PDU. -/
structure SegmentOf (old : AmdHeader) (data : List UInt8) (a b : ℕ) (segment : AmdPdu) :
    Prop where
  header : IsSegment old data.length a b segment.1
  data_eq : segment.2 = (data.drop a).take (b - a)

/-- The segments cover the PDU from `a` to its end. -/
inductive SegmentChain (old : AmdHeader) (data : List UInt8) : ℕ → List AmdPdu → Prop
  | last {a : ℕ} {segment : AmdPdu} (h : SegmentOf old data a data.length segment) :
      SegmentChain old data a [segment]
  | cons {a b : ℕ} {segment : AmdPdu} {segments : List AmdPdu}
      (h : SegmentOf old data a b segment) (hb : b < data.length)
      (hs : SegmentChain old data b segments) : SegmentChain old data a (segment :: segments)

variable {old : AmdHeader} {data : List UInt8} {a b : ℕ} {segment : AmdPdu} {segments : List AmdPdu}

section

variable (h : SegmentOf old data a b segment)
include h

theorem SegmentOf.length_eq : segment.2.length = b - a := by
  have hle := h.header.le
  rw [h.data_eq, length_take, length_drop]
  omega

theorem SegmentOf.so_add_length : segment.1.so + segment.2.length = b := by
  have hlt := h.header.lt
  rw [h.header.so, h.length_eq]
  omega

theorem SegmentOf.li_pos (hwf : old.WellFormed data.length) : ∀ l ∈ segment.1.li, 0 < l := by
  apply pos_of_pairwise_marks
  rw [h.header.marks_li, pairwise_cons]
  refine ⟨fun m hm => ?_, (pairwise_marks hwf.li_pos).filter _⟩
  have hmem := (mem_filter.mp hm).2
  simp only [Bool.and_eq_true, decide_eq_true_eq] at hmem
  exact hmem.1

theorem SegmentOf.add_sum_lt : a + segment.1.li.sum < b := by
  by_cases hnil : segment.1.li = []
  · rw [hnil]
    exact h.header.lt
  have hmem := add_sum_mem_marks hnil (a := a)
  rw [h.header.marks_li, mem_filter] at hmem
  have hrange := hmem.2
  simp only [Bool.and_eq_true, decide_eq_true_eq] at hrange
  omega

end

section

variable (h : SegmentChain old data a segments)
include h

theorem SegmentChain.ne_nil : segments ≠ [] := by
  cases h <;> simp

theorem SegmentChain.le_so : ∀ s ∈ segments, a ≤ s.1.so := by
  induction h with
  | last h =>
    intro s hs
    rw [mem_singleton.mp hs, h.header.so]
  | cons h hb hs ih =>
    intro s hmem
    rcases mem_cons.mp hmem with rfl | hmem
    · rw [h.header.so]
    · exact h.header.lt.le.trans (ih s hmem)

theorem SegmentChain.sn_eq : ∀ s ∈ segments, s.1.sn = old.sn := by
  induction h with
  | last h =>
    intro s hs
    rw [mem_singleton.mp hs, h.header.sn]
  | cons h hb hs ih =>
    intro s hmem
    rcases mem_cons.mp hmem with rfl | hmem
    · rw [h.header.sn]
    · exact ih s hmem

theorem SegmentChain.length_le : ∀ s ∈ segments, s.2.length ≤ data.length := by
  induction h with
  | last h =>
    intro s hs
    rw [mem_singleton.mp hs, h.length_eq]
    omega
  | cons h hb hs ih =>
    intro s hmem
    rcases mem_cons.mp hmem with rfl | hmem
    · rw [h.length_eq]
      omega
    · exact ih s hmem

theorem SegmentChain.sorted : segments.Pairwise fun s t => s.1.so < t.1.so := by
  induction h with
  | last h => simp
  | cons h hb hs ih =>
    refine pairwise_cons.mpr ⟨fun t ht => ?_, ih⟩
    rw [h.header.so]
    exact h.header.lt.trans_le (hs.le_so t ht)

theorem SegmentChain.segmentOf_head
    (hhead : segments.head? = some segment) : ∃ b, SegmentOf old data a b segment := by
  cases h with
  | last h | cons h hb hs => exact ⟨_, some.inj hhead ▸ h⟩

theorem SegmentChain.segmentOf_getLast
    (hlast : segments.getLast? = some segment) : ∃ c, SegmentOf old data c data.length segment := by
  induction h with
  | last h =>
    rw [getLast?_singleton] at hlast
    exact ⟨_, some.inj hlast ▸ h⟩
  | cons h hb hs ih =>
    rw [getLast?_cons_of_ne_nil hs.ne_nil] at hlast
    exact ih hlast

end

namespace RxSegments

/-! ## The header -/

namespace ReHeader

variable {h : ReHeader}

@[simp] theorem lis_push (h : ReHeader) (value : ℕ) : (h.push value).lis = h.lis ++ [value] := by
  have hold : (List.range h.nLi).map (fun j => if j = h.nLi then value else h.li j) =
      (List.range h.nLi).map h.li := by
    apply map_congr_left
    intro j hj
    rw [if_neg (mem_range.mp hj).ne]
  simp only [lis, push, range_succ, map_append, map_cons, map_nil, if_true, hold]

/-- The entries of the array are those pushed, and their sum, the bytes that they account for, does
not exceed `a`. -/
structure Sound (h : ReHeader) (a : ℕ) : Prop where
  consumed : h.consumedBytes = h.lis.sum
  sum_le : h.lis.sum ≤ a
  zero : ∀ j, h.nLi ≤ j → h.li j = 0

theorem Sound.li_le (hh : Sound h a) (i : ℕ) : h.li i ≤ a := by
  by_cases hi : i < h.nLi
  · have hmem : h.li i ∈ h.lis := mem_map.mpr ⟨i, mem_range.mpr hi, rfl⟩
    exact (le_sum_of_mem hmem).trans hh.sum_le
  · rw [hh.zero i (Nat.not_lt.mp hi)]
    omega

/-- Push the length from the last mark to the mark `b`. -/
theorem marks_push {value : ℕ} (hvalue : h.lis.sum + value = b) :
    marks 0 (h.push value).lis = marks 0 h.lis ++ [b] := by
  rw [lis_push, marks_append, marks_cons, marks_nil, zero_add, hvalue]

theorem Sound.zero_push (hh : Sound h a) (value : ℕ) :
    ∀ j, (h.push value).nLi ≤ j → (h.push value).li j = 0 := by
  intro j hj
  change h.nLi + 1 ≤ j at hj
  change (if j = h.nLi then value else h.li j) = 0
  rw [if_neg (by omega)]
  exact hh.zero j (by omega)

theorem sum_lis_push (h : ReHeader) (value : ℕ) : (h.push value).lis.sum = h.lis.sum + value := by
  simp

/-- What the loop over the length indicators leaves. -/
structure AddedLis (h : ReHeader) (offset : ℕ) (ls : List ℕ) (h' : ReHeader) : Prop where
  sound : Sound h' (offset + ls.sum)
  marks_lis : marks 0 h'.lis = marks 0 h.lis ++ marks offset ls
  count : h'.count = h.count + ls.sum

theorem Sound.addLis {i offset : ℕ} {ls : List ℕ} (hh : Sound h offset)
    (hpos : ∀ l ∈ ls, 0 < l) (hoffset : offset + ls.sum < 2 ^ 16)
    (hcount : h.count + ls.sum < 2 ^ 16) : AddedLis h offset ls (addLis i offset ls h) := by
  induction ls generalizing i offset h with
  | nil => exact ⟨hh, by simp [ReHeader.addLis], rfl⟩
  | cons l ls ih =>
    have hl : 0 < l := hpos l (by simp)
    have hls : ∀ k ∈ ls, 0 < k := fun k hk => hpos k (mem_cons_of_mem _ hk)
    have hli := hh.li_le i
    have hsum := hh.sum_le
    have hconsumed := hh.consumed
    rw [sum_cons] at hoffset hcount
    rw [ReHeader.addLis]
    -- the bytes that are accounted for end before this part, so its length indicator is taken
    rw [if_pos ⟨by omega, by omega⟩, Nat.mod_eq_of_lt (by omega),
      Nat.mod_eq_of_lt (by omega),
      Nat.mod_eq_of_lt (by omega)]
    set pushed : ReHeader := { h.push (offset + l - h.consumedBytes) with
      consumedBytes := offset + l
      count := h.count + l
      carryover := 0 }
    have hlis : pushed.lis = (h.push (offset + l - h.consumedBytes)).lis := rfl
    have hnew : pushed.lis.sum = offset + l := by
      rw [hlis, sum_lis_push]
      omega
    have hsound : Sound pushed (offset + l) := ⟨hnew.symm, hnew.le, hh.zero_push _⟩
    have hadded := ih (i := i + 1) hsound hls (by omega) (by change h.count + l + ls.sum < _; omega)
    refine ⟨?_, ?_, ?_⟩
    · rw [sum_cons, ← add_assoc]
      exact hadded.sound
    · rw [hadded.marks_lis, hlis, marks_push (b := offset + l) (by omega), marks_cons,
        append_assoc, singleton_append]
    · rw [hadded.count, sum_cons, ← add_assoc]

theorem updateCarryover_eq {so nBytes : ℕ} (hcount : h.count ≤ nBytes)
    (hsum : h.lis.sum ≤ so + nBytes) (hsmall : so + nBytes < 2 ^ 16) :
    h.updateCarryover so nBytes = { h with carryover := so + nBytes - h.lis.sum } := by
  have hcarry : ((so + nBytes) % 2 ^ 16 + 2 ^ 16 * h.nLi - h.lis.sum) % 2 ^ 16 =
      so + nBytes - h.lis.sum := by
    omega
  rw [updateCarryover, if_pos hcount, hcarry]

/-- The header under construction has the marks up to `a`. -/
structure UpTo (old : AmdHeader) (a : ℕ) (h : ReHeader) : Prop where
  sound : Sound h a
  marks_lis : marks 0 h.lis = (marks 0 old.li).filter fun m => decide (m < a + 1)
  count : h.count = 0

section

variable (hwf : old.WellFormed data.length)
include hwf

theorem upTo_zero : UpTo old 0 {} where
  sound := ⟨rfl, Nat.le_refl 0, fun _ _ => rfl⟩
  marks_lis := by
    have hnil := filter_marks_eq_nil hwf.li_pos (Nat.le_refl 1) fun _ => true
    simpa [lis] using hnil.symm
  count := rfl

theorem UpTo.addSegment (hh : UpTo old a h) (hs : SegmentOf old data a b segment) :
    ∃ h' : ReHeader,
        (h.addLis 0 segment.1.so segment.1.li).updateCarryover segment.1.so segment.2.length =
        { h' with carryover := b - h'.lis.sum } ∧
      h'.consumedBytes = h'.lis.sum ∧ h'.lis.sum ≤ b ∧ (∀ j, h'.nLi ≤ j → h'.li j = 0) ∧
      marks 0 h'.lis = (marks 0 old.li).filter fun m => decide (m < b) := by
  have hsum := hs.add_sum_lt
  have hle := hs.header.le
  have hsmall := hwf.lt_two_pow
  have hlen := hs.length_eq
  have hend := hs.so_add_length
  have hcount := hh.count
  have hadded := hh.sound.addLis (i := 0) (hs.li_pos hwf) (by omega) (by omega)
  rw [← hs.header.so] at hadded
  have hsound := hadded.sound
  have hso := hs.header.so
  have hle' := hsound.sum_le
  have hcount' := hadded.count
  refine ⟨_, ?_, hsound.consumed, by omega, hsound.zero, ?_⟩
  · rw [updateCarryover_eq (by omega) (by omega) (by omega), hend]
  · rw [hadded.marks_lis, hh.marks_lis, hso, hs.header.marks_li]
    exact filter_lt_append (pairwise_marks hwf.li_pos) hs.header.lt

theorem UpTo.next (hh : UpTo old a h) (hs : SegmentOf old data a b segment) (hb : b < data.length)
    (hne : segments ≠ []) :
    ∃ h', addSegments (segment :: segments) h = addSegments segments h' ∧ UpTo old b h' := by
  obtain ⟨h₁, heq, hconsumed, hle, hzero, hmarks⟩ := hh.addSegment hwf hs
  have hsmall := hwf.lt_two_pow
  have hmark : segment.1.fi.notEnd = false ↔ b ∈ marks 0 old.li := by
    rw [hs.header.notEnd]
    exact or_iff_left fun h => hb.ne h.1.symm
  have hsucc := filter_marks_succ 0 b hwf.li_pos
  rw [addSegments, heq, alignEnd, Fi.endAligned_eq, isEmpty_eq_false_iff.mpr hne, Bool.not_false,
    Bool.and_true]
  refine ⟨_, rfl, ?_⟩
  cases hend : segment.1.fi.notEnd with
  | true =>
    have hmem : b ∉ marks 0 old.li := fun hmem => by
      rw [hmark.mpr hmem] at hend
      exact Bool.false_ne_true hend
    rw [if_neg hmem, append_nil] at hsucc
    exact ⟨⟨hconsumed, hle, hzero⟩, hmarks.trans hsucc, rfl⟩
  | false =>
    rw [if_pos (hmark.mp hend)] at hsucc
    have hsum : (h₁.push (b - h₁.lis.sum)).lis.sum = b := by
      rw [sum_lis_push]
      omega
    have hzero' : ∀ j, (h₁.push (b - h₁.lis.sum)).nLi ≤ j → (h₁.push (b - h₁.lis.sum)).li j = 0 :=
      Sound.zero_push ⟨hconsumed, hle, hzero⟩ _
    refine ⟨⟨?_, hsum.le, hzero'⟩, ?_, rfl⟩
    · change (h₁.consumedBytes + (b - h₁.lis.sum)) % 2 ^ 16 = (h₁.push (b - h₁.lis.sum)).lis.sum
      omega
    · change marks 0 (h₁.push (b - h₁.lis.sum)).lis = _
      rw [marks_push (b := b) (by omega), hmarks, hsucc]

theorem UpTo.last (hh : UpTo old a h)
    (hs : SegmentOf old data a data.length segment) : (addSegments [segment] h).lis = old.li := by
  obtain ⟨h₁, heq, -, -, -, hmarks⟩ := hh.addSegment hwf hs
  have hall : (marks 0 old.li).filter (fun m => decide (m < data.length)) = marks 0 old.li := by
    rw [filter_eq_self]
    intro m hm
    have hle := le_of_mem_marks hm
    have hsum := hwf.sum_lt
    rw [decide_eq_true_eq]
    omega
  rw [hall] at hmarks
  rw [addSegments, heq, alignEnd, isEmpty_nil, Bool.not_true, Bool.and_false]
  exact marks_injective 0 hmarks

theorem lis_addSegments (hchain : SegmentChain old data a segments) (hh : UpTo old a h) :
    (addSegments segments h).lis = old.li := by
  induction hchain generalizing h with
  | last hs => exact hh.last hwf hs
  | cons hs hb hrest ih =>
    obtain ⟨h', heq, hh'⟩ := hh.next hwf hs hb hrest.ne_nil
    rw [heq]
    exact ih hh'

end

end ReHeader

/-! ## The data -/

theorem appendData_take (hs : SegmentOf old data a b segment) :
    appendData (data.take a) segment = data.take b := by
  have hlt := hs.header.lt
  have hle := hs.header.le
  have hlen : (data.take a).length = a := length_take_of_le (by omega)
  rw [appendData, hlen, hs.so_add_length, if_pos hlt, hs.header.so, Nat.sub_self, drop_zero,
    hs.data_eq, ← take_add]
  congr 1
  omega

theorem foldl_appendData (hchain : SegmentChain old data a segments) :
    segments.foldl appendData (data.take a) = data := by
  induction hchain with
  | last hs => rw [foldl_cons, foldl_nil, appendData_take hs, take_length]
  | cons hs hb hrest ih => rw [foldl_cons, appendData_take hs, ih]

/-! ## The complete PDU -/

theorem reassemble_eq (hwf : old.WellFormed data.length)
    (hchain : SegmentChain old data 0 segments) {front back : AmdPdu}
    (hfront : segments.head? = some front) (hback : segments.getLast? = some back) :
    ∃ p, reassemble front back segments =
      ({ old with rf := false, p := p, lsf := false, so := 0 }, data) := by
  obtain ⟨b, hb⟩ := hchain.segmentOf_head hfront
  obtain ⟨c, hc⟩ := hchain.segmentOf_getLast hback
  have hdata : segments.foldl appendData [] = data := foldl_appendData hchain
  have hlis := ReHeader.lis_addSegments hwf hchain (ReHeader.upTo_zero hwf)
  have hnotStart := hb.header.notStart rfl
  have hnotEnd : back.1.fi.notEnd = old.fi.notEnd := by
    have hmark : data.length ∉ marks 0 old.li := fun hmem => by
      have hle := le_of_mem_marks hmem
      have hsum := hwf.sum_lt
      omega
    have hend := hc.header.notEnd
    cases hold : old.fi.notEnd with
    | false => exact hend.mpr (.inr ⟨rfl, hold⟩)
    | true =>
      rw [← Bool.not_eq_false]
      intro hfalse
      rcases hend.mp hfalse with hmem | ⟨-, hfalse⟩
      · exact hmark hmem
      · rw [hold] at hfalse
        exact Bool.noConfusion hfalse
  refine ⟨(ReHeader.addSegments segments {}).p, ?_⟩
  rw [reassemble, hdata, hlis, hb.header.sn, Fi.and_notStartAligned, Fi.and_notEndAligned,
    hnotStart, hnotEnd]
  have hfi : Fi.startAndEndAligned ||| ⟨old.fi.notStart, false⟩ ||| ⟨false, old.fi.notEnd⟩ =
      old.fi := by
    rcases old.fi with ⟨_ | _, _ | _⟩ <;> rfl
  rw [hfi]

/-! ## Collecting the segments -/

theorem insertSegment_filter (hsorted : segments.Pairwise fun s t => s.1.so < t.1.so)
    (hmem : segment ∈ segments) (held : AmdPdu → Bool) :
    insertSegment segment (segments.filter held) =
      segments.filter fun s => held s || decide (s = segment) := by
  induction segments with
  | nil => cases hmem
  | cons s rest ih =>
    obtain ⟨hlt, hrest⟩ := pairwise_cons.mp hsorted
    rcases mem_cons.mp hmem with rfl | hmem
    · -- the others lie behind the segment
      have hother : ∀ t ∈ rest, (held t || decide (t = segment)) = held t := by
        intro t ht
        have hne : t ≠ segment := fun heq => absurd (hlt t ht) (by rw [heq]; omega)
        simp [hne]
      have hself : (segment :: rest).filter (fun s => held s || decide (s = segment)) =
          segment :: rest.filter held := by
        rw [filter_cons, filter_congr hother]
        simp
      rw [hself]
      cases hheld : held segment with
      | true => simp [filter_cons_of_pos, hheld, insertSegment]
      | false =>
        rw [filter_cons_of_neg (by simp [hheld])]
        cases hfilter : rest.filter held with
        | nil => rfl
        | cons t ts =>
          have ht : t ∈ rest := mem_of_mem_filter (hfilter ▸ mem_cons_self)
          have hso := hlt t ht
          rw [insertSegment, if_neg (by omega), if_neg (by omega)]
    · have hso := hlt segment hmem
      have hne : s ≠ segment := fun heq => absurd hso (by rw [heq]; omega)
      rw [filter_cons, filter_cons, ← ih hrest hmem]
      simp only [hne, decide_false, Bool.or_false]
      cases held s with
      | true => simp [insertSegment, hso]
      | false => simp

theorem checkGaps_cons (h : SegmentOf old data a b segment) (rest : List AmdPdu) :
    checkGaps a (segment :: rest) = (segment :: (checkGaps b rest).1, (checkGaps b rest).2) := by
  have hlt := h.header.lt
  have hso := h.header.so
  have hend := h.so_add_length
  rw [checkGaps, if_neg (by omega), if_neg (by omega), hend, max_eq_right hlt.le]

theorem checkGaps_of_lt (hlt : ∀ s ∈ segments, a < s.1.so) :
    checkGaps a segments = (segments, segments.isEmpty) := by
  cases segments with
  | nil => rfl
  | cons s rest =>
    rw [checkGaps, if_pos (hlt s (by simp))]
    rfl

theorem checkGaps_filter (hchain : SegmentChain old data a segments) (held : AmdPdu → Bool) :
    (checkGaps a (segments.filter held)).1 = segments.filter held := by
  induction hchain with
  | @last a s h =>
    cases hs : held s with
    | false => simp [hs, checkGaps]
    | true => simp [hs, checkGaps_cons h, checkGaps]
  | @cons a b s rest h hb hrest ih =>
    cases hs : held s with
    | false =>
      rw [filter_cons_of_neg (by simp [hs]), checkGaps_of_lt]
      intro t ht
      exact h.header.lt.trans_le (hrest.le_so t (mem_of_mem_filter ht))
    | true => rw [filter_cons_of_pos hs, checkGaps_cons h, ih]

theorem checkGaps_chain (hchain : SegmentChain old data a segments) :
    checkGaps a segments = (segments, true) := by
  induction hchain with
  | last h => rw [checkGaps_cons h, checkGaps]
  | cons h hb hrest ih => rw [checkGaps_cons h, ih]

theorem lsf_of_missing (hchain : SegmentChain old data a segments) {held : AmdPdu → Bool}
    (hmiss : ∃ s ∈ segments, held s = false)
    (hok : (checkGaps a (segments.filter held)).2) {back : AmdPdu}
    (hback : (segments.filter held).getLast? = some back) : back.1.lsf = false := by
  induction hchain with
  | @last a s h =>
    obtain ⟨t, ht, hheld⟩ := hmiss
    rw [mem_singleton.mp ht] at hheld
    rw [filter_cons_of_neg (by simp [hheld])] at hback
    cases hback
  | @cons a b s rest h hb hrest ih =>
    cases hs : held s with
    | false =>
      rw [filter_cons_of_neg (by simp [hs])] at hok hback
      rw [checkGaps_of_lt fun t ht =>
        h.header.lt.trans_le (hrest.le_so t (mem_of_mem_filter ht))] at hok
      rw [List.isEmpty_iff.mp hok] at hback
      cases hback
    | true =>
      rw [filter_cons_of_pos hs] at hok hback
      rw [checkGaps_cons h] at hok
      have hmiss' : ∃ t ∈ rest, held t = false := by
        obtain ⟨t, ht, hheld⟩ := hmiss
        rcases mem_cons.mp ht with rfl | ht
        · exact absurd hheld (by simp [hs])
        · exact ⟨t, ht, hheld⟩
      by_cases hnil : rest.filter held = []
      · -- the segment itself is the last one that is held
        rw [hnil, getLast?_singleton] at hback
        rw [← some.inj hback, h.header.lsf]
        exact decide_eq_false hb.ne'
      · rw [getLast?_cons_of_ne_nil hnil] at hback
        exact ih hmiss' hok hback

theorem addSegmentAndCheck_of_complete (hwf : old.WellFormed data.length)
    (hchain : SegmentChain old data 0 segments) (hmem : segment ∈ segments)
    {held : AmdPdu → Bool} (hall : ∀ s ∈ segments, (held s || decide (s = segment))) :
    ∃ p, addSegmentAndCheck (segments.filter held) segment =
      (segments, .complete ({ old with rf := false, p := p, lsf := false, so := 0 }, data)) := by
  obtain ⟨front, hfront⟩ :=
    ne_none_iff_exists'.mp (List.head?_eq_none_iff.not.mpr hchain.ne_nil)
  obtain ⟨back, hback⟩ :=
    ne_none_iff_exists'.mp (getLast?_eq_none_iff.not.mpr hchain.ne_nil)
  obtain ⟨c, hc⟩ := hchain.segmentOf_getLast hback
  obtain ⟨p, hp⟩ := reassemble_eq hwf hchain hfront hback
  have hlsf : back.1.lsf := by
    rw [hc.header.lsf]
    simp
  refine ⟨p, ?_⟩
  rw [addSegmentAndCheck, insertSegment_filter hchain.sorted hmem, filter_eq_self.mpr hall,
    checkGaps_chain hchain]
  simp [hfront, hback, hlsf, hp]

theorem addSegmentAndCheck_of_missing (hchain : SegmentChain old data 0 segments)
    (hmem : segment ∈ segments) {held : AmdPdu → Bool}
    (hmiss : ∃ s ∈ segments, (held s || decide (s = segment)) = false) :
    addSegmentAndCheck (segments.filter held) segment =
      (segments.filter fun s => held s || decide (s = segment), .incomplete) := by
  have hkept := checkGaps_filter hchain fun s => held s || decide (s = segment)
  have hlsf := @lsf_of_missing _ _ _ _ hchain (fun s => held s || decide (s = segment)) hmiss
  have hin : segment ∈ segments.filter fun s => held s || decide (s = segment) :=
    mem_filter.mpr ⟨hmem, by simp⟩
  rw [addSegmentAndCheck, insertSegment_filter hchain.sorted hmem]
  generalize (segments.filter fun s => held s || decide (s = segment)) = list at *
  have hne : list ≠ [] := ne_nil_of_mem hin
  obtain ⟨front, hfront⟩ := ne_none_iff_exists'.mp (List.head?_eq_none_iff.not.mpr hne)
  obtain ⟨back, hback⟩ := ne_none_iff_exists'.mp (getLast?_eq_none_iff.not.mpr hne)
  rw [hkept, hfront, hback]
  cases hok : (checkGaps 0 list).2 with
  | false => rfl
  | true => simp [hlsf hok hback]

end RxSegments

end MbmsTx.Rlc.Am
