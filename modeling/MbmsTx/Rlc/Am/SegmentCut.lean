import MbmsTx.Common.ByteBuffer
import MbmsTx.Lib.Marks
import MbmsTx.Rlc.Am.Segment

/-!
# What a segment says about the PDU

The length indicators of a PDU mark where its SDUs end. The segment from `a` to `b` that
`build_segment` makes has the marks strictly between `a` and `b` in its own length indicators, and
says with its framing info whether its end is a mark (`segmentOf_spec`), which is what the receiver
needs to put the header together again.
-/

namespace MbmsTx.Rlc.Am

open List

/-! ## The arithmetic of a round -/

variable {soEnd : ℕ}

theorem clampSoEnd_eq_min {space soStart : ℕ} (hle : soStart ≤ soEnd)
    (hsmall : soEnd < 2 ^ 32) : clampSoEnd space soStart soEnd = min soEnd (soStart + space) := by
  rw [clampSoEnd, sub32_of_le hle hsmall]
  split <;> omega

theorem partLen_eq {soStart lower upper : ℕ} (hlower : lower < upper)
    (hstart : soStart < upper) (hend : upper ≤ soEnd) (hsmall : soEnd < 2 ^ 16) :
    partLen soStart soEnd lower upper = upper - max lower soStart := by
  unfold partLen
  dsimp only
  rw [if_neg (Nat.not_lt.mpr hend), sub32_of_le hlower.le (by omega)]
  by_cases h : lower < soStart
  · rw [if_pos h, sub32_of_le h.le (by omega), sub32_of_le (by omega) (by omega), max_eq_right h.le]
    omega
  · rw [if_neg h, max_eq_left (Nat.not_lt.mp h)]
    omega

namespace SegState

variable {nofBytes soStart l : ℕ} {st : SegState} {ls : List ℕ}

/-- The loop goes on: the segment fits the grant with the length indicators so far, those of the
SDUs that end between `soStart` and `lower`. -/
structure Ready (nofBytes soStart : ℕ) (st : SegState) : Prop where
  start_lt : soStart < st.soEnd
  lower_lt : st.lower < st.soEnd
  small : st.soEnd < 2 ^ 16
  fits : packedLengthOf true st.li.length + (st.soEnd - soStart) ≤ nofBytes
  length_le : st.li.length ≤ st.lower
  sum_li : st.lower ≤ soStart ∧ st.li = [] ∨ soStart < st.lower ∧ soStart + st.li.sum = st.lower
  notEnd : st.fi.notEnd = true

section

variable (h : Ready nofBytes soStart st)
include h

theorem Ready.clamp :
    clampSoEnd (nofBytes - packedLengthOf true st.li.length) soStart st.soEnd = st.soEnd := by
  have hfits := h.fits
  have hstart := h.start_lt
  have hsmall := h.small
  rw [clampSoEnd_eq_min hstart.le (by omega)]
  omega

theorem Ready.sum_add_part (hstart : soStart < st.lower + l) :
    soStart + (st.li.sum + (st.lower + l - max st.lower soStart)) = st.lower + l := by
  rcases h.sum_li with ⟨hle, hnil⟩ | ⟨hgt, hsum⟩
  · rw [hnil, sum_nil, max_eq_right hle]
    omega
  omega

theorem Ready.round_before (hupper : st.lower + l ≤ soStart) :
    st.round nofBytes soStart l = { st with lower := st.lower + l } := by
  unfold round
  simp only [h.clamp]
  rw [if_neg (by omega)]

/-- The framing info in a round for an SDU with a part in the segment: an SDU that starts with the
segment is recorded. -/
def startFi (soStart : ℕ) (st : SegState) : Fi :=
  if 0 < st.lower ∧ st.lower = soStart then st.fi &&& Fi.notEndAligned else st.fi

theorem Ready.notEnd_startFi : (startFi soStart st).notEnd := by
  have hfi := h.notEnd
  unfold startFi
  split
  · rw [Fi.and_notEndAligned]
    exact hfi
  · exact hfi

theorem Ready.round_push (hl : 0 < l) (hstart : soStart < st.lower + l)
    (hend : st.lower + l < st.soEnd)
    (hroom : packedLengthOf true (st.li.length + 1) + (st.soEnd - soStart) ≤ nofBytes) :
    st.round nofBytes soStart l =
      { lower := st.lower + l
        soEnd := st.soEnd
        fi := startFi soStart st
        li := st.li ++ [st.lower + l - max st.lower soStart] } := by
  have hlt := h.start_lt
  have hsmall := h.small
  unfold round
  simp only [h.clamp]
  rw [if_pos ⟨hstart, h.lower_lt⟩, if_neg hend.ne, if_pos hend, sub32_of_le hlt.le (by omega),
    if_pos ((Nat.mod_le _ _).trans hroom), partLen_eq (by omega) hstart hend.le hsmall]
  rfl

/-- The SDU ends in the segment without room for its length indicator: the segment is cut there. -/
theorem Ready.round_cut (hl : 0 < l) (hstart : soStart < st.lower + l)
    (hend : st.lower + l < st.soEnd)
    (hroom : ¬ packedLengthOf true (st.li.length + 1) + (st.soEnd - soStart) ≤ nofBytes) :
    st.round nofBytes soStart l =
      { lower := st.lower + l
        soEnd := st.lower + l
        fi := ⟨(startFi soStart st).notStart, false⟩
        li := st.li } := by
  have hlt := h.start_lt
  have hsmall := h.small
  have hlength := h.length_le
  have hpacked : packedLengthOf true (st.li.length + 1) ≤ 2 ^ 18 := by
    simp [packedLengthOf]
    omega
  unfold round
  simp only [h.clamp]
  rw [if_pos ⟨hstart, h.lower_lt⟩, if_neg hend.ne, if_pos hend, sub32_of_le hlt.le (by omega),
    if_neg (by omega), partLen_eq (by omega) hstart hend.le hsmall, h.sum_add_part hstart,
    Fi.and_notStartAligned]
  rfl

theorem Ready.round_end (hend : st.lower + l = st.soEnd) : st.round nofBytes soStart l =
      { lower := st.lower + l
        soEnd := st.soEnd
        fi := ⟨(startFi soStart st).notStart, false⟩
        li := st.li } := by
  have hlt := h.start_lt
  unfold round
  simp only [h.clamp]
  rw [if_pos ⟨by omega, h.lower_lt⟩, if_pos hend, if_neg (by omega), Fi.and_notStartAligned]
  rfl

theorem Ready.round_behind (hend : st.soEnd < st.lower + l) : st.round nofBytes soStart l =
      { lower := st.lower + l
        soEnd := st.soEnd
        fi := startFi soStart st
        li := st.li } := by
  have hlt := h.start_lt
  unfold round
  simp only [h.clamp]
  rw [if_pos ⟨by omega, h.lower_lt⟩, if_neg hend.ne', if_neg (by omega)]
  rfl

end

/-! ## The loop -/

theorem loop_of_le (hle : st.soEnd ≤ st.lower) (ls : List ℕ) :
    loop nofBytes soStart ls st = st := by
  cases ls with
  | nil => rfl
  | cons l ls => rw [loop, if_pos hle]

/-- What the loop makes of a state, for the length indicators `ls` left: the segment gets the marks
of `ls` inside it, and its end is aligned if it is one of them. -/
structure Cut (nofBytes soStart : ℕ) (st : SegState) (ls : List ℕ) (st' : SegState) : Prop where
  start_lt : soStart < st'.soEnd
  lower_lt : st.lower < st'.soEnd
  end_le : st'.soEnd ≤ st.soEnd
  fits : packedLengthOf true st'.li.length + (st'.soEnd - soStart) ≤ nofBytes
  marks_li : marks soStart st'.li = marks soStart st.li ++
    (marks st.lower ls).filter fun m => decide (soStart < m) && decide (m < st'.soEnd)
  notEnd : st'.fi.notEnd = false ↔ st'.soEnd ∈ marks st.lower ls
  notStart : soStart = 0 → st'.fi.notStart = st.fi.notStart

theorem notStart_startFi_zero (st : SegState) : (startFi 0 st).notStart = st.fi.notStart := by
  rw [startFi, if_neg (by omega)]

theorem Cut.of_before {st' : SegState} (hupper : st.lower + l ≤ soStart)
    (h : Cut nofBytes soStart { st with lower := st.lower + l } ls st') :
    Cut nofBytes soStart st (l :: ls) st' where
  start_lt := h.start_lt
  lower_lt := (Nat.le_add_right _ _).trans_lt h.lower_lt
  end_le := h.end_le
  fits := h.fits
  marks_li := by
    rw [h.marks_li, marks_cons, filter_cons_of_neg]
    simp
    omega
  notEnd := by
    have hstart := h.start_lt
    rw [h.notEnd, marks_cons, mem_cons, or_iff_right]
    omega
  notStart := h.notStart

theorem Cut.of_push {st' : SegState} (hst : Ready nofBytes soStart st)
    (hstart : soStart < st.lower + l)
    (h : Cut nofBytes soStart
      { lower := st.lower + l
        soEnd := st.soEnd
        fi := startFi soStart st
        li := st.li ++ [st.lower + l - max st.lower soStart] } ls st') :
    Cut nofBytes soStart st (l :: ls) st' where
  start_lt := h.start_lt
  lower_lt := (Nat.le_add_right _ _).trans_lt h.lower_lt
  end_le := h.end_le
  fits := h.fits
  marks_li := by
    have hend := h.lower_lt
    rw [h.marks_li, marks_append, marks_cons, marks_nil, add_assoc, hst.sum_add_part hstart,
      marks_cons, filter_cons_of_pos, append_assoc, singleton_append]
    simp [hstart, hend]
  notEnd := by
    have hend := h.lower_lt
    dsimp only at hend
    rw [h.notEnd, marks_cons, mem_cons, or_iff_right]
    omega
  notStart := by
    intro hzero
    rw [h.notStart hzero, hzero]
    exact notStart_startFi_zero st

/-- The last round: no SDU of the list ends inside the segment. -/
theorem Cut.of_last (hst : Ready nofBytes soStart st) {fi : Fi}
    (hpos : ∀ l ∈ ls, 0 < l) (hstart : soStart < soEnd) (hlower : st.lower < soEnd)
    (hle : soEnd ≤ st.soEnd)
    (hupper : soEnd ≤ st.lower + l) (hfi : fi.notEnd = false ↔ soEnd = st.lower + l)
    (hnotStart : fi.notStart = (startFi soStart st).notStart) :
    Cut nofBytes soStart st (l :: ls)
      { lower := st.lower + l, soEnd := soEnd, fi := fi, li := st.li } where
  start_lt := hstart
  lower_lt := hlower
  end_le := hle
  fits := by
    have hfits := hst.fits
    dsimp only
    omega
  marks_li := by
    rw [marks_cons, filter_cons_of_neg, filter_marks_eq_nil hpos, append_nil]
    · exact hupper.trans (Nat.le_succ _)
    · simp
      omega
  notEnd := by
    rw [hfi, marks_cons, mem_cons]
    constructor
    · exact Or.inl
    · rintro (heq | hmem)
      · exact heq
      · have hlt := lt_of_mem_marks hpos hmem
        dsimp only at hlt
        omega
  notStart := by
    intro hzero
    rw [hnotStart, hzero]
    exact notStart_startFi_zero st

theorem Ready.cut_loop (hst : Ready nofBytes soStart st) (hpos : ∀ l ∈ ls, 0 < l) :
    Cut nofBytes soStart st ls (loop nofBytes soStart ls st) := by
  -- by induction on the length indicators that are left; a round that ends the segment ends the
  -- loop
  induction ls generalizing st with
  | nil =>
    refine ⟨hst.start_lt, hst.lower_lt, le_rfl, hst.fits, by simp [loop], ?_, fun _ => rfl⟩
    simp [loop, hst.notEnd]
  | cons l ls ih =>
    have hl : 0 < l := hpos l (by simp)
    have hls : ∀ k ∈ ls, 0 < k := fun k hk => hpos k (mem_cons_of_mem _ hk)
    have hlower := hst.lower_lt
    have hstart := hst.start_lt
    rw [loop, if_neg (by omega)]
    by_cases hbefore : st.lower + l ≤ soStart
    · rw [hst.round_before hbefore]
      refine Cut.of_before hbefore (ih ?_ hls)
      have hlength := hst.length_le
      have hli : st.li = [] := by
        rcases hst.sum_li with ⟨-, hnil⟩ | ⟨hgt, -⟩
        · exact hnil
        · omega
      exact ⟨hstart, by dsimp only; omega, hst.small, hst.fits, by dsimp only; omega,
        .inl ⟨hbefore, hli⟩, hst.notEnd⟩
    · rcases lt_trichotomy (st.lower + l) st.soEnd with hend | hend | hend
      · by_cases hroom :
          packedLengthOf true (st.li.length + 1) + (st.soEnd - soStart) ≤ nofBytes
        · rw [hst.round_push hl (by omega) hend hroom]
          refine Cut.of_push hst (by omega) (ih ?_ hls)
          have hlength := hst.length_le
          have hsum : soStart + (st.li ++ [st.lower + l - max st.lower soStart]).sum =
              st.lower + l := by
            rw [sum_append, sum_singleton]
            exact hst.sum_add_part (by omega)
          refine ⟨hstart, hend, hst.small, ?_, ?_, .inr ⟨by dsimp only; omega, hsum⟩,
            hst.notEnd_startFi⟩
          · rw [length_append, length_singleton]
            exact hroom
          · rw [length_append, length_singleton]
            dsimp only
            omega
        · rw [hst.round_cut hl (by omega) hend hroom, loop_of_le le_rfl]
          exact Cut.of_last hst hls (by omega) (by omega) hend.le le_rfl (by simp) rfl
      · rw [hst.round_end hend, loop_of_le (le_of_eq hend.symm)]
        exact Cut.of_last hst hls hstart hlower le_rfl hend.ge (by simp [hend]) rfl
      · rw [hst.round_behind hend, loop_of_le hend.le]
        refine Cut.of_last hst hls hstart hlower le_rfl hend.le ?_ rfl
        simp [hst.notEnd_startFi]
        omega

end SegState

/-! ## The segment -/

/-- The header of an AMD PDU with `nBytes` bytes of data: the length indicators of all its SDU parts
but the last, which is not empty, and the data fits a buffer. -/
structure AmdHeader.WellFormed (header : AmdHeader) (nBytes : ℕ) : Prop where
  li_range : ∀ l ∈ header.li, 1 ≤ l ∧ l ≤ 2047
  sum_lt : header.li.sum < nBytes
  le_tailroom : nBytes ≤ maxBufferSizeBytes - bufferHeaderOffset

variable {nBytes a : ℕ} {header old : AmdHeader}

theorem AmdHeader.WellFormed.li_pos (h : header.WellFormed nBytes) :
    ∀ l ∈ header.li, 0 < l := fun l hl => (h.li_range l hl).1

theorem AmdHeader.WellFormed.lt_two_pow (h : header.WellFormed nBytes) : nBytes < 2 ^ 16 := by
  have hle := h.le_tailroom
  have htail : maxBufferSizeBytes - bufferHeaderOffset < 2 ^ 16 := by decide
  omega

/-- The header of the segment from `a` to `b` of a PDU with the header `old` and `nBytes` bytes of
data. -/
structure IsSegment (old : AmdHeader) (nBytes a b : ℕ) (header : AmdHeader) : Prop where
  lt : a < b
  le : b ≤ nBytes
  sn : header.sn = old.sn
  so : header.so = a
  lsf : header.lsf = decide (nBytes = b)
  marks_li : marks a header.li = (marks 0 old.li).filter fun m => decide (a < m) && decide (m < b)
  notEnd : header.fi.notEnd = false ↔ b ∈ marks 0 old.li ∨ nBytes = b ∧ old.fi.notEnd = false
  notStart : a = 0 → header.fi.notStart = old.fi.notStart

section

variable {nofBytes : ℕ} (ha : a < nBytes) (hsmall : nBytes < 2 ^ 16)
  (hgrant : segmentHeadLen old < nofBytes)
include ha hsmall hgrant

omit hgrant in
theorem clampSoEnd_init : clampSoEnd (nofBytes - segmentHeadLen old) a nBytes =
    min nBytes (a + (nofBytes - segmentHeadLen old)) :=
  clampSoEnd_eq_min ha.le (by omega)

theorem SegState.ready_init : SegState.Ready nofBytes a (SegState.init old nofBytes a nBytes) := by
  have hpacked : packedLengthOf true 0 = 4 := rfl
  have hhead : 4 ≤ segmentHeadLen old := by
    rw [segmentHeadLen, hpacked]
    omega
  have hclamp := @clampSoEnd_init nBytes a old nofBytes ha hsmall
  refine ⟨?_, ?_, ?_, ?_, Nat.le_refl 0, .inl ⟨Nat.zero_le _, rfl⟩, ?_⟩
  · change a < clampSoEnd _ _ _
    omega
  · change 0 < clampSoEnd _ _ _
    omega
  · change clampSoEnd _ _ _ < _
    omega
  · change packedLengthOf true 0 + (clampSoEnd _ _ _ - a) ≤ nofBytes
    omega
  · unfold SegState.init
    split
    · rfl
    · rfl

/-- The loop of `build_segment` from `a` on ends in the range. -/
theorem SegState.soEnd_loop_le (hpos : ∀ l ∈ old.li, 0 < l) :
    (SegState.loop nofBytes a old.li (SegState.init old nofBytes a nBytes)).soEnd ≤ nBytes := by
  have hend := ((SegState.ready_init ha hsmall hgrant).cut_loop hpos).end_le
  have hclamp := @clampSoEnd_init nBytes a old nofBytes ha hsmall
  change _ ≤ clampSoEnd _ _ _ at hend
  omega

end

/-- The segment that `build_segment` makes is not empty and lies in its range. -/
theorem segmentOf_range {nofBytes b c : ℕ} {p : Bool}
    (hpos : ∀ l ∈ old.li, 0 < l) (hab : a < b) (hsmall : b < 2 ^ 16)
    (h : segmentOf old nBytes nofBytes a b p = some (header, c)) : a < c ∧ c ≤ b := by
  unfold segmentOf at h
  split at h
  · cases h
  rename_i hgrant
  have hgrant := Nat.not_le.mp hgrant
  obtain ⟨-, rfl⟩ := Prod.mk.inj (Option.some.inj h)
  exact ⟨((SegState.ready_init hab hsmall hgrant).cut_loop hpos).start_lt,
    SegState.soEnd_loop_le hab hsmall hgrant hpos⟩

/-- The segment of `build_segment`, from `a` on. -/
theorem segmentOf_spec {nofBytes b : ℕ} {p : Bool} (hwf : old.WellFormed nBytes) (ha : a < nBytes)
    (h : segmentOf old nBytes nofBytes a nBytes p = some (header, b)) :
    IsSegment old nBytes a b header := by
  unfold segmentOf at h
  split at h
  · cases h
  rename_i hgrant
  have hready := SegState.ready_init ha hwf.lt_two_pow (Nat.not_le.mp hgrant)
  have hcut := hready.cut_loop hwf.li_pos
  have hle := SegState.soEnd_loop_le ha hwf.lt_two_pow (Nat.not_le.mp hgrant) hwf.li_pos
  obtain ⟨hheader, rfl⟩ := Prod.mk.inj (Option.some.inj h)
  generalize SegState.loop nofBytes a old.li (SegState.init old nofBytes a nBytes) = st
    at hcut hheader hle
  -- the last mark lies before the end of the data
  have hmark : nBytes ∉ marks 0 old.li := fun hmem => by
    have hmem := le_of_mem_marks hmem
    have hsum := hwf.sum_lt
    omega
  subst hheader
  refine ⟨hcut.start_lt, hle, rfl, rfl, rfl, ?_, ?_, ?_⟩
  · exact hcut.marks_li
  · have hend : st.fi.notEnd = false ↔ st.soEnd ∈ marks 0 old.li := hcut.notEnd
    by_cases hlast : nBytes = st.soEnd
    · rw [← hlast] at hend ⊢
      rw [Fi.endAligned_eq]
      cases hold : old.fi.notEnd with
      | false => simp
      | true => simp [hmark, hend]
    · simp [hlast, hend]
  · intro hzero
    have hstart := hcut.notStart hzero
    have hinit : (SegState.init old nofBytes a nBytes).fi.notStart = old.fi.notStart := by
      unfold SegState.init
      rw [Fi.startAligned_eq, hzero]
      cases old.fi.notStart with
      | false => rfl
      | true => rfl
    rw [hinit] at hstart
    split
    · rw [Fi.and_notStartAligned]
      exact hstart
    · exact hstart

end MbmsTx.Rlc.Am
