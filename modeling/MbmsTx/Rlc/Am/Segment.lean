import MbmsTx.Rlc.Am.Header

/-!
# Re-segmentation of an AMD PDU

A PDU that does not fit a grant is retransmitted in segments. `segmentOf` is what `build_segment`
computes: the header and the end of the segment that starts at `soStart`, from the header of the PDU
and the size of the grant. The loop keeps the length indicators of the SDU parts inside the segment,
all but the last one, and ends the segment at the boundary of an SDU where another one does not fit.
-/

namespace MbmsTx.Rlc.Am

/-- The part of the SDU from `lower` to `upper` between `soStart` and `soEnd`, as a length
indicator: `uint32_t` arithmetic, stored in 16 bits. -/
def partLen (soStart soEnd lower upper : ℕ) : ℕ :=
  let li := sub32 upper lower
  let li := if soEnd < upper then sub32 li (sub32 upper soEnd) else li
  let li := if lower < soStart then sub32 li (sub32 soStart lower) else li
  li % 2 ^ 16

/-- The variables of the loop of `build_segment`; `upper` is `lower` plus the length indicator of
the round. -/
structure SegState where
  lower : ℕ
  soEnd : ℕ
  fi : Fi
  li : List ℕ
deriving DecidableEq

/-- The end of the segment cut to the room in the grant. -/
def clampSoEnd (pduSpace soStart soEnd : ℕ) : ℕ :=
  if pduSpace < sub32 soEnd soStart then soStart + pduSpace else soEnd

/-- One round of the loop of `build_segment`, for the old length indicator `l`. -/
def SegState.round (nofBytes soStart l : ℕ) (st : SegState) : SegState :=
  let upper := st.lower + l
  let soEnd :=
    clampSoEnd (nofBytes - packedLengthOf true st.li.length) soStart st.soEnd
  if soStart < upper ∧ st.lower < soEnd then
    let li := partLen soStart soEnd st.lower upper
    let fi := if 0 < st.lower ∧ st.lower = soStart then st.fi &&& Fi.notEndAligned else st.fi
    let fi := if upper = soEnd then fi &&& Fi.notStartAligned else fi
    if upper < soEnd then
      if (packedLengthOf true (st.li.length + 1) + sub32 soEnd soStart) % 2 ^ 32 ≤ nofBytes then
        { lower := upper, soEnd := soEnd, fi := fi, li := st.li ++ [li] }
      else
        -- no room for another length indicator: the segment ends with this SDU
        { lower := upper
          soEnd := soStart + (st.li.sum + li)
          fi := fi &&& Fi.notStartAligned
          li := st.li }
    else
      { lower := upper, soEnd := soEnd, fi := fi, li := st.li }
  else
    { lower := upper, soEnd := soEnd, fi := st.fi, li := st.li }

/-- The loop of `build_segment` over the old length indicators. -/
def SegState.loop (nofBytes soStart : ℕ) : List ℕ → SegState → SegState
  | [], st => st
  | l :: ls, st =>
    if st.soEnd ≤ st.lower then st
    else SegState.loop nofBytes soStart ls (st.round nofBytes soStart l)

/-- The header bytes that `build_segment` sets aside, with one length indicator if the old header
has one. -/
def segmentHeadLen (old : AmdHeader) : ℕ :=
  packedLengthOf true 0 + if old.li = [] then 0 else 2

/-- The variables of `build_segment` at the start of the loop. -/
def SegState.init (old : AmdHeader) (nofBytes soStart soEnd : ℕ) : SegState where
  lower := 0
  soEnd := clampSoEnd (nofBytes - segmentHeadLen old) soStart soEnd
  fi :=
    if soStart = 0 ∧ old.fi.startAligned then Fi.notStartOrEndAligned &&& Fi.notEndAligned
    else Fi.notStartOrEndAligned
  li := []

/-- The segment that `build_segment` sends of `nBytes` bytes: its header and its end, or nothing
when the grant does not fit a header and a byte. -/
def segmentOf (old : AmdHeader) (nBytes nofBytes soStart soEnd : ℕ) (p : Bool) :
    Option (AmdHeader × ℕ) :=
  if nofBytes ≤ segmentHeadLen old then none
  else
    let st := SegState.loop nofBytes soStart old.li (SegState.init old nofBytes soStart soEnd)
    let lsf := decide (nBytes = st.soEnd)
    some
      ({ rf := true
         p := p
         fi := if lsf && old.fi.endAligned then st.fi &&& Fi.notStartAligned else st.fi
         sn := old.sn
         lsf := lsf
         so := soStart
         li := st.li }, st.soEnd)

/-- The length indicators that `required_buffer_size` counts for the range from `soStart` to
`soEnd`, with the first SDU of the list from `lower` on. -/
def neededLis (soStart soEnd : ℕ) : ℕ → List ℕ → ℕ
  | _, [] => 0
  | lower, l :: ls =>
    if soEnd ≤ lower then 0
    else
      (if soStart < lower + l ∧ lower < soEnd then 1 else 0) +
        neededLis soStart soEnd (lower + l) ls

end MbmsTx.Rlc.Am
