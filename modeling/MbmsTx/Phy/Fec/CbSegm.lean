import Mathlib.Algebra.Ring.Nat
import Mathlib.Data.List.Chain

/-!
# Code block segmentation

The code block sizes and the segmentation of a transport block, from `cbsegm.c`. The sizes are whole
bytes and increase, so looking up a size finds its own index (`cbindex_cbsize`).

The blocks have the smallest size with room for all bits or the one below it, and less than the
difference is filled, as long as the numbers of 32 bits do not wrap around.
-/

namespace MbmsTx.Phy.Fec

def tcCbSizes : List ℕ :=
  [40,48,56,64,72,80,88,96,104,112,120,128,136,144,152,160,168,176,184,192,200,208,216,224,232,240,
    248,256,264,272,280,288,296,304,312,320,328,336,344,352,360,368,376,384,392,400,408,416,424,432,
    440,448,456,464,472,480,488,496,504,512,528,544,560,576,592,608,624,640,656,672,688,704,720,736,
    752,768,784,800,816,832,848,864,880,896,912,928,944,960,976,992,1008,1024,1056,1088,1120,1152,
    1184,1216,1248,1280,1312,1344,1376,1408,1440,1472,1504,1536,1568,1600,1632,1664,1696,1728,1760,
    1792,1824,1856,1888,1920,1952,1984,2016,2048,2112,2176,2240,2304,2368,2432,2496,2560,2624,2688,
    2752,2816,2880,2944,3008,3072,3136,3200,3264,3328,3392,3456,3520,3584,3648,3712,3776,3840,3904,
    3968,4032,4096,4160,4224,4288,4352,4416,4480,4544,4608,4672,4736,4800,4864,4928,4992,5056,5120,
    5184,5248,5312,5376,5440,5504,5568,5632,5696,5760,5824,5888,5952,6016,6080,6144]

/-- `SRSRAN_NOF_TC_CB_SIZES`. -/
def nofTcCbSizes : ℕ := 188

/-- `SRSRAN_TCOD_MAX_LEN_CB`. -/
def tcodMaxLenCb : ℕ := 6144

/-- `srsran_cbsegm_cbindex`: the first size that is large enough. -/
def cbindex (longCb : ℕ) : Option ℕ :=
  let j := tcCbSizes.findIdx fun size => !decide (size < longCb)
  if j = nofTcCbSizes then none else some j

/-- `srsran_cbsegm_cbsize`. -/
def cbsize (index : ℕ) : Option ℕ :=
  if index < nofTcCbSizes then tcCbSizes[index]? else none

/-- `srsran_cbsegm_t` without the lifting size, which only LDPC uses. -/
structure CbSegm where
  tbs : ℕ
  c : ℕ
  k1 : ℕ
  k1Idx : ℕ
  k2 : ℕ
  k2Idx : ℕ
  c1 : ℕ
  c2 : ℕ
  lTb : ℕ
  lCb : ℕ
  f : ℕ
deriving DecidableEq

/-- The difference of two numbers of 32 bits. -/
def sub32 (a b : ℕ) : ℕ := (a + 2 ^ 32 - b) % 2 ^ 32

/-- `srsran_cbsegm` in 32 bits; `none` also for a division by zero. -/
def cbsegm32 (tbs : ℕ) : Option CbSegm :=
  if tbs = 0 then some ⟨0, 0, 0, 0, 0, 0, 0, 0, 0, 0, 0⟩
  else
    let b := (tbs + 24) % 2 ^ 32
    let c := if b ≤ tcodMaxLenCb then 1
      else (b + (tcodMaxLenCb - 24 - 1)) % 2 ^ 32 / (tcodMaxLenCb - 24)
    let bp := if b ≤ tcodMaxLenCb then b else (b + 24 * c) % 2 ^ 32
    if c = 0 then none
    else do
      let idx1 ← cbindex ((sub32 bp 1 / c + 1) % 2 ^ 32)
      let k1 ← cbsize idx1
      let prev ← (if 0 < idx1 then cbsize (idx1 - 1) else some k1 : Option ℕ)
      let k2 := if c = 1 then 0 else prev
      if k1 = k2 then none
      else
        let c2 := if c = 1 then 0 else sub32 (c * k1 % 2 ^ 32) bp / sub32 k1 k2
        let c1 := if c = 1 then 1 else sub32 c c2
        some
          { tbs := tbs, c := c, k1 := k1, k1Idx := idx1, k2 := k2
            k2Idx := if c = 1 then 0 else sub32 idx1 1, c1 := c1, c2 := c2, lTb := 24, lCb := 24
            f := sub32 ((c1 * k1 + c2 * k2) % 2 ^ 32) bp }

/-! ## The sizes of the table -/

theorem length_tcCbSizes : tcCbSizes.length = nofTcCbSizes := by rfl

theorem pairwise_tcCbSizes : tcCbSizes.Pairwise (· < ·) := by
  rw [← List.isChain_iff_pairwise]
  decide +kernel

theorem size_of_mem {k : ℕ} (hk : k ∈ tcCbSizes) : k % 8 = 0 ∧ 40 ≤ k ∧ k ≤ 6144 := by
  have hall : ∀ k ∈ tcCbSizes, k % 8 = 0 ∧ 40 ≤ k ∧ k ≤ 6144 := by decide +kernel
  exact hall k hk

theorem mem_of_cbsize {idx k : ℕ} (h : cbsize idx = some k) : k ∈ tcCbSizes := by
  rw [cbsize] at h
  split at h
  · exact List.mem_of_getElem? h
  · cases h

theorem cbsize_lt {idx k : ℕ} (h : cbsize idx = some k) : idx < nofTcCbSizes := by
  rw [cbsize] at h
  split at h
  · assumption
  · cases h

theorem cbsize_of_lt {idx : ℕ} (h : idx < nofTcCbSizes) : ∃ cbLen, cbsize idx = some cbLen := by
  rw [cbsize, if_pos h]
  rw [← length_tcCbSizes] at h
  exact ⟨_, List.getElem?_eq_getElem h⟩

theorem cbindex_cbsize {idx k : ℕ} (h : cbsize idx = some k) : cbindex k = some idx := by
  have hlt := cbsize_lt h
  rw [cbsize, if_pos hlt] at h
  obtain ⟨hidx, rfl⟩ := List.getElem?_eq_some_iff.mp h
  have hfind : tcCbSizes.findIdx (fun size => !decide (size < tcCbSizes[idx])) = idx := by
    rw [List.findIdx_eq hidx]
    refine ⟨by simp, ?_⟩
    intro j hj
    have := List.pairwise_iff_getElem.mp pairwise_tcCbSizes j idx (by omega) hidx hj
    simpa using this
  rw [cbindex, hfind, if_neg (by omega)]

theorem cbindex_eq_some {n idx : ℕ} (h : cbindex n = some idx) :
    (∀ k, cbsize idx = some k → n ≤ k) ∧ ∀ j k, j < idx → cbsize j = some k → k < n := by
  obtain ⟨found, hfound⟩ : ∃ j, j = tcCbSizes.findIdx fun size => !decide (size < n) := ⟨_, rfl⟩
  rw [cbindex, ← hfound] at h
  split at h
  · cases h
  cases h
  refine ⟨?_, ?_⟩
  · intro k hk
    rw [cbsize, if_pos (cbsize_lt hk)] at hk
    obtain ⟨hidx, rfl⟩ := List.getElem?_eq_some_iff.mp hk
    subst hfound
    have hp := @List.findIdx_getElem _ (fun size => !decide (size < n)) tcCbSizes hidx
    simpa using hp
  · intro j k hj hk
    rw [cbsize, if_pos (cbsize_lt hk)] at hk
    obtain ⟨hidx, rfl⟩ := List.getElem?_eq_some_iff.mp hk
    subst hfound
    have hp := List.not_of_lt_findIdx hj
    simpa using hp

/-! ## The segmentation -/

/-- What a segmentation amounts to: blocks of one size, or of two neighbouring sizes, with room for
the transport block with its checksum and, if there are several, for a checksum each; the rest is
filled. -/
structure Segmented (tbs : ℕ) (s : CbSegm) : Prop where
  blocks : s.c1 + s.c2 = s.c
  c1_pos : 0 < s.c1
  k1_mem : s.k1 ∈ tcCbSizes
  k2_mem : 0 < s.c2 → s.k2 ∈ tcCbSizes
  k2_lt : 0 < s.c2 → s.k2 < s.k1
  total : s.c1 * s.k1 + s.c2 * s.k2 = tbs + 24 + (if s.c = 1 then 0 else 24 * s.c) + s.f

/-- `K1` is the smallest size with room for all blocks, `K2` the one next to it, and the filling is
less than the difference. Nothing wraps around: `narrow` says so for the product, `room` and `below`
for the number of smaller blocks, and the sums over ℕ for the others. -/
structure SegmentedTightly (tbs : ℕ) (s : CbSegm) : Prop extends Segmented tbs s where
  k1_size : cbsize s.k1Idx = some s.k1
  next : s.c ≠ 1 → s.k1Idx = s.k2Idx + 1 ∧ cbsize s.k2Idx = some s.k2
  room : tbs + 24 + (if s.c = 1 then 0 else 24 * s.c) ≤ s.c * s.k1
  smallest : ∀ k ∈ tcCbSizes, tbs + 24 + (if s.c = 1 then 0 else 24 * s.c) ≤ s.c * k → s.k1 ≤ k
  narrow : s.c * s.k1 < 2 ^ 32
  below : s.k2 < s.k1
  filling : s.c ≠ 1 → s.f < s.k1 - s.k2

theorem two_sizes {c k1 k2 bp : ℕ} (hlt : k2 < k1) (hlow : c * k2 < bp) (hhigh : bp ≤ c * k1) :
    (c * k1 - bp) / (k1 - k2) < c ∧
      bp ≤ (c - (c * k1 - bp) / (k1 - k2)) * k1 + (c * k1 - bp) / (k1 - k2) * k2 ∧
      (c - (c * k1 - bp) / (k1 - k2)) * k1 + (c * k1 - bp) / (k1 - k2) * k2 <
        min (bp + (k1 - k2)) (c * k1 + 1) := by
  obtain ⟨c2, hc2⟩ : ∃ n, n = (c * k1 - bp) / (k1 - k2) := ⟨_, rfl⟩
  have hmul : (k1 - k2) * c = c * k1 - c * k2 := by rw [Nat.mul_comm, Nat.mul_sub]
  have hless : c2 < c := by
    rw [hc2]
    exact Nat.div_lt_of_lt_mul (by omega)
  have hround : c2 * (k1 - k2) ≤ c * k1 - bp ∧ c * k1 - bp < c2 * (k1 - k2) + (k1 - k2) := by
    rw [hc2]
    exact ⟨Nat.div_mul_le_self _ _, Nat.lt_div_mul_add (by omega)⟩
  rw [← hc2]
  rw [Nat.mul_sub] at hround
  have hle : c2 * k1 ≤ c * k1 := Nat.mul_le_mul_right k1 hless.le
  have hk : c2 * k2 ≤ c2 * k1 := Nat.mul_le_mul_left c2 hlt.le
  rw [Nat.sub_mul]
  omega

/-- The sizes that are found for `c` blocks with `bp` bits in total. -/
structure Sized (c bp idx k1 k2 : ℕ) : Prop where
  index : cbindex ((bp - 1) / c + 1) = some idx
  k1_size : cbsize idx = some k1
  room : bp ≤ c * k1
  smallest : ∀ k ∈ tcCbSizes, bp ≤ c * k → k1 ≤ k
  many : c ≠ 1 → 0 < idx ∧ k2 < k1 ∧ c * k2 < bp
  previous : (if 0 < idx then cbsize (idx - 1) else some k1) = some k2

theorem exists_sized {c bp : ℕ} (hc : 0 < c) (hbp : 0 < bp) (hle : bp ≤ c * 6144)
    (hmany : c ≠ 1 → c * 40 < bp) : ∃ idx k1 k2, Sized c bp idx k1 k2 := by
  -- a size has room for its share of the bits exactly if all blocks have room for all bits
  have hshare : ∀ k, (bp - 1) / c < k ↔ bp ≤ c * k := by
    intro k
    rw [Nat.div_lt_iff_lt_mul hc, Nat.mul_comm k c]
    omega
  obtain ⟨idx, hlt, hidx⟩ : ∃ idx < nofTcCbSizes, cbindex ((bp - 1) / c + 1) = some idx := by
    have hquot := (hshare 6144).mpr hle
    have hfound := @List.findIdx_lt_length_of_exists _
      (fun size => !decide (size < (bp - 1) / c + 1)) tcCbSizes
      ⟨6144, by decide, by rw [decide_eq_false (by omega)]; rfl⟩
    rw [length_tcCbSizes] at hfound
    exact ⟨_, hfound, if_neg hfound.ne⟩
  obtain ⟨k1, hk1⟩ := cbsize_of_lt hlt
  obtain ⟨hfits, hbelow⟩ := cbindex_eq_some hidx
  have hroom := (hshare k1).mp (hfits k1 hk1)
  obtain ⟨k2, hprevious⟩ : ∃ k2, (if 0 < idx then cbsize (idx - 1) else some k1) = some k2 := by
    split
    · exact cbsize_of_lt (by omega)
    · exact ⟨_, rfl⟩
  refine ⟨idx, k1, k2, hidx, hk1, hroom, fun k hk hle => ?_, fun hne => ?_, hprevious⟩
  · obtain ⟨j, hj, rfl⟩ := List.mem_iff_getElem.mp hk
    have hsize : cbsize j = some tcCbSizes[j] := by
      rw [cbsize, if_pos (length_tcCbSizes ▸ hj), List.getElem?_eq_getElem hj]
    have hfit := (hshare _).mpr hle
    rcases Nat.lt_trichotomy j idx with hbefore | rfl | hafter
    · exact absurd (hbelow j _ hbefore hsize) (by omega)
    · exact (Option.some.inj (hk1.symm.trans hsize)).le
    · exact ((cbindex_eq_some (cbindex_cbsize hsize)).2 idx k1 hafter hk1).le
  · have hpos : 0 < idx := by
      rcases Nat.eq_zero_or_pos idx with rfl | hpos
      · obtain rfl : 40 = k1 := Option.some.inj hk1
        exact absurd hroom (Nat.not_le_of_lt (hmany hne))
      · exact hpos
    rw [if_pos hpos] at hprevious
    have hless := hbelow (idx - 1) k2 (by omega) hprevious
    have hsize := hfits k1 hk1
    exact ⟨hpos, by omega, Nat.lt_of_not_le ((hshare k2).not.mp (by omega))⟩

/-- The segmentation for given sizes. -/
def segmOf (tbs c bp idx k1 prev : ℕ) : CbSegm :=
  let k2 := if c = 1 then 0 else prev
  let c2 := if c = 1 then 0 else (c * k1 - bp) / (k1 - k2)
  let c1 := if c = 1 then 1 else c - c2
  { tbs := tbs, c := c, k1 := k1, k1Idx := idx, k2 := k2, k2Idx := if c = 1 then 0 else idx - 1,
    c1 := c1, c2 := c2, lTb := 24, lCb := 24, f := c1 * k1 + c2 * k2 - bp }

theorem sub32_eq {a b : ℕ} (ha : a < 2 ^ 32) (hle : b ≤ a) : sub32 a b = a - b := by
  rw [sub32]
  omega

theorem bounds_of_blocks {tbs c bp : ℕ} (hle : tbs ≤ 4278185976)
    (hc : c = if tbs + 24 ≤ tcodMaxLenCb then 1
      else (tbs + 24 + (tcodMaxLenCb - 24 - 1)) % 2 ^ 32 / (tcodMaxLenCb - 24))
    (hbp : bp = if tbs + 24 ≤ tcodMaxLenCb then tbs + 24 else (tbs + 24 + 24 * c) % 2 ^ 32) :
    0 < c ∧ c ≤ 699050 ∧ tbs + 24 + (if c = 1 then 0 else 24 * c) = bp ∧ bp ≤ c * 6144 ∧
      (c ≠ 1 → c * 40 < bp) := by
  by_cases hone : tbs + 24 ≤ tcodMaxLenCb
  · rw [if_pos hone] at hc hbp
    subst hc hbp
    exact ⟨Nat.one_pos, by decide, rfl, by rwa [Nat.one_mul], absurd rfl⟩
  · rw [if_neg hone] at hc hbp
    simp only [tcodMaxLenCb] at hc hone
    rw [Nat.mod_eq_of_lt (by omega)] at hc hbp
    rw [if_neg (by omega)]
    omega

/-- Up to 699050 code blocks nothing wraps around. -/
theorem exists_cbsegm32 {tbs : ℕ} (htbs : tbs ≠ 0) (hle : tbs ≤ 4278185976) :
    ∃ c bp idx k1 prev, Sized c bp idx k1 prev ∧ c * k1 < 2 ^ 32 ∧
      tbs + 24 + (if c = 1 then 0 else 24 * c) = bp ∧
      cbsegm32 tbs = some (segmOf tbs c bp idx k1 prev) := by
  have hb : (tbs + 24) % 2 ^ 32 = tbs + 24 := by omega
  obtain ⟨c, hc⟩ : ∃ c, c = if tbs + 24 ≤ tcodMaxLenCb then 1
      else (tbs + 24 + (tcodMaxLenCb - 24 - 1)) % 2 ^ 32 / (tcodMaxLenCb - 24) := ⟨_, rfl⟩
  obtain ⟨bp, hbp⟩ : ∃ bp, bp = if tbs + 24 ≤ tcodMaxLenCb then tbs + 24
      else (tbs + 24 + 24 * c) % 2 ^ 32 := ⟨_, rfl⟩
  obtain ⟨hpos, hfew, htotal, hroom, hmany⟩ := bounds_of_blocks hle hc hbp
  obtain ⟨idx, k1, prev, hsized⟩ := exists_sized hpos (by omega) hroom hmany
  have hk1 := size_of_mem (mem_of_cbsize hsized.k1_size)
  have hroom := hsized.room
  have hfit : c * k1 ≤ 699050 * 6144 := Nat.mul_le_mul hfew hk1.2.2
  have hindex : (sub32 bp 1 / c + 1) % 2 ^ 32 = (bp - 1) / c + 1 := by
    have hquot : (bp - 1) / c ≤ bp - 1 := Nat.div_le_self _ _
    rw [sub32_eq (by omega) (by omega), Nat.mod_eq_of_lt (by omega)]
  refine ⟨c, bp, idx, k1, prev, hsized, by omega, htotal, ?_⟩
  rw [cbsegm32, if_neg htbs]
  simp only [hb, ← hc, ← hbp, if_neg hpos.ne', hindex, hsized.index, Option.bind_eq_bind,
    Option.bind_some, hsized.k1_size, hsized.previous]
  by_cases hone : c = 1
  · subst hone
    simp only [segmOf, if_true]
    rw [if_neg (by omega), sub32_eq (by omega) (by omega), Nat.mod_eq_of_lt (by omega)]
  · obtain ⟨hidx, hless, hlow⟩ := hsized.many hone
    have hidx' := cbsize_lt hsized.k1_size
    obtain ⟨hc2, htotal, hfilling⟩ := two_sizes hless hlow hroom
    simp only [segmOf, if_neg hone, if_neg hless.ne',
      Nat.mod_eq_of_lt (show c * k1 < 2 ^ 32 by omega),
      sub32_eq (show c * k1 < 2 ^ 32 by omega) hroom, sub32_eq (show k1 < 2 ^ 32 by omega) hless.le,
      sub32_eq (show c < 2 ^ 32 by omega) hc2.le]
    rw [sub32_eq (hidx'.trans (by decide)) hidx, Nat.mod_eq_of_lt (by omega),
      sub32_eq (by omega) htotal]

theorem segmentedTightly_segmOf {tbs c bp idx k1 prev : ℕ} (h : Sized c bp idx k1 prev)
    (hnarrow : c * k1 < 2 ^ 32) (hbp : tbs + 24 + (if c = 1 then 0 else 24 * c) = bp) :
    SegmentedTightly tbs (segmOf tbs c bp idx k1 prev) := by
  have hroom := h.room
  have hmem := mem_of_cbsize h.k1_size
  by_cases hone : c = 1
  · simp only [segmOf, if_pos hone]
    refine ⟨⟨hone.symm, Nat.one_pos, hmem, nofun, nofun, ?_⟩, h.k1_size, absurd hone, ?_, ?_,
      hnarrow, Nat.lt_of_lt_of_le (Nat.succ_pos 39) (size_of_mem hmem).2.1, absurd hone⟩
    · rw [hbp]
      dsimp only
      rw [hone] at hroom
      omega
    · rw [hbp]
      exact hroom
    · rw [hbp]
      exact h.smallest
  · obtain ⟨hidx, hless, hlow⟩ := h.many hone
    have hprevious := h.previous
    rw [if_pos hidx] at hprevious
    obtain ⟨hc2, htotal, hfilling⟩ := two_sizes hless hlow hroom
    simp only [segmOf, if_neg hone]
    refine ⟨⟨Nat.sub_add_cancel hc2.le, Nat.sub_pos_of_lt hc2, hmem,
      fun _ => mem_of_cbsize hprevious, fun _ => hless, ?_⟩, h.k1_size,
      fun _ => ⟨(Nat.sub_add_cancel hidx).symm, hprevious⟩, ?_, ?_, hnarrow, hless, fun _ => ?_⟩
    · rw [hbp]
      dsimp only
      omega
    · rw [hbp]
      exact hroom
    · rw [hbp]
      exact h.smallest
    · dsimp only
      omega

theorem segmented_of_cbsegm32 {tbs : ℕ} {s : CbSegm} (htbs : tbs ≠ 0) (hle : tbs ≤ 4278185976)
    (h : cbsegm32 tbs = some s) : Segmented tbs s := by
  obtain ⟨c, bp, idx, k1, prev, hsized, hnarrow, hbp, hsegm⟩ := exists_cbsegm32 htbs hle
  obtain rfl := Option.some.inj (hsegm.symm.trans h)
  exact (segmentedTightly_segmOf hsized hnarrow hbp).toSegmented

/-- Every transport block of at most 699050 code blocks. -/
theorem segmentedTightly_cbsegm32 {tbs : ℕ} (hpos : 1 ≤ tbs) (hle : tbs ≤ 4278185976) :
    ∃ s, cbsegm32 tbs = some s ∧ SegmentedTightly tbs s := by
  obtain ⟨c, bp, idx, k1, prev, hsized, hnarrow, hbp, hsegm⟩ :=
    exists_cbsegm32 (Nat.ne_of_gt hpos) hle
  exact ⟨_, hsegm, segmentedTightly_segmOf hsized hnarrow hbp⟩

theorem segmentedTightly_cbsegm32_6121 :
    ∃ s, cbsegm32 6121 = some s ∧ SegmentedTightly 6121 s :=
  segmentedTightly_cbsegm32 (by decide) (by decide)

/-- With the checksum the largest transport blocks wrap around. -/
theorem not_segmentedTightly : ¬ ∃ s, cbsegm32 (2 ^ 32 - 24) = some s ∧
    SegmentedTightly (2 ^ 32 - 24) s := by
  rintro ⟨s, hsegm, htight⟩
  have hvalue : cbsegm32 (2 ^ 32 - 24) = some ⟨2 ^ 32 - 24, 1, 40, 0, 0, 0, 1, 0, 24, 24, 40⟩ := by
    decide +kernel
  obtain rfl := Option.some.inj (hvalue.symm.trans hsegm)
  exact absurd htight.room (by decide)

end MbmsTx.Phy.Fec
