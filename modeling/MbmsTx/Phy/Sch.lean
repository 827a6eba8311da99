import Mathlib.Algebra.BigOperators.Group.Finset.Basic
import Mathlib.Tactic.Ring
import MbmsTx.Phy.Fec.CbSegm

/-!
# The layout of the code blocks of a transport block

`encode_tb_off` and `decode_tb_cb` of `sch.c` each derive where the data and the coded bits of a
code block are. The encoder puts the smaller blocks first and adds up what it has read and written;
its ranges lie side by side (`covers_encode`). The decoder takes the larger blocks first,
multiplies, and gives the additional bits of an uneven division to one block less. So they agree
exactly if all blocks have one size and the coded bits divide evenly (`layout_shared_iff`).
-/

namespace MbmsTx.Phy

open Fec List

/-! ## The functions of the source -/

/-- What `encode_tb_off` uses for a code block: its size and index, the number and start of its data
bits, and of its coded bits. -/
structure EncBlock where
  cbLen : ℕ
  cblenIdx : ℕ
  rp : ℕ
  rlen : ℕ
  wp : ℕ
  nE : ℕ
deriving DecidableEq

/-- The loop of `encode_tb_off` over the last `n` code blocks, from `i` on; `ceilf` is exact. -/
def encodeBlocks (s : CbSegm) (qm gp gamma : ℕ) : (n i rp wp : ℕ) → List EncBlock
  | 0, _, _, _ => []
  | n + 1, i, rp, wp =>
    let cbLen := if i < s.c2 then s.k2 else s.k1
    let cblenIdx := if i < s.c2 then s.k2Idx else s.k1Idx
    let rlen := if 1 < s.c then cbLen - 24 else cbLen
    let nE := if i ≤ s.c - gamma - 1 then qm * (gp / s.c) else qm * ((gp + s.c - 1) / s.c)
    ⟨cbLen, cblenIdx, rp, rlen, wp, nE⟩ ::
      encodeBlocks s qm gp gamma n (i + 1) (rp + rlen) (wp + nE)

/-- `encode_tb_off`, without the offset of the whole output. -/
def encodeTbOff (maxCb : ℕ) (s : CbSegm) (qm nofEBits : ℕ) : Option (List EncBlock) :=
  if s.f ≠ 0 then none
  else if maxCb < s.c then none
  else if qm = 0 then none
  else
    let gp := nofEBits / qm
    let gamma := if 0 < s.c then gp % s.c else gp
    some (encodeBlocks s qm gp gamma s.c 0 0 0)

/-- What `decode_tb_cb` uses for a code block: its size and index, the byte where its data start,
and the start and number of its coded bits, if it is not decoded already. -/
structure DecBlock where
  cbLen : ℕ
  cblenIdx : ℕ
  dataByte : ℕ
  coded : Option (ℕ × ℕ)
deriving DecidableEq

/-- `SRSRAN_MAX_CODEBLOCKS`. -/
def maxCodeblocks : ℕ := 32

/-- The loop body of `decode_tb_cb`; `cbCrc` says which blocks are decoded. -/
def decodeBlock (s : CbSegm) (qm nofEBits : ℕ) (cbCrc : ℕ → Bool) (cbIdx : ℕ) : DecBlock :=
  let cbLen := if cbIdx < s.c1 then s.k1 else s.k2
  let cbLenIdx := if cbIdx < s.c1 then s.k1Idx else s.k2Idx
  let rlen := if s.c = 1 then cbLen else cbLen - 24
  let gp := nofEBits / qm
  let gamma := if 0 < s.c then gp % s.c else gp
  let nE := qm * (gp / s.c)
  let coded :=
    if s.c - gamma < cbIdx then
      ((s.c - gamma) * nE + (cbIdx - (s.c - gamma)) * (nE + qm), nE + qm)
    else (cbIdx * nE, nE)
  ⟨cbLen, cbLenIdx, cbIdx * rlen / 8, if cbCrc cbIdx then none else some coded⟩

def decodeTbCb (s : CbSegm) (qm nofEBits : ℕ) (cbCrc : ℕ → Bool) : Option (List DecBlock) :=
  if maxCodeblocks < s.c then none
  else some ((List.range s.c).map (decodeBlock s qm nofEBits cbCrc))

/-! ## Ranges side by side -/

/-- The ranges lie side by side between two positions. -/
def Covers : (start : ℕ) → List (ℕ × ℕ) → (stop : ℕ) → Prop
  | start, [], stop => start = stop
  | start, (first, len) :: ranges, stop => first = start ∧ Covers (start + len) ranges stop

theorem covers_map_range (len : ℕ → ℕ) (n : ℕ) (start : ℕ) :
    Covers start ((List.range n).map fun i => (start + ∑ k ∈ Finset.range i, len k, len i))
      (start + ∑ k ∈ Finset.range n, len k) := by
  induction n generalizing start len with
  | zero => rfl
  | succ n ih =>
    rw [range_succ_eq_map, map_cons, map_map]
    refine ⟨by simp, ?_⟩
    have hrest := ih (fun k => len (k + 1)) (start + len 0)
    have hsum : ∀ i, start + len 0 + ∑ k ∈ Finset.range i, len (k + 1) =
        start + ∑ k ∈ Finset.range (i + 1), len k := by
      intro i
      rw [Finset.sum_range_succ' len i]
      omega
    simp only [hsum] at hrest
    exact hrest

theorem sum_ite_lt (a b m n : ℕ) :
    ∑ i ∈ Finset.range (m + n), (if i < m then a else b) = m * a + n * b := by
  have hfirst : ∑ i ∈ Finset.range m, (if i < m then a else b) = m * a := by
    rw [Finset.sum_congr rfl fun i hi => if_pos (Finset.mem_range.mp hi)]
    simp
  have hrest : ∑ i ∈ Finset.range n, (if m + i < m then a else b) = n * b := by
    simp
  rw [Finset.sum_range_add, hfirst, hrest]

/-! ## The encoder -/

section
variable (s : CbSegm) (qm gp gamma : ℕ)

/-- The size of a block of the encoder. -/
def encLen (i : ℕ) : ℕ := if i < s.c2 then s.k2 else s.k1

/-- The number of data bits of a block of the encoder. -/
def encRlen (i : ℕ) : ℕ := if 1 < s.c then encLen s i - 24 else encLen s i

/-- The number of coded bits of a block of the encoder. -/
def encNE (i : ℕ) : ℕ :=
  if i ≤ s.c - gamma - 1 then qm * (gp / s.c) else qm * ((gp + s.c - 1) / s.c)

theorem encodeBlocks_eq (n i rp wp : ℕ) :
    encodeBlocks s qm gp gamma n i rp wp = (List.range n).map fun k =>
      ⟨encLen s (i + k), if i + k < s.c2 then s.k2Idx else s.k1Idx,
        rp + ∑ j ∈ Finset.range k, encRlen s (i + j), encRlen s (i + k),
        wp + ∑ j ∈ Finset.range k, encNE s qm gp gamma (i + j), encNE s qm gp gamma (i + k)⟩ := by
  induction n generalizing i rp wp with
  | zero => rfl
  | succ n ih =>
    rw [encodeBlocks, ih, range_succ_eq_map, map_cons, map_map]
    congr 1
    refine map_congr_left ?_
    intro k _
    have hindex : ∀ j, i + 1 + j = i + (j + 1) := by omega
    have hsum : ∀ (f : ℕ → ℕ) (start : ℕ), start + f i + ∑ j ∈ Finset.range k, f (i + (j + 1)) =
        start + ∑ j ∈ Finset.range (k + 1), f (i + j) := by
      intro f start
      rw [Finset.sum_range_succ' _ k, add_zero]
      omega
    simp only [hindex, Function.comp_apply, Nat.succ_eq_add_one, ← hsum (encRlen s),
      ← hsum (encNE s qm gp gamma)]
    rfl

end

/-- A block of the encoder. -/
def encBlock (s : CbSegm) (qm gp : ℕ) (i : ℕ) : EncBlock where
  cbLen := encLen s i
  cblenIdx := if i < s.c2 then s.k2Idx else s.k1Idx
  rp := ∑ k ∈ Finset.range i, encRlen s k
  rlen := encRlen s i
  wp := ∑ k ∈ Finset.range i, encNE s qm gp (gp % s.c) k
  nE := encNE s qm gp (gp % s.c) i

variable {s : CbSegm} {qm nofEBits tbs : ℕ}

theorem encodeTbOff_eq_some {maxCb : ℕ} {enc : List EncBlock}
    (henc : encodeTbOff maxCb s qm nofEBits = some enc) :
    s.f = 0 ∧ 0 < qm ∧ enc = (List.range s.c).map (encBlock s qm (nofEBits / qm)) := by
  rw [encodeTbOff] at henc
  split at henc
  · cases henc
  split at henc
  · cases henc
  split at henc
  · cases henc
  refine ⟨by omega, by omega, ?_⟩
  rw [← Option.some.inj henc, encodeBlocks_eq]
  refine map_congr_left ?_
  intro i hi
  have hc : 0 < s.c := by
    have := List.mem_range.mp hi
    omega
  simp only [if_pos hc, zero_add]
  rfl

theorem sum_encRlen (h : Segmented tbs s) (hf : s.f = 0) :
    ∑ i ∈ Finset.range s.c, encRlen s i = tbs + 24 := by
  have hk1 := (size_of_mem h.k1_mem).2.1
  have htotal := h.total
  rw [hf, add_zero] at htotal
  have hlen : ∀ i, encRlen s i = if i < s.c2 then (if 1 < s.c then s.k2 - 24 else s.k2)
      else (if 1 < s.c then s.k1 - 24 else s.k1) := by
    intro i
    rw [encRlen, encLen]
    split <;> split <;> rfl
  have hpos := h.c1_pos
  have hc : s.c = s.c2 + s.c1 := by
    rw [← h.blocks]
    omega
  simp only [hlen]
  conv_lhs => rw [hc, sum_ite_lt]
  by_cases hone : s.c = 1
  · rw [if_neg (by omega), if_neg (by omega)]
    rw [if_pos hone] at htotal
    omega
  rw [if_pos (by omega), if_pos (by omega), Nat.mul_sub, Nat.mul_sub]
  rw [if_neg hone] at htotal
  have hle1 : s.c1 * 24 ≤ s.c1 * s.k1 := Nat.mul_le_mul_left _ (by omega)
  have hle2 : s.c2 * 24 ≤ s.c2 * s.k2 := by
    rcases eq_zero_or_pos s.c2 with hzero | hpos2
    · omega
    · exact Nat.mul_le_mul_left _ (by have := (size_of_mem (h.k2_mem hpos2)).2.1; omega)
  omega

theorem ceil_of_mod_pos {gp c : ℕ} (hc : 0 < c) (hpos : 0 < gp % c) :
    (gp + c - 1) / c = gp / c + 1 := by
  have hlt : gp % c < c := Nat.mod_lt _ hc
  have hdiv : c * (gp / c) + gp % c = gp := Nat.div_add_mod gp c
  have hnext : c * (gp / c + 1) = c * (gp / c) + c := Nat.mul_succ _ _
  have hafter : c * (gp / c + 1 + 1) = c * (gp / c) + c + c := by rfl
  refine Nat.div_eq_of_lt_le ?_ ?_
  · rw [mul_comm, hnext]
    omega
  · rw [mul_comm, hafter]
    omega

theorem sum_encNE (s : CbSegm) (qm gp : ℕ) (hc : 0 < s.c) :
    ∑ i ∈ Finset.range s.c, encNE s qm gp (gp % s.c) i = qm * gp := by
  have hgamma : gp % s.c < s.c := Nat.mod_lt _ hc
  have hdiv := Nat.div_add_mod gp s.c
  have hsplit : s.c = (s.c - gp % s.c) + gp % s.c := by omega
  have hlen : ∀ i ∈ Finset.range s.c, encNE s qm gp (gp % s.c) i =
      if i < s.c - gp % s.c then qm * (gp / s.c) else qm * ((gp + s.c - 1) / s.c) := by
    intro i _
    rw [encNE]
    congr 1
    simp
    omega
  rw [Finset.sum_congr rfl hlen]
  conv_lhs =>
    enter [1]
    rw [hsplit]
  rw [sum_ite_lt]
  obtain ⟨q, hq⟩ : ∃ q, q = gp / s.c := ⟨_, rfl⟩
  obtain ⟨r, hr⟩ : ∃ r, r = gp % s.c := ⟨_, rfl⟩
  rw [← hq, ← hr] at hdiv
  rw [← hq, ← hr]
  rcases eq_zero_or_pos r with hzero | hpos
  · rw [hzero, Nat.sub_zero, zero_mul, add_zero, ← hdiv, hzero, add_zero, mul_left_comm]
  have hceil : (gp + s.c - 1) / s.c = q + 1 := by
    rw [hq]
    exact ceil_of_mod_pos hc (by omega)
  obtain ⟨d, hd⟩ : ∃ d, s.c = d + r := ⟨s.c - r, by omega⟩
  have hsub : s.c - r = d := by omega
  rw [hceil, hsub, ← hdiv, hd]
  ring

theorem covers_encode {maxCb : ℕ} {enc : List EncBlock} (htbs : tbs ≠ 0)
    (hle : tbs ≤ 4278185976) (hseg : cbsegm32 tbs = some s) (hdvd : qm ∣ nofEBits)
    (henc : encodeTbOff maxCb s qm nofEBits = some enc) :
    Covers 0 (enc.map fun b => (b.wp, b.nE)) nofEBits ∧
      Covers 0 (enc.map fun b => (b.rp, b.rlen)) (tbs + 24) := by
  obtain ⟨hf, hqm, rfl⟩ := encodeTbOff_eq_some henc
  have hsegm := segmented_of_cbsegm32 htbs hle hseg
  have hc : 0 < s.c := by
    rw [← hsegm.blocks]
    exact Nat.add_pos_left hsegm.c1_pos _
  have hcoded := covers_map_range (encNE s qm (nofEBits / qm) (nofEBits / qm % s.c)) s.c 0
  have hdata := covers_map_range (encRlen s) s.c 0
  simp only [zero_add] at hcoded hdata
  rw [sum_encNE s qm _ hc, Nat.mul_div_cancel' hdvd] at hcoded
  rw [sum_encRlen hsegm hf] at hdata
  rw [map_map, map_map]
  exact ⟨hcoded, hdata⟩

/-! ## Encoder and decoder -/

/-- A block is in the same place for both. -/
structure SameBlock (e : EncBlock) (d : DecBlock) : Prop where
  cbLen : d.cbLen = e.cbLen
  cblenIdx : d.cblenIdx = e.cblenIdx
  data : d.dataByte = e.rp / 8
  coded : ∀ r, d.coded = some r → r = (e.wp, e.nE)

/-- The layout of a transport block: the decoder, whichever blocks it has decoded already, finds
each block where the encoder put it, the coded bits of the encoder fill what there is, and its data
are the transport block with its checksum. -/
structure LayoutShared (tbs : ℕ) (s : CbSegm) (qm nofEBits : ℕ) (enc : List EncBlock) : Prop where
  decode : ∀ cbCrc dec, decodeTbCb s qm nofEBits cbCrc = some dec → List.Forall₂ SameBlock enc dec
  coded : Covers 0 (enc.map fun b => (b.wp, b.nE)) nofEBits
  data : Covers 0 (enc.map fun b => (b.rp, b.rlen)) (tbs + 24)

theorem sameBlock_of_even (hsegm : Segmented tbs s) (hc2 : s.c2 = 0)
    (heven : nofEBits / qm % s.c = 0) (cbCrc : ℕ → Bool) {i : ℕ} (hi : i < s.c) :
    SameBlock (encBlock s qm (nofEBits / qm) i) (decodeBlock s qm nofEBits cbCrc i) := by
  have hc1 : s.c1 = s.c := by
    have := hsegm.blocks
    omega
  have hlen : ∀ k, encLen s k = s.k1 := by
    intro k
    rw [encLen, if_neg (by omega)]
  have hrlen : ∀ k, encRlen s k = if s.c = 1 then s.k1 else s.k1 - 24 := by
    intro k
    rw [encRlen, hlen]
    by_cases hone : s.c = 1
    · rw [if_neg (by omega), if_pos hone]
    · rw [if_pos (by omega), if_neg hone]
  have hnE : ∀ k < s.c, encNE s qm (nofEBits / qm) (nofEBits / qm % s.c) k =
      qm * (nofEBits / qm / s.c) := by
    intro k hk
    rw [encNE, if_pos (by omega)]
  refine ⟨?_, ?_, ?_, ?_⟩
  · simp only [decodeBlock, encBlock, hc1, if_pos hi, hlen]
  · simp only [decodeBlock, encBlock, hc1, if_pos hi, hc2, if_neg (Nat.not_lt_zero i)]
  · simp [decodeBlock, encBlock, hc1, hi, hrlen]
  · intro r hr
    have hgamma : ¬ s.c - 0 < i := by omega
    have hwp : ∑ k ∈ Finset.range i, encNE s qm (nofEBits / qm) (nofEBits / qm % s.c) k =
        i * (qm * (nofEBits / qm / s.c)) := by
      rw [Finset.sum_congr rfl fun k hk => hnE k (by have := Finset.mem_range.mp hk; omega)]
      simp
    simp only [decodeBlock, if_pos (by omega : 0 < s.c), heven, if_neg hgamma] at hr
    split at hr
    · cases hr
    · rw [← Option.some.inj hr, encBlock, hwp, hnE i hi]

theorem c2_eq_zero_of_sameBlock (hsegm : Segmented tbs s) {cbCrc : ℕ → Bool}
    (h : SameBlock (encBlock s qm (nofEBits / qm) 0) (decodeBlock s qm nofEBits cbCrc 0)) :
    s.c2 = 0 := by
  by_contra hne
  have hpos : 0 < s.c2 := by omega
  have hlen := h.cbLen
  simp only [decodeBlock, encBlock, encLen, if_pos hsegm.c1_pos, if_pos hpos] at hlen
  have := hsegm.k2_lt hpos
  omega

theorem even_of_sameBlock (hqm : 0 < qm) (hc : 0 < s.c)
    (h : ∀ i < s.c, SameBlock (encBlock s qm (nofEBits / qm) i) (decodeBlock s qm nofEBits (fun _
      => false) i)) : nofEBits / qm % s.c = 0 := by
  by_contra hne
  obtain ⟨gp, hgp⟩ : ∃ gp, gp = nofEBits / qm := ⟨_, rfl⟩
  rw [← hgp] at hne h
  have hgamma : gp % s.c < s.c := Nat.mod_lt _ hc
  have hdec : (decodeBlock s qm nofEBits (fun _ => false) (s.c - gp % s.c)).coded =
      some ((s.c - gp % s.c) * (qm * (gp / s.c)), qm * (gp / s.c)) := by
    simp [decodeBlock, ← hgp, if_pos hc]
  have hcoded := (h (s.c - gp % s.c) (by omega)).coded _ hdec
  have hnE : encNE s qm gp (gp % s.c) (s.c - gp % s.c) = qm * ((gp + s.c - 1) / s.c) := by
    rw [encNE, if_neg (by omega)]
  have hequal : qm * (gp / s.c) = qm * ((gp + s.c - 1) / s.c) := by
    rw [← hnE]
    exact congrArg Prod.snd hcoded
  rw [ceil_of_mod_pos hc (by omega)] at hequal
  have := Nat.eq_of_mul_eq_mul_left hqm hequal
  omega

/-- Encoder and decoder share the layout exactly if all blocks have one size and the coded bits
divide evenly; a transport block of more blocks than the decoder accepts is not decoded. -/
theorem layout_shared_iff {tbs maxCb qm nofEBits : ℕ} {s : CbSegm} {enc : List EncBlock}
    (hle : tbs ≤ 4278185976) (hseg : cbsegm32 tbs = some s) (hdvd : qm ∣ nofEBits)
    (henc : encodeTbOff maxCb s qm nofEBits = some enc) :
    LayoutShared tbs s qm nofEBits enc ↔
      tbs ≠ 0 ∧ (s.c ≤ maxCodeblocks → s.c2 = 0 ∧ nofEBits / qm % s.c = 0) := by
  obtain ⟨-, hqm, henc'⟩ := encodeTbOff_eq_some henc
  constructor
  · intro h
    have htbs : tbs ≠ 0 := by
      rintro rfl
      obtain rfl := Option.some.inj hseg
      have hdata := h.data
      rw [henc'] at hdata
      exact absurd (show 0 = 24 from hdata) (by decide)
    have hsegm := segmented_of_cbsegm32 htbs hle hseg
    have hc : 0 < s.c := by
      rw [← hsegm.blocks]
      exact Nat.add_pos_left hsegm.c1_pos _
    refine ⟨htbs, ?_⟩
    intro hmax
    have hdec := h.decode (fun _ => false) _ (if_neg (by omega))
    simp only [henc', forall₂_map_left_iff, forall₂_map_right_iff, forall₂_same, mem_range] at hdec
    exact ⟨c2_eq_zero_of_sameBlock hsegm (hdec 0 hc), even_of_sameBlock hqm hc hdec⟩
  · rintro ⟨htbs, heven⟩
    obtain ⟨hcoded, hdata⟩ := covers_encode htbs hle hseg hdvd henc
    refine ⟨?_, hcoded, hdata⟩
    intro cbCrc dec hdec
    rw [decodeTbCb] at hdec
    split at hdec
    · cases hdec
    obtain ⟨hc2, hmod⟩ := heven (by omega)
    rw [henc', ← Option.some.inj hdec]
    simp only [forall₂_map_left_iff, forall₂_map_right_iff, forall₂_same, mem_range]
    intro i hi
    exact sameBlock_of_even (segmented_of_cbsegm32 htbs hle hseg) hc2 hmod cbCrc hi

/-- 6200 bits in two code blocks, with an even number of symbols. -/
theorem layout_shared_6200_bits :
    ∃ s enc, cbsegm32 6200 = some s ∧ encodeTbOff 2 s 2 12000 = some enc ∧
      LayoutShared 6200 s 2 12000 enc :=
  ⟨⟨6200, 2, 3136, 140, 3072, 139, 2, 0, 24, 24, 0⟩, _, by decide +kernel, rfl,
    (layout_shared_iff (by decide) (by decide +kernel) (by decide)
      (show encodeTbOff 2 _ 2 12000 = some _ from rfl)).mpr ⟨by decide, fun _ => ⟨rfl, rfl⟩⟩⟩

/-- With an odd number of symbols the decoder misses bits of the second block, and with two block
sizes it takes the first block for the larger one. -/
theorem not_layout_shared_6200_bits :
    (∃ s enc, cbsegm32 6200 = some s ∧ encodeTbOff 2 s 2 12002 = some enc ∧
      ¬ LayoutShared 6200 s 2 12002 enc) ∧
    ∃ s enc, cbsegm32 6136 = some s ∧ encodeTbOff 2 s 2 12000 = some enc ∧
      ¬ LayoutShared 6136 s 2 12000 enc := by
  refine ⟨⟨⟨6200, 2, 3136, 140, 3072, 139, 2, 0, 24, 24, 0⟩, _, by decide +kernel, rfl, ?_⟩,
    ⟨6136, 2, 3136, 140, 3072, 139, 1, 1, 24, 24, 0⟩, _, by decide +kernel, rfl, ?_⟩
  · intro h
    have hdec := h.decode (fun _ => false) _ rfl
    have hsecond := (forall₂_cons.mp (forall₂_cons.mp hdec).2).1
    exact absurd (congrArg Prod.snd (hsecond.coded _ rfl)) (by decide)
  · intro h
    have hdec := h.decode (fun _ => false) _ rfl
    exact absurd (forall₂_cons.mp hdec).1.cbLen (by decide)

end MbmsTx.Phy
