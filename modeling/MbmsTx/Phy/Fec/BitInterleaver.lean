import MbmsTx.Lib.ByteBits

/-!
# Interleaving packed bits

`srsran_bit_interleaver_run` of `bit.c` writes the bits of a packed array in the order of a table: a
first part into the byte that it starts in, whole bytes, sixteen or eight bits at a time, and the
rest into the last byte. It is called with no offset and with one of half a byte. With other offsets
the whole bytes do not go on where the first part ends, and with any offset a last byte that is not
whole is written only in part (`interleaves_iff`).
-/

namespace MbmsTx.Phy.Fec

open ByteBits List BitVec Function

/-! ## The functions of the source -/

/-- The table `mask` of `bit.c`. -/
def mask (i : ℕ) : BitVec 8 := [0x80, 0x40, 0x20, 0x10, 0x8, 0x4, 0x2, 0x1].getD i 0

/-- `srsran_bit_interleaver_t`. -/
structure BitInterleaver where
  interleaver : ℕ → ℕ
  byteIdx : ℕ → ℕ
  bitMask : ℕ → BitVec 8
  nofBits : ℕ

namespace BitInterleaver

/-- `srsran_bit_interleaver_init`. -/
def init (interleaver : ℕ → ℕ) (nofBits : ℕ) : BitInterleaver where
  interleaver := interleaver
  byteIdx i := interleaver i / 8
  bitMask i := mask (interleaver i % 8)
  nofBits := nofBits

/-- Setting or clearing one bit of a byte. -/
def putBit (output : ℕ → BitVec 8) (k j : ℕ) (b : Bool) : ℕ → BitVec 8 :=
  update output k (if b then output k ||| mask j else output k &&& ~~~mask j)

/-- The test of one bit of the input. -/
def readBit (input : ℕ → BitVec 8) (ip : ℕ) : Bool := input (ip / 8) &&& mask (ip % 8) ≠ 0

/-- Eight bits of the output, from eight entries of the table. -/
def eightBits (q : BitInterleaver) (input : ℕ → BitVec 8) (idx : ℕ) : BitVec 8 :=
  (range 8).foldl (fun out k =>
    out ||| (if input (q.byteIdx (idx + k)) &&& q.bitMask (idx + k) ≠ 0 then mask k else 0)) 0#8

/-- The lane of a vector register that holds the `k`-th of sixteen bits, from the least significant
one on; in each half the order is reversed. -/
def lane (l : ℕ) : ℕ := if l < 8 then 7 - l else 23 - l

/-- Sixteen bits of the output: all lanes compared with their masks, as one word. -/
def sixteenBits (q : BitInterleaver) (input : ℕ → BitVec 8) (idx : ℕ) : BitVec 16 :=
  (range 16).foldl (fun out l =>
    let in128 := input (q.byteIdx (idx + lane l))
    let mask128 := q.bitMask (idx + lane l)
    if in128 &&& mask128 = mask128 then out ||| (1#16 <<< l) else out) 0#16

/-- `srsran_bit_interleaver_run`; `sse` is whether the loop over sixteen bits is compiled. -/
def run (sse : Bool) (q : BitInterleaver) (input output : ℕ → BitVec 8) (wOffset : ℕ) :
    ℕ → BitVec 8 :=
  let split := wOffset < 8 ∧ 0 < wOffset
  let st := if split then 1 else 0
  let wOffsetP := if split then 8 - wOffset else 0
  let output := (range wOffsetP).foldl (fun out j =>
    putBit out 0 (j + wOffset) (readBit input (q.interleaver j))) output
  let i := st * 8
  let idx := i - wOffsetP
  let nof16 := if sse then (q.nofBits - i) / 16 else 0
  -- the words are stored with the low byte first
  let output := (range nof16).foldl (fun out t =>
    let word := q.sixteenBits input (idx + 16 * t)
    update (update out (st + 2 * t) (word.setWidth 8))
      (st + 2 * t + 1) ((word >>> 8).setWidth 8)) output
  let nof8 := (q.nofBits - (i + 16 * nof16)) / 8
  let output := (range nof8).foldl (fun out t =>
    update out (st + 2 * nof16 + t) (q.eightBits input (idx + 16 * nof16 + 8 * t))) output
  let last := q.nofBits / 8
  let output := (range (q.nofBits % 8)).foldl (fun out j =>
    putBit out last j (readBit input (q.interleaver (last * 8 + j - wOffset)))) output
  (range wOffset).foldl (fun out j =>
    putBit out last j (readBit input (q.interleaver (last * 8 + j - wOffset)))) output

/-! ## Single bits -/

variable {i j n : ℕ}

theorem getMsbD_mask (hi : i < 8) (hj : j < 8) : (mask i).getMsbD j = decide (i = j) := by
  have hall : ∀ i j : Fin 8, (mask i).getMsbD j = decide (i.val = j.val) := by decide
  exact hall ⟨i, hi⟩ ⟨j, hj⟩

theorem and_mask (v : BitVec 8) (hi : i < 8) :
    v &&& mask i = if v.getMsbD i then mask i else 0 := by
  refine eq_of_getMsbD_eq ?_
  intro j hj
  rw [getMsbD_and, getMsbD_mask hi hj]
  by_cases hij : i = j
  · subst hij
    cases hbit : v.getMsbD i <;> simp [getMsbD_mask hi hi]
  · cases hbit : v.getMsbD i <;> simp [getMsbD_mask hi hj, hij]

theorem mask_ne_zero (hi : i < 8) : mask i ≠ 0#8 := by
  have hall : ∀ i : Fin 8, mask i ≠ 0#8 := by decide
  exact hall ⟨i, hi⟩

theorem and_mask_ne_zero (v : BitVec 8) (hi : i < 8) : v &&& mask i ≠ 0 ↔ v.getMsbD i := by
  rw [and_mask v hi]
  cases v.getMsbD i <;> simp [mask_ne_zero hi]

theorem and_mask_eq (v : BitVec 8) (hi : i < 8) : v &&& mask i = mask i ↔ v.getMsbD i := by
  rw [and_mask v hi]
  cases v.getMsbD i <;> simp [(mask_ne_zero hi).symm]

theorem readBit_eq (input : ℕ → BitVec 8) (ip : ℕ) : readBit input ip = bitAt input ip := by
  have h := and_mask_ne_zero (input (ip / 8)) (Nat.mod_lt ip (by decide))
  rw [readBit, bitAt, Bool.eq_iff_iff, decide_eq_true_iff]
  exact h

theorem bitAt_putBit (output : ℕ → BitVec 8) (k : ℕ) (hj : j < 8) (b : Bool) (p : ℕ) :
    bitAt (putBit output k j b) p = if p = 8 * k + j then b else bitAt output p := by
  have hmod : p % 8 < 8 := Nat.mod_lt p (by decide)
  rw [putBit, bitAt_update]
  by_cases hk : p / 8 = k
  · rw [if_pos hk]
    by_cases hp : p = 8 * k + j
    · have hpj : j = p % 8 := by omega
      rw [if_pos hp]
      have hbit : (mask j).getMsbD (p % 8) := by
        rw [getMsbD_mask hj hmod]
        exact decide_eq_true hpj
      cases b <;> simp [hbit]
    · have hpj : ¬ j = p % 8 := by omega
      rw [if_neg hp, bitAt, hk]
      cases b <;> simp [getMsbD_mask hj hmod, hpj, hmod]
  · rw [if_neg hk, if_neg (by omega)]

theorem bitAt_foldl_putBit (output : ℕ → BitVec 8) (k o : ℕ) (b : ℕ → Bool) (hn : o + n ≤ 8)
    (p : ℕ) :
    bitAt ((range n).foldl (fun out j => putBit out k (j + o) (b j)) output) p =
      if 8 * k + o ≤ p ∧ p < 8 * k + o + n then b (p - (8 * k + o)) else bitAt output p := by
  induction n with
  | zero => rw [if_neg (by omega)]; rfl
  | succ n ih =>
    rw [range_succ, foldl_append, foldl_cons, foldl_nil, bitAt_putBit _ _ (by omega), ih (by omega)]
    by_cases hlast : p = 8 * k + (n + o)
    · have hidx : p - (8 * k + o) = n := by omega
      rw [if_pos hlast, if_pos (by omega), hidx]
    · rw [if_neg hlast]
      exact if_congr (by omega) rfl rfl

/-! ## Whole bytes -/

variable (table : ℕ → ℕ) (nofBits : ℕ) (input : ℕ → BitVec 8)

@[simp] theorem init_nofBits : (init table nofBits).nofBits = nofBits := rfl

@[simp] theorem init_interleaver : (init table nofBits).interleaver = table := rfl

variable (idx : ℕ)

theorem getMsbD_eightBits (hj : j < 8) :
    ((init table nofBits).eightBits input idx).getMsbD j = bitAt input (table (idx + j)) := by
  rw [eightBits, bit_foldl_or (·.getMsbD j) (b := fun k => bitAt input (table (idx + k)))
    (by simp) (by simp), decide_eq_true hj, Bool.true_and]
  intro k hk
  simp only [init, and_mask_ne_zero _ (Nat.mod_lt (table (idx + k)) (by decide))]
  rw [bitAt]
  split
  · next hbit => simp [hbit, getMsbD_mask hk hj]
  · next hbit => simp [hbit]

theorem getLsbD_sixteenBits {l : ℕ} (hl : l < 16) :
    ((init table nofBits).sixteenBits input idx).getLsbD l =
      bitAt input (table (idx + lane l)) := by
  simp only [sixteenBits, or_ite_zero]
  rw [bit_foldl_or (·.getLsbD l) (b := fun k => bitAt input (table (idx + lane k)))
    (by simp) (by simp), decide_eq_true hl, Bool.true_and]
  intro k hk
  simp only [init, and_mask_eq _ (Nat.mod_lt (table (idx + lane k)) (by decide))]
  rw [bitAt]
  split
  · next hbit => simp [hbit, ← twoPow_eq, getLsbD_twoPow, hk]
  · next hbit => simp [hbit]

theorem sixteenBits_low : ((init table nofBits).sixteenBits input idx).setWidth 8 =
      (init table nofBits).eightBits input idx := by
  refine eq_of_getMsbD_eq ?_
  intro j hj
  have hlane : lane (8 - 1 - j) = j := by
    rw [lane, if_pos (by omega)]
    omega
  rw [getMsbD_eightBits _ _ _ _ hj, getMsbD, getLsbD_setWidth,
    getLsbD_sixteenBits _ _ _ _ (by omega), hlane]
  simp [hj, show 7 - j < 8 by omega]

theorem sixteenBits_high : (((init table nofBits).sixteenBits input idx) >>> 8).setWidth 8 =
      (init table nofBits).eightBits input (idx + 8) := by
  refine eq_of_getMsbD_eq ?_
  intro j hj
  have hlane : idx + lane (8 + (8 - 1 - j)) = idx + 8 + j := by
    rw [lane, if_neg (by omega)]
    omega
  rw [getMsbD_eightBits _ _ _ _ hj, getMsbD, getLsbD_setWidth,
    getLsbD_ushiftRight, getLsbD_sixteenBits _ _ _ _ (by omega), hlane]
  simp [hj, show 7 - j < 8 by omega]

/-- Whole bytes, written one after another. -/
def wholeBytes (q : BitInterleaver) (input : ℕ → BitVec 8) (out idx n : ℕ) (output : ℕ → BitVec 8) :
    ℕ → BitVec 8 :=
  (range n).foldl (fun mem t =>
    update mem (out + t) (q.eightBits input (idx + 8 * t))) output

theorem wholeBytes_add (q : BitInterleaver) (out idx m n : ℕ) (output : ℕ → BitVec 8) :
    q.wholeBytes input out idx (m + n) output =
      q.wholeBytes input (out + m) (idx + 8 * m) n (q.wholeBytes input out idx m output) := by
  simp only [wholeBytes, range_add, foldl_append, foldl_map, Nat.mul_add, Nat.add_assoc]

theorem foldl_sixteenBits (out idx n : ℕ) (output : ℕ → BitVec 8) :
    (range n).foldl (fun mem t =>
      update
        (update mem (out + 2 * t)
          (((init table nofBits).sixteenBits input (idx + 16 * t)).setWidth 8))
        (out + 2 * t + 1)
        ((((init table nofBits).sixteenBits input (idx + 16 * t)) >>> 8).setWidth 8)) output =
      (init table nofBits).wholeBytes input out idx (2 * n) output := by
  induction n with
  | zero => rfl
  | succ n ih =>
    have hidx : idx + 16 * n = idx + 8 * (2 * n) := by omega
    have hnext : idx + 8 * (2 * n) + 8 = idx + 8 * (2 * n + 1) := by omega
    have htwo : 2 * (n + 1) = 2 * n + 1 + 1 := by omega
    rw [range_succ, foldl_append, foldl_cons, foldl_nil, ih, sixteenBits_low,
      sixteenBits_high, hidx, hnext, htwo, wholeBytes, wholeBytes, range_succ,
      range_succ, foldl_append, foldl_append, foldl_cons, foldl_nil,
      foldl_cons, foldl_nil, Nat.add_assoc]

theorem bitAt_wholeBytes (out idx n : ℕ) (output : ℕ → BitVec 8) (p : ℕ) :
    bitAt ((init table nofBits).wholeBytes input out idx n output) p =
      if 8 * out ≤ p ∧ p < 8 * (out + n) then bitAt input (table (idx + (p - 8 * out)))
      else bitAt output p := by
  rw [wholeBytes, bitAt_foldl_update]
  by_cases hin : 8 * out ≤ p ∧ p < 8 * (out + n)
  · have hidx : idx + 8 * (p / 8 - out) + p % 8 = idx + (p - 8 * out) := by omega
    rw [if_pos hin, if_pos hin, getMsbD_eightBits _ _ _ _ (Nat.mod_lt _ (by decide)), hidx]
  · rw [if_neg hin, if_neg hin]

/-! ## The whole function -/

/-- The function with whole bytes only; the loop over sixteen bits makes no difference. -/
theorem run_eq (sse : Bool) (output : ℕ → BitVec 8) (wOffset : ℕ) :
    run sse (init table nofBits) input output wOffset =
      let st := if wOffset < 8 ∧ 0 < wOffset then 1 else 0
      let wOffsetP := if wOffset < 8 ∧ 0 < wOffset then 8 - wOffset else 0
      let output := (range wOffsetP).foldl (fun out j =>
        putBit out 0 (j + wOffset) (readBit input (table j))) output
      let output := (init table nofBits).wholeBytes input st (st * 8 - wOffsetP)
        ((nofBits - st * 8) / 8) output
      let output := (range (nofBits % 8)).foldl (fun out j =>
        putBit out (nofBits / 8) j (readBit input (table (nofBits / 8 * 8 + j - wOffset)))) output
      (range wOffset).foldl (fun out j =>
        putBit out (nofBits / 8) j (readBit input (table (nofBits / 8 * 8 + j - wOffset))))
        output := by
  obtain ⟨i, hi⟩ : ∃ i, i = (if wOffset < 8 ∧ 0 < wOffset then 1 else 0) * 8 := ⟨_, rfl⟩
  obtain ⟨nof16, hnof16⟩ : ∃ n, n = if sse then (nofBits - i) / 16 else 0 := ⟨_, rfl⟩
  have hle : 16 * nof16 ≤ nofBits - i := by
    rw [hnof16]
    split <;> omega
  have hcount : (nofBits - i) / 8 = 2 * nof16 + (nofBits - (i + 16 * nof16)) / 8 := by omega
  have hmul : ∀ idx, idx + 8 * (2 * nof16) = idx + 16 * nof16 := by
    omega
  unfold run
  simp only [init_nofBits, init_interleaver]
  rw [← hi, ← hnof16, foldl_sixteenBits, hcount, wholeBytes_add, hmul]
  rfl

theorem bitAt_lastByte (w : ℕ) (hn : n ≤ 8) (output : ℕ → BitVec 8) (p : ℕ) :
    bitAt ((range n).foldl (fun out j =>
      putBit out (nofBits / 8) j (readBit input (table (nofBits / 8 * 8 + j - w)))) output) p =
      if 8 * (nofBits / 8) ≤ p ∧ p < 8 * (nofBits / 8) + n then bitAt input (table (p - w))
      else bitAt output p := by
  have hput := bitAt_foldl_putBit output (nofBits / 8) 0
    (fun j => readBit input (table (nofBits / 8 * 8 + j - w))) (n := n) (by omega) p
  refine hput.trans (ite_congr rfl (fun hin => ?_) fun _ => rfl)
  have hidx : nofBits / 8 * 8 + (p - (8 * (nofBits / 8) + 0)) - w = p - w := by omega
  rw [readBit_eq, hidx]

theorem bitAt_run_zero (sse : Bool) (output : ℕ → BitVec 8) (p : ℕ) :
    bitAt (run sse (init table nofBits) input output 0) p =
      if p < nofBits then bitAt input (table p) else bitAt output p := by
  rw [run_eq]
  refine (bitAt_lastByte table nofBits input 0 (by omega : nofBits % 8 ≤ 8) _ p).trans ?_
  have hwhole := bitAt_wholeBytes table nofBits input 0 0 (nofBits / 8) output p
  simp only [Nat.zero_add, Nat.mul_zero, Nat.sub_zero] at hwhole
  refine (congrArg _ hwhole).trans ?_
  split_ifs <;> first | rfl | omega

theorem bitAt_run_pos (sse : Bool) {w : ℕ} (hpos : 0 < w) (hw : w < 8) (output : ℕ → BitVec 8)
    (p : ℕ) :
    bitAt (run sse (init table nofBits) input output w) p =
      if 8 * (nofBits / 8) ≤ p ∧ p < 8 * (nofBits / 8) + max (nofBits % 8) w then
        bitAt input (table (p - w))
      else if 8 ≤ p ∧ p < 8 * (1 + (nofBits - 8) / 8) then bitAt input (table (w + (p - 8)))
      else if w ≤ p ∧ p < 8 then bitAt input (table (p - w)) else bitAt output p := by
  have hidx : 1 * 8 - (8 - w) = w := by omega
  rw [run_eq]
  simp only [if_pos (And.intro hw hpos)]
  rw [bitAt_lastByte _ _ _ w (Nat.le_of_lt hw), bitAt_lastByte _ _ _ w (by omega), bitAt_wholeBytes,
    bitAt_foldl_putBit _ _ _ _ (by omega), hidx]
  simp only [readBit_eq, Nat.mul_zero, Nat.zero_add]
  split_ifs <;> first | rfl | omega

/-- The whole bytes go on where the first part ends if the table repeats there. -/
theorem bitAt_run_of_whole (sse : Bool) {w : ℕ} (hpos : 0 < w) (hw : w < 8) (hn : 8 ≤ nofBits)
    (hrest : nofBits % 8 = 0)
    (htable : ∀ p, 8 ≤ p → p < nofBits → table (w + (p - 8)) = table (p - w))
    (output : ℕ → BitVec 8) (p : ℕ) :
    bitAt (run sse (init table nofBits) input output w) p =
      if w ≤ p ∧ p < nofBits + w then bitAt input (table (p - w)) else bitAt output p := by
  rw [bitAt_run_pos _ _ _ _ hpos hw]
  split_ifs with _ _ hmid
  all_goals first | rfl | omega | rw [htable p hmid.1 (by omega)]

/-- The input bits stand in the output from bit `w` on, in the order of the table, and no other bit
changed. -/
def Interleaves (sse : Bool) (table : ℕ → ℕ) (nofBits w : ℕ) : Prop :=
  ∀ input output p, bitAt (run sse (init table nofBits) input output w) p =
    if w ≤ p ∧ p < nofBits + w then bitAt input (table (p - w)) else bitAt output p

/-- The function interleaves exactly without an offset, or if the bits fill whole bytes and the
table repeats where the whole bytes start; any table does so for an offset of four. -/
theorem interleaves_iff (sse : Bool) (table : ℕ → ℕ) (nofBits w : ℕ) (hn : 8 ≤ nofBits)
    (hw : w < 8) : Interleaves sse table nofBits w ↔ w = 0 ∨ nofBits % 8 = 0 ∧
      ∀ p, 8 ≤ p → p < nofBits → table (w + (p - 8)) = table (p - w) := by
  rcases Nat.eq_zero_or_pos w with rfl | hpos
  · refine iff_of_true (fun input output p => ?_) (.inl rfl)
    simp [bitAt_run_zero]
  have hone : ∀ t, ∃ input, ∀ q, bitAt input q = decide (q = t) := by
    refine fun t => ⟨putBit (fun _ => 0) (t / 8) (t % 8) true, fun q => ?_⟩
    have ht : 8 * (t / 8) + t % 8 = t := by omega
    rw [bitAt_putBit _ _ (by omega), ht]
    by_cases hq : q = t <;> simp [hq, bitAt]
  constructor
  · intro h
    have hrest : nofBits % 8 = 0 := by
      by_contra hrest
      -- the last bit is not written
      obtain ⟨input, hinput⟩ := hone (table (nofBits + w - 1 - w))
      have hbit := h input (fun _ => 0) (nofBits + w - 1)
      rw [bitAt_run_pos _ _ _ _ hpos hw, if_neg (by omega), if_neg (by omega), if_neg (by omega),
        if_pos (by omega), hinput] at hbit
      simp [bitAt] at hbit
    refine .inr ⟨hrest, fun p hp hlt => ?_⟩
    obtain ⟨input, hinput⟩ := hone (table (p - w))
    have hbit := h input (fun _ => 0) p
    rw [bitAt_run_pos _ _ _ _ hpos hw, if_neg (by omega), if_pos (by omega), if_pos (by omega),
      hinput, hinput] at hbit
    simpa using hbit
  · rintro (rfl | ⟨hrest, htable⟩) input output p
    · cases hpos
    · exact bitAt_run_of_whole _ _ _ _ hpos hw hn hrest htable output p

theorem interleaves_sixteen : Interleaves true id 16 4 :=
  (interleaves_iff true id 16 4 (by decide) (by decide)).mpr
    (.inr ⟨rfl, fun p hp _ => congrArg id (by omega)⟩)

/-- With an offset of one, bit 8 of the output is input bit 1, not 7. -/
theorem not_interleaves_offset : ¬ Interleaves false id 16 1 := by
  intro h
  have hbit := h (fun _ => 0x40) (fun _ => 0) 8
  revert hbit
  decide

end BitInterleaver

end MbmsTx.Phy.Fec
