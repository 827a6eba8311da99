import MbmsTx.Phy.Fec.TurboFirst

/-!
# The byte-wise turbo coder is the bit-wise one

The parity bytes are, bit for bit, the parity bits of the encoder over bits (`bitAt_outAt`). The
loop of the second encoder writes them half a byte further (`foldl_encodeSecondByte`), over what the
interleaver made of the block, and the tail bits go behind the three streams. This holds if the
checksums fit into the block: otherwise the size of the block without them is negative, and the loop
over its bytes runs out of the buffer.
-/

namespace MbmsTx.Phy.Fec

open ByteBits Mealy Memory MbmsTx.Crc List Rsc Function

/-! ## Streams of bytes as streams of bits -/

theorem slice_zero_start {α : Type*} (mem : ℕ → α) (n : ℕ) :
    slice mem 0 n = (List.range n).map mem := by
  simp [slice]

variable (mem : ℕ → BitVec 8)

theorem run_slice (n : ℕ) :
    stateAt Rsc.step zero (bitAt mem) (8 * n) = ofState (stateAt lutStep 0 mem n) ∧
      (List.range (8 * n)).map (parityAt (bitAt mem)) =
        slice (bitAt (outAt lutStep 0 mem)) 0 (8 * n) := by
  have hrun := run_flatMap Rsc.step run_tcodLut 0 (slice mem 0 n)
  have hzero : ofState 0 = zero := by decide
  rw [flatMap_bitsOf_slice, mul_zero, slice_zero_start, slice_zero_start, hzero, run_map_range,
    run_map_range, ← slice_zero_start (outAt lutStep 0 mem), flatMap_bitsOf_slice,
    mul_zero] at hrun
  exact ⟨congrArg Prod.fst hrun, congrArg Prod.snd hrun⟩

theorem stateAt_bitAt (n : ℕ) :
    stateAt Rsc.step zero (bitAt mem) (8 * n) = ofState (stateAt lutStep 0 mem n) :=
  (run_slice mem n).1

theorem bitAt_outAt (p : ℕ) : bitAt (outAt lutStep 0 mem) p = parityAt (bitAt mem) p := by
  have hmap := (run_slice mem (p / 8 + 1)).2
  rw [← slice_zero_start] at hmap
  have := eq_of_slice_eq hmap (by omega : p < 8 * (p / 8 + 1))
  rw [zero_add] at this
  exact this.symm

variable {c : Coder} {m : ℕ}

theorem Coded.bitAt_parity (h : Coded c m) {p : ℕ} (hp : p < 8 * m) :
    bitAt c.parity p = parityAt (bitAt c.input) p := by
  have hpar := h.parity_eq
  rw [slice_zero_start c.input, run_map_range, ← slice_zero_start] at hpar
  have hbyte := eq_of_slice_eq hpar (by omega : p / 8 < m)
  rw [zero_add] at hbyte
  rw [bitAt_congr hbyte, bitAt_outAt]

theorem Coded.stateAt_eq (h : Coded c m) :
    stateAt Rsc.step zero (bitAt c.input) (8 * m) = ofState c.state0 := by
  rw [stateAt_bitAt, h.state_eq, slice_zero_start]
  rfl

/-! ## The second encoder -/

variable {j : ℕ}

theorem getMsbD_high_nibble (v : BitVec 8) (hj : j < 8) :
    ((v &&& 0xf0) >>> 4).getMsbD j = (decide (4 ≤ j) && v.getMsbD (j - 4)) := by
  interval_cases j <;> simp [BitVec.getMsbD]

theorem getMsbD_low_nibble (v : BitVec 8) (hj : j < 8) :
    ((v &&& 0xf) <<< 4).getMsbD j = (decide (j < 4) && v.getMsbD (j + 4)) := by
  interval_cases j <;> simp [BitVec.getMsbD]

/-- The parity bits of a byte go into the second half of one and the first of the next. -/
theorem bitAt_encodeSecondByte (temp : ℕ → BitVec 8) (base i : ℕ) (s : (ℕ → BitVec 8) × Fin 8)
    (p : ℕ) :
    bitAt (encodeSecondByte temp base s i).1 p =
      if p / 8 = base + i + 1 then
        decide (p % 8 < 4) && (lutStep s.2 (temp i)).2.getMsbD (p % 8 + 4)
      else if p / 8 = base + i then
        bitAt s.1 p || (decide (4 ≤ p % 8) && (lutStep s.2 (temp i)).2.getMsbD (p % 8 - 4))
      else bitAt s.1 p := by
  have hmod : p % 8 < 8 := Nat.mod_lt p (by decide)
  simp only [encodeSecondByte, bitAt_update, getMsbD_low_nibble _ hmod, BitVec.getMsbD_or,
    getMsbD_high_nibble _ hmod]
  split
  · rfl
  split
  · rename_i hbyte
    rw [bitAt, hbyte]
    rfl
  · rfl

/-- After `n` bytes their parity bits stand behind the first half of the byte `base`, and the rest
of the bytes written is clear. -/
theorem foldl_encodeSecondByte (temp : ℕ → BitVec 8) (base : ℕ) {parity : ℕ → BitVec 8}
    (hbase : parity base = 0) (n : ℕ) :
    let r := (List.range n).foldl (encodeSecondByte temp base) (parity, 0)
    r.2 = stateAt lutStep 0 temp n ∧
      ∀ p, bitAt r.1 p = if 8 * base ≤ p ∧ p < 8 * base + 8 * n + 8
        then decide (8 * base + 4 ≤ p ∧ p < 8 * base + 4 + 8 * n) &&
          bitAt (outAt lutStep 0 temp) (p - (8 * base + 4))
        else bitAt parity p := by
  induction n with
  | zero =>
    refine ⟨rfl, ?_⟩
    intro p
    by_cases hp : 8 * base ≤ p ∧ p < 8 * base + 8 * 0 + 8
    · have hclear : bitAt parity p = false := by
        rw [bitAt, (by omega : p / 8 = base), hbase, BitVec.ofNat_eq_ofNat, BitVec.getMsbD_zero]
      rw [if_pos hp, decide_eq_false (by omega), Bool.false_and]
      exact hclear
    · rw [if_neg hp]
      rfl
  | succ n ih =>
    obtain ⟨hstate, hbits⟩ := ih
    rw [range_succ, foldl_append, foldl_cons, foldl_nil]
    obtain ⟨s, hs⟩ : ∃ s, s = (List.range n).foldl (encodeSecondByte temp base) (parity, 0) :=
      ⟨_, rfl⟩
    rw [← hs] at hstate hbits ⊢
    have hout : outAt lutStep 0 temp n = (lutStep s.2 (temp n)).2 := by rw [hstate]; rfl
    refine ⟨by rw [stateAt_succ, ← hstate]; rfl, ?_⟩
    intro p
    rw [bitAt_encodeSecondByte, hbits p, ← hout]
    by_cases hnext : p / 8 = base + n + 1
    · have hidx : p - (8 * base + 4) = 8 * n + (p % 8 + 4) := by omega
      rw [if_pos hnext, if_pos (by omega), hidx]
      by_cases hlow : p % 8 < 4
      · rw [decide_eq_true hlow, decide_eq_true (by omega), bitAt_mul_add _ _ (by omega)]
      · rw [decide_eq_false hlow, decide_eq_false (by omega), Bool.false_and, Bool.false_and]
    · rw [if_neg hnext]
      by_cases hthis : p / 8 = base + n
      · rw [if_pos hthis, if_pos (by omega), if_pos (by omega)]
        by_cases hhigh : 4 ≤ p % 8
        · have hidx : p - (8 * base + 4) = 8 * n + (p % 8 - 4) := by omega
          rw [decide_eq_true hhigh, decide_eq_false (by omega), decide_eq_true (by omega), hidx,
            bitAt_mul_add _ _ (by omega), Bool.false_and, Bool.false_or]
        rw [decide_eq_false hhigh, Bool.false_and, Bool.or_false]
        congr 2
        simp
        omega
      · rw [if_neg hthis]
        by_cases hin : 8 * base ≤ p ∧ p < 8 * base + 8 * n + 8
        · rw [if_pos hin, if_pos (by omega)]
          congr 2
          simp
          omega
        · rw [if_neg hin, if_neg (by omega)]

/-! ## The tail bits -/

theorem getMsbD_bitPack_high (b : ℕ → Bool) (hj : j < 8) :
    ((bitPack (fun i => toBit (b i)) 4 <<< 4).setWidth 8).getMsbD j = (decide (j < 4) && b j) := by
  rw [BitVec.getMsbD, BitVec.getLsbD_setWidth, BitVec.getLsbD_shiftLeft,
    getLsbD_bitPack b (by decide)]
  interval_cases j <;> simp

theorem getMsbD_bitPack_low (b : ℕ → Bool) (hj : j < 8) :
    ((bitPack (fun i => toBit (b i)) 4 &&& 0xf).setWidth 8).getMsbD j =
      (decide (4 ≤ j) && b (j - 4)) := by
  rw [BitVec.getMsbD, BitVec.getLsbD_setWidth, BitVec.getLsbD_and, getLsbD_bitPack b (by decide)]
  interval_cases j <;> simp

/-! ## What the coder leaves -/

/-- The bits after the first encoder and the interleaver. -/
structure LutBits (c : Coder) (temp : ℕ → BitVec 8) (longCb : ℕ) (tail : List Bool) (r : Coder) :
    Prop where
  block : ∀ p < longCb, bitAt r.input p = bitAt c.input p
  blockTail : ∀ i < 4, bitAt r.input (longCb + i) = tail.getD (3 * i) false
  first : ∀ p < longCb, bitAt r.parity p = bitAt c.parity p
  firstTail : ∀ i < 4, bitAt r.parity (longCb + i) = tail.getD (3 * i + 1) false
  second : ∀ p < longCb, bitAt r.parity (longCb + 4 + p) = parityAt (bitAt temp) p
  secondTail : ∀ i < 4, bitAt r.parity (longCb + 4 + (longCb + i)) = tail.getD (3 * i + 2) false

/-- The parity bytes with the tail bits of both encoders. -/
def withTails (parity : ℕ → BitVec 8) (m : ℕ) (tail : List Bool) : ℕ → BitVec 8 :=
  let parity := update parity m
    (parity m ||| (bitPack (fun i => toBit (tail.getD (3 * i + 1) false)) 4 <<< 4).setWidth 8)
  update parity (2 * m)
    (parity (2 * m) |||
      (bitPack (fun i => toBit (tail.getD (3 * i + 2) false)) 4 &&& 0xf).setWidth 8)

theorem bitAt_withTails (parity : ℕ → BitVec 8) (m : ℕ) (tail : List Bool) (p : ℕ) :
    bitAt (withTails parity m tail) p =
      (bitAt parity p ||
        (decide (p / 8 = m) && (decide (p % 8 < 4) && tail.getD (3 * (p % 8) + 1) false)) ||
        (decide (p / 8 = 2 * m) &&
          (decide (4 ≤ p % 8) && tail.getD (3 * (p % 8 - 4) + 2) false))) := by
  have hmod : p % 8 < 8 := Nat.mod_lt p (by decide)
  rw [withTails, bitAt_update_or, bitAt_update_or, getMsbD_bitPack_low _ hmod,
    getMsbD_bitPack_high _ hmod]

variable {r : Coder}

theorem lutBits_withTails {temp parity2 : ℕ → BitVec 8} (hpos : 0 < m) {tail : List Bool}
    (hbits : ∀ p, bitAt parity2 p = if 8 * m ≤ p ∧ p < 8 * m + 8 * m + 8
      then decide (8 * m + 4 ≤ p ∧ p < 8 * m + 4 + 8 * m) &&
        bitAt (outAt lutStep 0 temp) (p - (8 * m + 4))
      else bitAt (update c.parity m 0) p) (hinput : r.input = update c.input m
      ((bitPack (fun i => toBit (tail.getD (3 * i) false)) 4 <<< 4).setWidth 8))
    (hparity : r.parity = withTails parity2 m tail) : LutBits c temp (8 * m) tail r where
  block := by
    intro p hp
    rw [hinput, bitAt_update, if_neg (by omega)]
  blockTail := by
    intro i hi
    have hmod : (8 * m + i) % 8 = i := by omega
    rw [hinput, bitAt_update, if_pos (by omega), hmod, getMsbD_bitPack_high _ (by omega),
      decide_eq_true hi, Bool.true_and]
  first := by
    intro p hp
    rw [hparity, bitAt_withTails, hbits, if_neg (by omega), bitAt_update, if_neg (by omega),
      decide_eq_false (by omega), decide_eq_false (by omega : ¬ p / 8 = 2 * m)]
    simp
  firstTail := by
    intro i hi
    have hmod : (8 * m + i) % 8 = i := by omega
    rw [hparity, bitAt_withTails, hbits, if_pos (by omega), hmod,
      decide_eq_false (by omega),
      decide_eq_true (by omega), decide_eq_true hi,
      decide_eq_false (by omega)]
    simp
  second := by
    intro p hp
    have hidx : 8 * m + 4 + p - (8 * m + 4) = p := by omega
    have houtside : ∀ {q r : Prop} [Decidable q] [Decidable r] (b : Bool), ¬ (q ∧ r) →
        (decide q && (decide r && b)) = false := by
      simp
    rw [hparity, bitAt_withTails, houtside _ (by omega), houtside _ (by omega), hbits,
      if_pos (by omega), hidx, bitAt_outAt,
      decide_eq_true (by omega), Bool.true_and, Bool.or_false, Bool.or_false]
  secondTail := by
    intro i hi
    have hmod : (8 * m + 4 + (8 * m + i)) % 8 = 4 + i := by omega
    rw [hparity, bitAt_withTails, hbits, if_pos (by omega), hmod,
      decide_eq_false (by omega),
      decide_eq_false (by omega),
      decide_eq_true (by omega : (8 * m + 4 + (8 * m + i)) / 8 = 2 * m),
      decide_eq_true (by omega : 4 ≤ 4 + i), Nat.add_sub_cancel_left 4 i]
    simp

variable {cblenIdx longCb : ℕ}

theorem exists_lutBits (sse : Bool) (temp : ℕ → BitVec 8) {crcTb : Crc} {crcCb : Option Crc}
    {input parity : ℕ → BitVec 8} {lastCb : Bool} (hsize : cbsize cblenIdx = some longCb)
    (hfirst : encodeFirst ⟨input, parity, crcTb, crcCb.map fun h => (h.setInit 0).1, 0⟩ longCb
      lastCb = some c) :
    ∃ r, tcodEncodeLut sse temp crcTb crcCb input parity cblenIdx lastCb = some r ∧
      LutBits c ((tcodInterleavers cblenIdx).run sse c.input temp 0) longCb
        ((ofState c.state0).tail nofRegs ++ (ofState (stateAt lutStep 0
          ((tcodInterleavers cblenIdx).run sse c.input temp 0) (longCb / 8))).tail nofRegs) r := by
  have h8 : longCb % 8 = 0 := (size_of_mem (mem_of_cbsize hsize)).1
  obtain ⟨temp', htemp⟩ : ∃ t, t = (tcodInterleavers cblenIdx).run sse c.input temp 0 := ⟨_, rfl⟩
  obtain ⟨⟨parity2, state1⟩, hsecond⟩ : ∃ s, s = (List.range (longCb / 8)).foldl
      (encodeSecondByte temp' (longCb / 8)) (update c.parity (longCb / 8) 0, 0) := ⟨_, rfl⟩
  obtain ⟨hstate, hbits⟩ := foldl_encodeSecondByte temp' (longCb / 8)
    (update_self (longCb / 8) 0 c.parity) (longCb / 8)
  rw [← hsecond] at hstate hbits
  obtain ⟨tail, htail⟩ : ∃ t, t = (ofState c.state0).tail nofRegs ++
      (ofState state1).tail nofRegs := ⟨_, rfl⟩
  have htailv : (stateRegs c.state0).tailing nofRegs ++ (stateRegs state1).tailing nofRegs =
      tail.map toBit := by
    rw [stateRegs_eq, stateRegs_eq, regs_tailing, regs_tailing, htail, map_append]
  have hget : ∀ k, (tail.map toBit).getD k 0 = toBit (tail.getD k false) := by
    intro k
    rw [getD_eq_getElem?_getD, getD_eq_getElem?_getD, List.getElem?_map]
    cases tail[k]? <;> rfl
  rw [← htemp, ← hstate, ← htail, tcodEncodeLut, if_pos (show cblenIdx < 188 from cbsize_lt hsize),
    hsize]
  simp only [Option.bind_eq_bind, Option.bind_some, h8, ne_eq, not_true_eq_false, if_false, hfirst,
    ← htemp, ← hsecond, htailv, hget]
  refine ⟨_, rfl, ?_⟩
  obtain ⟨m, rfl⟩ : ∃ m, longCb = 8 * m := ⟨longCb / 8, by omega⟩
  have hm : 8 * m / 8 = m := by omega
  have hm2 : 2 * (8 * m) / 8 = 2 * m := by omega
  have hpos : 0 < m := by
    have := (size_of_mem (mem_of_cbsize hsize)).2.1
    omega
  rw [hm] at hbits
  refine lutBits_withTails hpos hbits ?_ ?_
  · simp
  · rw [hm, hm2]
    rfl

/-! ## Both coders -/

theorem tcodPerFw_lt {i : ℕ} (hsize : cbsize cblenIdx = some longCb)
    (hi : i < longCb) : tcodPerFw cblenIdx i < longCb := by
  simp only [tcodPerFw, hsize, if_pos hi]
  exact Nat.mod_lt _ (by omega)

/-- The streams of the byte-wise coder are those that the bit-wise one interlaces. -/
structure SameStreams (r : Coder) (longCb : ℕ) (out : List (BitVec 8)) : Prop where
  systematic : ∀ n < longCb + 4, out[3 * n]? = some (toBit (bitAt r.input n))
  parity1 : ∀ n < longCb + 4, out[3 * n + 1]? = some (toBit (bitAt r.parity n))
  parity2 : ∀ n < longCb + 4, out[3 * n + 2]? = some (toBit (bitAt r.parity (longCb + 4 + n)))

/-- The block is the input with its checksums: in the last block that of the transport block, of
which the bytes `before` went before, and that of the code block. -/
structure ChecksAppended (before : List (BitVec 8)) (input : ℕ → BitVec 8) (longCb : ℕ)
    (withCb lastCb : Bool) (r : Coder) : Prop where
  data : ∀ p < longCb - crcLen withCb lastCb, bitAt r.input p = bitAt input p
  tb : lastCb = true → IsCheck gTb
    (before.flatMap bitsOf ++ slice (bitAt r.input) 0 (longCb - crcLen withCb lastCb))
    (slice (bitAt r.input) (longCb - crcLen withCb lastCb) 24)
  cb : withCb = true → IsCheck gCb (slice (bitAt r.input) 0 (longCb - 24))
    (slice (bitAt r.input) (longCb - 24) 24)

theorem LutBits.sameStreams {temp : ℕ → BitVec 8}
    (hsize : cbsize cblenIdx = some longCb) (hcoded : Coded c (longCb / 8))
    (htemp : ∀ p < longCb, bitAt temp p = bitAt c.input (tcodPerFw cblenIdx p))
    (h : LutBits c temp longCb ((ofState c.state0).tail nofRegs ++
      (ofState (stateAt lutStep 0 temp (longCb / 8))).tail nofRegs) r) :
    SameStreams r longCb ((interlaced (bitAt r.input) (tcodPerFw cblenIdx) longCb).map toBit) := by
  have h8 : 8 * (longCb / 8) = longCb := by
    have := (size_of_mem (mem_of_cbsize hsize)).1
    omega
  have hper : ∀ p < longCb, (bitAt r.input ∘ tcodPerFw cblenIdx) p = bitAt temp p := by
    intro p hp
    rw [comp_apply, h.block _ (tcodPerFw_lt hsize hp), htemp p hp]
  have htail : tailBits (bitAt r.input) (tcodPerFw cblenIdx) longCb =
      (ofState c.state0).tail nofRegs ++
        (ofState (stateAt lutStep 0 temp (longCb / 8))).tail nofRegs := by
    have hfirst := hcoded.stateAt_eq
    have hsecond := stateAt_bitAt temp (longCb / 8)
    rw [h8] at hfirst hsecond
    rw [tailBits, stateAt_congr Rsc.step zero h.block, stateAt_congr Rsc.step zero hper,
      hfirst, hsecond]
  have hlen : (tailBits (bitAt r.input) (tcodPerFw cblenIdx) longCb).length = 12 := by
    rfl
  rw [← htail] at h
  -- each stream is that of its encoder, and then its tail bits
  have hstream : ∀ {stream : ℕ → Bool} {j : ℕ}, j < 3 →
      (∀ n < longCb, [bitAt r.input n, parityAt (bitAt r.input) n,
        parityAt (bitAt r.input ∘ tcodPerFw cblenIdx) n][j]? = some (stream n)) →
      (∀ i < 4, stream (longCb + i) =
        (tailBits (bitAt r.input) (tcodPerFw cblenIdx) longCb).getD (3 * i + j) false) →
      ∀ n < longCb + 4, ((interlaced (bitAt r.input) (tcodPerFw cblenIdx) longCb).map
        toBit)[3 * n + j]? = some (toBit (stream n)) := by
    intro stream j hj hblock htails n hn
    rw [List.getElem?_map]
    rcases lt_or_ge n longCb with hlt | hge
    · rw [getElem?_interlaced _ _ hlt hj, hblock n hlt]
      rfl
    obtain ⟨i, rfl⟩ := Nat.exists_eq_add_of_le hge
    rw [mul_add, add_assoc, getElem?_interlaced_tail, htails i (by omega),
      getD_eq_getElem?_getD, List.getElem?_eq_getElem (by omega)]
    rfl
  refine ⟨hstream (j := 0) (by decide) (fun _ _ => rfl) h.blockTail,
    hstream (by decide) (fun n hn => congrArg some ?_) h.firstTail,
    hstream (by decide) (fun n hn => congrArg some ?_) h.secondTail⟩
  · rw [h.first n hn, hcoded.bitAt_parity (by omega)]
    exact outAt_congr Rsc.step zero fun i hi => h.block i (by omega)
  · rw [h.second n hn]
    exact outAt_congr Rsc.step zero fun i hi => hper i (by omega)

theorem FirstDone.checksAppended {start : Coder} {before : List (BitVec 8)}
    {lastCb : Bool} (h8 : longCb % 8 = 0) (hfit : crcLen start.crcCb.isSome lastCb ≤ longCb)
    (h : FirstDone start before longCb lastCb c)
    (hblock : ∀ p < longCb, bitAt r.input p = bitAt c.input p) :
    ChecksAppended before start.input longCb start.crcCb.isSome lastCb r := by
  have hlen : crcLen start.crcCb.isSome lastCb % 8 = 0 := by
    cases start.crcCb.isSome <;> cases lastCb <;> rfl
  have hslice : ∀ p n, p + n ≤ longCb → slice (bitAt r.input) p n = slice (bitAt c.input) p n := by
    intro p n hpn
    refine slice_congr ?_
    intro i hi
    exact hblock (p + i) (by omega)
  refine ⟨?_, ?_, ?_⟩
  · intro p hp
    rw [hblock p (by omega)]
    exact bitAt_congr (h.data _ (by omega))
  · intro hlast
    have hcheck := h.tb hlast
    have hbits : 8 * ((longCb - crcLen start.crcCb.isSome lastCb) / 8) =
        longCb - crcLen start.crcCb.isSome lastCb := by omega
    have h24 : 24 ≤ crcLen start.crcCb.isSome lastCb := by
      rw [hlast, crcLen]
      simp
    rw [flatMap_append, flatMap_bitsOf_slice, hbits] at hcheck
    rw [hslice _ _ (by omega), hslice _ _ (by omega)]
    exact hcheck
  · intro hsome
    have hcheck := h.cb hsome
    have h24 : 24 ≤ crcLen start.crcCb.isSome lastCb := by
      rw [hsome, crcLen]
      simp
    have hbits : 8 * ((longCb - 24) / 8) = longCb - 24 := by omega
    rw [flatMap_bitsOf_slice, hbits] at hcheck
    rw [hslice _ _ (by omega), hslice _ _ (by omega)]
    exact hcheck

/-- The checksum of a transport block after some bytes. -/
def tbCrc (before : List (BitVec 8)) : Crc := before.foldl Crc.putByte (.init lteCrc24a 24)

/-- The checksum of code blocks, after the bytes of earlier blocks. -/
def cbCrc (earlier : List (BitVec 8)) : Crc := earlier.foldl Crc.putByte (.init lteCrc24b 24)

/-- The byte-wise coder returns, leaves the streams of the bit-wise one for its block, and has
appended the checksums. -/
def CodersAgree (sse : Bool) (temp input parity : ℕ → BitVec 8) (before earlier : List (BitVec 8))
    (cblenIdx longCb : ℕ) (withCb lastCb : Bool) : Prop :=
  ∃ r out,
    tcodEncodeLut sse temp (tbCrc before) (if withCb then some (cbCrc earlier) else none)
      input parity cblenIdx lastCb = some r ∧
    tcodEncode tcodMaxLenCb (fun i => toBit (bitAt r.input i)) longCb = some out ∧
    SameStreams r longCb out ∧ ChecksAppended before input longCb withCb lastCb r

/-- The two turbo coders agree if the block has room for its checksums. -/
theorem coders_agree (sse : Bool) (temp input parity : ℕ → BitVec 8)
    (before earlier : List (BitVec 8)) (withCb lastCb : Bool) {cblenIdx longCb : ℕ}
    (hsize : cbsize cblenIdx = some longCb) (hfit : crcLen withCb lastCb ≤ longCb) :
    CodersAgree sse temp input parity before earlier cblenIdx longCb withCb lastCb := by
  obtain ⟨h8, -, hle⟩ := size_of_mem (mem_of_cbsize hsize)
  obtain ⟨crcCb, hcrcCb⟩ : ∃ h : Option Crc, h = if withCb then some (cbCrc earlier) else none :=
    ⟨_, rfl⟩
  obtain ⟨start, hstart⟩ : ∃ s : Coder, s =
      ⟨input, parity, tbCrc before, crcCb.map fun h => (h.setInit 0).1, 0⟩ := ⟨_, rfl⟩
  have hsome : start.crcCb.isSome = withCb := by
    rw [hstart, hcrcCb]
    cases withCb <;> rfl
  have htaken : Taken start before 0 start := by
    refine ⟨⟨by rw [hstart]; rfl, rfl⟩, rfl, ?_, ?_, rfl⟩
    · rw [slice_zero, append_nil, hstart]
      exact (Crc.divides_init (by decide) (by decide)).putBytes (by decide) before
    · intro hash hhash
      rw [hstart, hcrcCb] at hhash
      cases withCb with
      | false => cases hhash
      | true =>
        rw [← Option.some.inj hhash]
        have hdiv : Crc.Divides gCb (cbCrc earlier) (earlier.flatMap bitsOf) :=
          (Crc.divides_init (by decide) (by decide)).putBytes (by decide) earlier
        exact hdiv.setInit
  rw [← hsome] at hfit
  obtain ⟨c, hc, hdone⟩ := encodeFirst_eq h8 hle hfit htaken
  rw [hstart] at hc
  obtain ⟨r, hr, hbits⟩ := exists_lutBits sse temp hsize hc
  have htemp : ∀ p < longCb, bitAt ((tcodInterleavers cblenIdx).run sse c.input temp 0) p =
      bitAt c.input (tcodPerFw cblenIdx p) := by
    intro p hp
    rw [tcodInterleavers, hsize]
    exact (BitInterleaver.bitAt_run_zero ..).trans (if_pos hp)
  have hchecks := hdone.checksAppended h8 hfit hbits.block
  rw [hsome, hstart] at hchecks
  refine ⟨r, _, ?_, tcodEncode_eq hsize _, hbits.sameStreams hsize hdone.coded htemp, hchecks⟩
  rw [← hcrcCb]
  exact hr

theorem coders_agree_40_bits :
    crcLen false true ≤ 40 ∧ CodersAgree true (fun _ => 0) (fun _ => 0xa5) (fun _ => 0) [0x12, 0x34]
      [] 0 40 false true :=
  ⟨by decide, coders_agree true _ _ _ _ _ false true rfl (by decide)⟩

/-- Two checksums do not fit into a block of 40 bits. -/
theorem not_codersAgree_40_bits :
    cbsize 0 = some 40 ∧ ¬ CodersAgree true (fun _ => 0) (fun _ => 0) (fun _ => 0) [] [] 0 40 true
      true := by
  refine ⟨rfl, ?_⟩
  rintro ⟨r, out, hr, -⟩
  have hnone : tcodEncodeLut true (fun _ => 0) (tbCrc []) (some (cbCrc []))
      (fun _ => 0) (fun _ => 0) 0 true = none := rfl
  exact absurd (hnone.symm.trans hr) (by simp)

end MbmsTx.Phy.Fec
