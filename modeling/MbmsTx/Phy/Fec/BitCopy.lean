import MbmsTx.Lib.ByteBits

/-!
# Copying packed bits

`srsran_bit_copy` of `bit.c` copies bits between two packed arrays. From and to the start of a byte
it copies bytes, and clears the rest of the last one; otherwise `bitarray_copy` completes the byte
that the destination starts in, copies whole bytes, shifted by the difference of the positions, and
merges what is left into the last byte. Either way the bits in front of the destination are kept and
the copied ones are those of the source (`bitAt_bitCopy`).
-/

namespace MbmsTx.Phy.Fec

open ByteBits BitVec Function

/-! ## The functions of the source -/

/-- The table `reverse_mask` of `bitarray_copy`, and `mask_dst` of `srsran_bit_copy`. -/
def reverseMask (k : ℕ) : BitVec 8 :=
  [0x00, 0x80, 0xc0, 0xe0, 0xf0, 0xf8, 0xfc, 0xfe, 0xff].getD k 0

/-- The table `reverse_mask_xor`. -/
def reverseMaskXor (k : ℕ) : BitVec 8 :=
  [0xff, 0x7f, 0x3f, 0x1f, 0x0f, 0x07, 0x03, 0x01, 0x00].getD k 0

/-- `PREPARE_FIRST_COPY`: the byte of the destination, the byte to be merged into it, and the number
of bits left. -/
def prepareFirstCopy (dst c : BitVec 8) (dstOffsetModulo srcLen : ℕ) : BitVec 8 × BitVec 8 × ℕ :=
  if 8 - dstOffsetModulo ≤ srcLen then
    (dst &&& reverseMask dstOffsetModulo, c, srcLen - (8 - dstOffsetModulo))
  else
    (dst &&& (reverseMask dstOffsetModulo ||| reverseMaskXor (dstOffsetModulo + srcLen)),
      c &&& reverseMask (dstOffsetModulo + srcLen), 0)

def memcpy (dst : ℕ → BitVec 8) (d : ℕ) (src : ℕ → BitVec 8) (s n : ℕ) : ℕ → BitVec 8 :=
  (List.range n).foldl (fun dst t => update dst (d + t) (src (s + t))) dst

/-- A byte of the source that starts inside of a byte. -/
def shifted (src : ℕ → BitVec 8) (s bitDiffLs bitDiffRs : ℕ) : BitVec 8 :=
  (src s <<< bitDiffLs) ||| (src (s + 1) >>> bitDiffRs)

/-- `bitarray_copy` for positions at one offset in their bytes. -/
def bitarrayCopyAligned (src : ℕ → BitVec 8) (s : ℕ) (srcLen : ℕ) (dst : ℕ → BitVec 8) (d : ℕ)
    (offsetModulo : ℕ) : ℕ → BitVec 8 :=
  let (dst, s, d, srcLen) :=
    if offsetModulo ≠ 0 then
      let c := reverseMaskXor offsetModulo &&& src s
      let (b, c, srcLen) := prepareFirstCopy (dst d) c offsetModulo srcLen
      (update dst d (b ||| c), s + 1, d + 1, srcLen)
    else (dst, s, d, srcLen)
  let byteLen := srcLen / 8
  let srcLenModulo := srcLen % 8
  let dst := memcpy dst d src s byteLen
  if srcLenModulo ≠ 0 then
    update dst (d + byteLen) ((dst (d + byteLen) &&& reverseMaskXor srcLenModulo) |||
      (reverseMask srcLenModulo &&& src (s + byteLen)))
  else dst

/-- `bitarray_copy` for positions at different offsets in their bytes. -/
def bitarrayCopyShifted (src : ℕ → BitVec 8) (s : ℕ) (srcLen : ℕ) (dst : ℕ → BitVec 8) (d : ℕ)
    (srcOffsetModulo dstOffsetModulo : ℕ) : ℕ → BitVec 8 :=
  let (bitDiffLs, bitDiffRs, c, s) :=
    if dstOffsetModulo < srcOffsetModulo then
      let bitDiffLs := srcOffsetModulo - dstOffsetModulo
      let bitDiffRs := 8 - bitDiffLs
      (bitDiffLs, bitDiffRs, shifted src s bitDiffLs bitDiffRs &&& reverseMaskXor dstOffsetModulo,
        s + 1)
    else
      let bitDiffRs := dstOffsetModulo - srcOffsetModulo
      (8 - bitDiffRs, bitDiffRs, (src s >>> bitDiffRs) &&& reverseMaskXor dstOffsetModulo, s)
  let (b, c, srcLen) := prepareFirstCopy (dst d) c dstOffsetModulo srcLen
  let dst := update dst d (b ||| c)
  let d := d + 1
  let byteLen := srcLen / 8
  let dst := (List.range byteLen).foldl (fun dst t =>
    update dst (d + t) (shifted src (s + t) bitDiffLs bitDiffRs)) dst
  let srcLenModulo := srcLen % 8
  if srcLenModulo ≠ 0 then
    let c := shifted src (s + byteLen) bitDiffLs bitDiffRs &&& reverseMask srcLenModulo
    update dst (d + byteLen) ((dst (d + byteLen) &&& reverseMaskXor srcLenModulo) ||| c)
  else dst

def bitarrayCopy (srcOrg : ℕ → BitVec 8) (srcOffset srcLen : ℕ) (dstOrg : ℕ → BitVec 8)
    (dstOffset : ℕ) : ℕ → BitVec 8 :=
  if srcLen ≠ 0 then
    if srcOffset % 8 = dstOffset % 8 then
      bitarrayCopyAligned srcOrg (srcOffset / 8) srcLen dstOrg (dstOffset / 8) (dstOffset % 8)
    else
      bitarrayCopyShifted srcOrg (srcOffset / 8) srcLen dstOrg (dstOffset / 8) (srcOffset % 8)
        (dstOffset % 8)
  else dstOrg

/-- `srsran_bit_copy`. -/
def bitCopy (dst : ℕ → BitVec 8) (dstOffset : ℕ) (src : ℕ → BitVec 8) (srcOffset nofBits : ℕ) :
    ℕ → BitVec 8 :=
  if dstOffset % 8 = 0 ∧ srcOffset % 8 = 0 then
    let dst := memcpy dst (dstOffset / 8) src (srcOffset / 8) (nofBits / 8)
    if nofBits % 8 ≠ 0 then
      update dst (dstOffset / 8 + nofBits / 8)
        (src (srcOffset / 8 + nofBits / 8) &&& reverseMask (nofBits % 8))
    else dst
  else bitarrayCopy src srcOffset nofBits dst dstOffset

/-! ## Bits of single bytes -/

variable {k j : ℕ}

theorem getMsbD_reverseMask (hk : k ≤ 8) (hj : j < 8) :
    (reverseMask k).getMsbD j = decide (j < k) := by
  have hall : ∀ k : Fin 9, ∀ j : Fin 8, (reverseMask k).getMsbD j = decide (j.val < k.val) := by
    decide
  exact hall ⟨k, by omega⟩ ⟨j, hj⟩

theorem getMsbD_reverseMaskXor (hk : k ≤ 8) (hj : j < 8) :
    (reverseMaskXor k).getMsbD j = decide (k ≤ j) := by
  have hall : ∀ k : Fin 9, ∀ j : Fin 8, (reverseMaskXor k).getMsbD j = decide (k.val ≤ j.val) := by
    decide
  exact hall ⟨k, by omega⟩ ⟨j, hj⟩

/-- A byte of the source that starts `ls` bits inside of one. -/
theorem getMsbD_shifted (src : ℕ → BitVec 8) (s : ℕ) {ls rs : ℕ} (hls : ls + rs = 8) (hj : j < 8) :
    (shifted src s ls rs).getMsbD j = bitAt src (8 * s + ls + j) := by
  rw [shifted, getMsbD_or, getMsbD_shiftLeft, getMsbD_ushiftRight]
  rcases Nat.lt_or_ge j rs with hlow | hhigh
  · have hpos : 8 * s + ls + j = 8 * s + (j + ls) := by omega
    rw [decide_eq_true hlow, hpos, bitAt_mul_add src s (by omega), Bool.not_true, Bool.false_and,
      Bool.and_false, Bool.or_false]
  have hpos : 8 * s + ls + j = 8 * (s + 1) + (j - rs) := by omega
  rw [decide_eq_false (Nat.not_lt_of_le hhigh), hpos, bitAt_mul_add src (s + 1) (by omega),
    getMsbD_of_ge _ _ (by omega), Bool.false_or, decide_eq_true hj,
    Bool.true_and, Bool.not_false, Bool.true_and]

theorem getMsbD_merge_left (b v : BitVec 8) (hk : k ≤ 8) (hj : j < 8) :
    ((b &&& reverseMaskXor k) ||| (v &&& reverseMask k)).getMsbD j =
      if j < k then v.getMsbD j else b.getMsbD j := by
  rw [getMsbD_or, getMsbD_and, getMsbD_and, getMsbD_reverseMaskXor hk hj,
    getMsbD_reverseMask hk hj]
  rcases Nat.lt_or_ge j k with hlt | hge
  · simp [hlt, Nat.not_le_of_lt hlt]
  · simp [hge, Nat.not_lt_of_le hge]

/-- The byte of the destination after the first copy, with the bits of `v`. -/
def firstByte (b v : BitVec 8) (o n : ℕ) : BitVec 8 :=
  (prepareFirstCopy b (v &&& reverseMaskXor o) o n).1 |||
    (prepareFirstCopy b (v &&& reverseMaskXor o) o n).2.1

variable {o : ℕ}

theorem getMsbD_firstByte (b v : BitVec 8) {n : ℕ} (ho : o < 8) (hj : j < 8) :
    (firstByte b v o n).getMsbD j =
      if o ≤ j ∧ j < o + n then v.getMsbD j else b.getMsbD j := by
  rw [firstByte, prepareFirstCopy]
  by_cases hfull : 8 - o ≤ n
  · rw [if_pos hfull, getMsbD_or, getMsbD_and, getMsbD_and,
      getMsbD_reverseMask (by omega) hj, getMsbD_reverseMaskXor (by omega) hj]
    rcases Nat.lt_or_ge j o with hlt | hge
    · simp [hlt, Nat.not_le_of_lt hlt]
    · simp [hge, Nat.not_lt_of_le hge, show j < o + n by omega]
  · rw [if_neg hfull]
    simp only [getMsbD_or, getMsbD_and, getMsbD_reverseMask (by omega : o ≤ 8) hj,
      getMsbD_reverseMask (by omega : o + n ≤ 8) hj, getMsbD_reverseMaskXor (by omega : o ≤ 8) hj,
      getMsbD_reverseMaskXor (by omega : o + n ≤ 8) hj]
    by_cases hin : o ≤ j ∧ j < o + n
    · simp [hin, Nat.not_lt_of_le hin.1, Nat.not_le_of_lt hin.2]
    rw [if_neg hin]
    rcases Nat.lt_or_ge j o with hlt | hge
    · simp [hlt, Nat.not_le_of_lt hlt]
    · have hout : o + n ≤ j := by omega
      simp [hge, hout, Nat.not_lt_of_le hout]

theorem prepareFirstCopy_left (b c : BitVec 8) (o n : ℕ) :
    (prepareFirstCopy b c o n).2.2 = n - (8 - o) := by
  rw [prepareFirstCopy]
  by_cases hfull : 8 - o ≤ n
  · rw [if_pos hfull]
  · rw [if_neg hfull]
    dsimp only
    omega

/-! ## The parts of the copy -/

section Parts

variable {src dst mem : ℕ → BitVec 8} {i : ℕ}

theorem copied_first (dst : ℕ → BitVec 8) (d : ℕ) (ho : o < 8) {v : BitVec 8}
    (hv : ∀ j < 8, o ≤ j → v.getMsbD j = bitAt src (i + (j - o))) (n : ℕ) :
    Copied src i dst (8 * d + o) (min n (8 - o))
      (update dst d (firstByte (dst d) v o n)) := by
  have hstep := (copied_zero src i dst (8 * d + o)).update (k := d)
    (r := min n (8 - o)) (by omega) (by omega) (v := firstByte (dst d) v o n)
  rw [Nat.zero_add] at hstep
  refine hstep ?_
  intro j hj
  rw [getMsbD_firstByte _ _ ho hj, bitAt_mul_add dst d hj]
  by_cases hin : o ≤ j ∧ j < o + n
  · have hpos : 8 * d + j - (8 * d + o) = j - o := by omega
    rw [if_pos hin, if_pos (by omega), hv j hj hin.1, hpos]
  · rw [if_neg hin, if_neg (by omega)]

/-- The rest of a copy: whole bytes, and a part of the last one. -/
def copyRest (mem : ℕ → BitVec 8) (k left : ℕ) (v : ℕ → BitVec 8) : ℕ → BitVec 8 :=
  let bytes := (List.range (left / 8)).foldl (fun mem t => update mem (k + t) (v t)) mem
  if left % 8 ≠ 0 then
    update bytes (k + left / 8) ((bytes (k + left / 8) &&& reverseMaskXor (left % 8)) |||
      (v (left / 8) &&& reverseMask (left % 8)))
  else bytes

theorem copied_rest {n : ℕ} (h : Copied src i dst o n mem) (left : ℕ)
    (hk : 0 < left → 8 * k = o + n) {v : ℕ → BitVec 8}
    (hv : 0 < left → ∀ t, ∀ j < 8, (v t).getMsbD j = bitAt src (i + n + 8 * t + j)) :
    Copied src i dst o (n + left) (copyRest mem k left v) := by
  rcases Nat.eq_zero_or_pos left with rfl | hpos
  · exact h
  have hk := hk hpos
  have hv := hv hpos
  have hbytes := h.foldl_update hk (m := left / 8) fun t _ => hv t
  rw [copyRest]
  generalize (List.range (left / 8)).foldl
    (fun mem t => update mem (k + t) (v t)) mem = bytes at hbytes ⊢
  have hmod : left % 8 < 8 := Nat.mod_lt _ (by decide)
  have hsum : n + left = n + 8 * (left / 8) + left % 8 := by omega
  rw [hsum]
  by_cases hzero : left % 8 ≠ 0
  · rw [if_pos hzero]
    refine hbytes.update (by omega) (by omega) ?_
    intro j hj
    rw [getMsbD_merge_left _ _ (by omega) hj, bitAt_mul_add bytes _ hj]
    by_cases hin : j < left % 8
    · have hpos : i + n + 8 * (left / 8) + j = i + (8 * (k + left / 8) + j - o) := by omega
      rw [if_pos hin, if_pos (by omega), hv _ j hj, hpos]
    · rw [if_neg hin, if_neg (by omega)]
  · rw [if_neg hzero, Decidable.not_not.mp hzero]
    exact hbytes

theorem copied_bytes (dst : ℕ → BitVec 8) (d : ℕ) (ho : o < 8) {v : BitVec 8}
    (hv : ∀ j < 8, o ≤ j → v.getMsbD j = bitAt src (i + (j - o))) {w : ℕ → BitVec 8}
    (hw : ∀ t, ∀ j < 8, (w t).getMsbD j = bitAt src (i + (8 - o) + 8 * t + j)) (n : ℕ) :
    Copied src i dst (8 * d + o) n
      (copyRest (update dst d (firstByte (dst d) v o n)) (d + 1) (n - (8 - o)) w) := by
  have hrest := copied_rest (copied_first dst d ho hv n) (k := d + 1) (n - (8 - o)) (by omega)
    (by
      intro hleft t j hj
      have hpos : min n (8 - o) = 8 - o := by omega
      rw [hpos, hw t j hj])
  have hlen : min n (8 - o) + (n - (8 - o)) = n := by omega
  rw [hlen] at hrest
  exact hrest

theorem copied_bitarrayCopyAligned (src dst : ℕ → BitVec 8) (s d : ℕ) (ho : o < 8) (n : ℕ) :
    Copied src (8 * s + o) dst (8 * d + o) n (bitarrayCopyAligned src s n dst d o) := by
  rw [bitarrayCopyAligned]
  by_cases hzero : o ≠ 0
  · rw [if_pos hzero, and_comm (reverseMaskXor o)]
    simp only [prepareFirstCopy_left, memcpy, and_comm (reverseMask _)]
    refine copied_bytes dst d ho ?_ ?_ n
    · intro j hj hoj
      have hpos : 8 * s + o + (j - o) = 8 * s + j := by omega
      rw [hpos, bitAt_mul_add src s hj]
    · intro t j hj
      have hpos : 8 * s + o + (8 - o) + 8 * t + j = 8 * (s + 1 + t) + j := by omega
      rw [hpos, bitAt_mul_add src _ hj]
  · have hrest := copied_rest (copied_zero src (8 * s + o) dst (8 * d + o)) (k := d)
      n (by omega) (by
        intro _ t j hj
        have hpos : 8 * s + o + 0 + 8 * t + j = 8 * (s + t) + j := by omega
        rw [hpos, bitAt_mul_add src _ hj])
    rw [Nat.zero_add] at hrest
    rw [if_neg hzero]
    simp only [memcpy, and_comm (reverseMask _)]
    exact hrest

theorem copied_bitarrayCopyShifted (src dst : ℕ → BitVec 8) (s d : ℕ) {so : ℕ} (hso : so < 8)
    (ho : o < 8) (n : ℕ) :
    Copied src (8 * s + so) dst (8 * d + o) n (bitarrayCopyShifted src s n dst d so o) := by
  rw [bitarrayCopyShifted]
  by_cases hlt : o < so
  · rw [if_pos hlt]
    simp only [prepareFirstCopy_left]
    refine copied_bytes dst d ho ?_
      (w := fun t => shifted src (s + 1 + t) (so - o) (8 - (so - o))) ?_ n
    · intro j hj hoj
      have hpos : 8 * s + so + (j - o) = 8 * s + (so - o) + j := by omega
      rw [hpos, getMsbD_shifted src s (by omega) hj]
    · intro t j hj
      have hpos : 8 * s + so + (8 - o) + 8 * t + j = 8 * (s + 1 + t) + (so - o) + j := by omega
      rw [hpos, getMsbD_shifted src _ (by omega) hj]
  · rw [if_neg hlt]
    simp only [prepareFirstCopy_left]
    refine copied_bytes dst d ho ?_ (w := fun t => shifted src (s + t) (8 - (o - so)) (o - so)) ?_ n
    · intro j hj hoj
      have hpos : 8 * s + so + (j - o) = 8 * s + (j - (o - so)) := by omega
      rw [getMsbD_ushiftRight, hpos, bitAt_mul_add src s (by omega), decide_eq_true hj,
        decide_eq_false (by omega), Bool.not_false, Bool.true_and, Bool.true_and]
    · intro t j hj
      have hpos : 8 * s + so + (8 - o) + 8 * t + j = 8 * (s + t) + (8 - (o - so)) + j := by omega
      rw [hpos, getMsbD_shifted src _ (by omega) hj]

end Parts

/-! ## The whole function -/

theorem copied_bitarrayCopy (src : ℕ → BitVec 8) (srcOffset n : ℕ) (dst : ℕ → BitVec 8)
    (dstOffset : ℕ) :
    Copied src srcOffset dst dstOffset n (bitarrayCopy src srcOffset n dst dstOffset) := by
  have hsrc : 8 * (srcOffset / 8) + srcOffset % 8 = srcOffset := by omega
  have hdst : 8 * (dstOffset / 8) + dstOffset % 8 = dstOffset := by omega
  have hsmod : srcOffset % 8 < 8 := Nat.mod_lt _ (by decide)
  have hdmod : dstOffset % 8 < 8 := Nat.mod_lt _ (by decide)
  rw [bitarrayCopy]
  by_cases hn : n ≠ 0
  · rw [if_pos hn]
    by_cases heq : srcOffset % 8 = dstOffset % 8
    · have hcopy := copied_bitarrayCopyAligned src dst (srcOffset / 8) (dstOffset / 8) hdmod n
      rw [← heq, hsrc, heq, hdst] at hcopy
      rw [if_pos heq]
      exact hcopy
    · have hcopy := copied_bitarrayCopyShifted src dst (srcOffset / 8) (dstOffset / 8) hsmod hdmod n
      rw [hsrc, hdst] at hcopy
      rw [if_neg heq]
      exact hcopy
  · rw [if_neg hn, Decidable.not_not.mp hn]
    exact copied_zero src srcOffset dst dstOffset

/-- The whole bytes copied between starts of bytes. -/
theorem copied_memcpy (src dst : ℕ → BitVec 8) {srcOffset dstOffset : ℕ}
    (haligned : dstOffset % 8 = 0 ∧ srcOffset % 8 = 0) (n : ℕ) :
    Copied src srcOffset dst dstOffset (8 * n)
      (memcpy dst (dstOffset / 8) src (srcOffset / 8) n) := by
  have hbytes := (copied_zero src srcOffset dst dstOffset).foldl_update
    (k := dstOffset / 8) (by omega) (v := fun t => src (srcOffset / 8 + t)) (m := n)
    (by
      intro t _ j hj
      have hpos : srcOffset + 0 + 8 * t + j = 8 * (srcOffset / 8 + t) + j := by omega
      rw [hpos, bitAt_mul_add src _ hj])
  rw [Nat.zero_add] at hbytes
  exact hbytes

/-- The bits up to the end of the copy; with both positions at the start of a byte, the rest of the
last byte is cleared. -/
theorem bitAt_bitCopy (dst : ℕ → BitVec 8) (dstOffset : ℕ) (src : ℕ → BitVec 8) (srcOffset n : ℕ)
    {p : ℕ} (hp : p < dstOffset + n) :
    bitAt (bitCopy dst dstOffset src srcOffset n) p =
      if dstOffset ≤ p then bitAt src (srcOffset + (p - dstOffset)) else bitAt dst p := by
  have hif : (if dstOffset ≤ p then bitAt src (srcOffset + (p - dstOffset)) else bitAt dst p) =
      if dstOffset ≤ p ∧ p < dstOffset + n then bitAt src (srcOffset + (p - dstOffset))
      else bitAt dst p := by
    simp [hp]
  rw [hif, bitCopy]
  by_cases haligned : dstOffset % 8 = 0 ∧ srcOffset % 8 = 0
  · have hbytes := copied_memcpy src dst haligned (n / 8)
    rw [if_pos haligned]
    dsimp only
    by_cases hzero : n % 8 ≠ 0
    · rw [if_pos hzero, bitAt_update]
      by_cases hlast : p / 8 = dstOffset / 8 + n / 8
      · have hpos : srcOffset + (p - dstOffset) = 8 * (srcOffset / 8 + n / 8) + p % 8 := by omega
        rw [if_pos hlast, if_pos (by omega), hpos, bitAt_mul_add src _ (Nat.mod_lt p (by decide)),
          getMsbD_and, getMsbD_reverseMask (by omega) (Nat.mod_lt p (by decide)),
          decide_eq_true (by omega), Bool.and_true]
      · rw [if_neg hlast, hbytes p]
        exact if_congr (by omega) rfl rfl
    · have hlen : 8 * (n / 8) = n := by omega
      rw [if_neg hzero, hbytes p, hlen]
  · rw [if_neg haligned]
    exact copied_bitarrayCopy src srcOffset n dst dstOffset p

/-- Between starts of bytes, the rest of the last byte is cleared. -/
theorem copied_bitCopy_iff (dstOffset srcOffset n : ℕ) :
    (∀ src dst, Copied src srcOffset dst dstOffset n (bitCopy dst dstOffset src srcOffset n)) ↔
      (dstOffset % 8 = 0 ∧ srcOffset % 8 = 0 → n % 8 = 0) := by
  simp only [bitCopy]
  by_cases haligned : dstOffset % 8 = 0 ∧ srcOffset % 8 = 0
  · simp only [if_pos haligned]
    by_cases hzero : n % 8 ≠ 0
    · refine iff_of_false (fun h => ?_) (fun h => hzero (h haligned))
      have hbit := h (fun _ => 0) (fun _ => reverseMask 8) (dstOffset + n)
      have hmod : (dstOffset + n) % 8 < 8 := Nat.mod_lt _ (by decide)
      rw [if_pos hzero, bitAt_update, if_pos (by omega), if_neg (by omega), bitAt,
        getMsbD_reverseMask (Nat.le_refl 8) hmod, decide_eq_true hmod] at hbit
      simp at hbit
    · have hlen : 8 * (n / 8) = n := by omega
      simp only [if_neg hzero]
      refine iff_of_true (fun src dst => ?_) fun _ => Decidable.not_not.mp hzero
      have hbytes := copied_memcpy src dst haligned (n / 8)
      rw [hlen] at hbytes
      exact hbytes
  · simp only [if_neg haligned]
    exact iff_of_true (fun src dst => copied_bitarrayCopy src srcOffset n dst dstOffset)
      fun h => absurd h haligned

/-- `srsran_bit_copy` on its 32-bit arguments. `bitarray_copy` takes them as signed numbers, and
from `2 ^ 31` on indexes its tables and the arrays with negative ones. -/
def bitCopy32 (dst : ℕ → BitVec 8) (dstOffset : UInt32) (src : ℕ → BitVec 8)
    (srcOffset nofBits : UInt32) : Option (ℕ → BitVec 8) :=
  if (dstOffset.toNat % 8 = 0 ∧ srcOffset.toNat % 8 = 0) ∨ nofBits = 0 ∨
      dstOffset.toNat < 0x80000000 ∧ srcOffset.toNat < 0x80000000 ∧ nofBits.toNat < 0x80000000 then
    some (bitCopy dst dstOffset.toNat src srcOffset.toNat nofBits.toNat)
  else none

theorem bitCopy32_of_lt {dst src : ℕ → BitVec 8} {dstOffset srcOffset nofBits : ℕ}
    (hdst : dstOffset < 0x80000000) (hsrc : srcOffset < 0x80000000) (hbits : nofBits < 0x80000000) :
    bitCopy32 dst (.ofNat dstOffset) src (.ofNat srcOffset) (.ofNat nofBits) =
      some (bitCopy dst dstOffset src srcOffset nofBits) := by
  have hof : ∀ {n : ℕ}, n < 0x80000000 → (UInt32.ofNat n).toNat = n := fun h =>
    UInt32.toNat_ofNat_of_lt (Nat.lt_trans h (by decide))
  rw [bitCopy32, hof hdst, hof hsrc, hof hbits, if_pos (.inr (.inr ⟨hdst, hsrc, hbits⟩))]

/-- The copy is exact unless both positions are at the start of a byte and the length is not whole
bytes. -/
theorem bitCopy32_exact_iff (dstOffset srcOffset nofBits : UInt32) :
    (∀ src dst, ∃ mem, bitCopy32 dst dstOffset src srcOffset nofBits = some mem ∧
      Copied src srcOffset.toNat dst dstOffset.toNat nofBits.toNat mem) ↔
    if dstOffset.toNat % 8 = 0 ∧ srcOffset.toNat % 8 = 0 then nofBits.toNat % 8 = 0
    else nofBits = 0 ∨
      dstOffset.toNat < 0x80000000 ∧ srcOffset.toNat < 0x80000000 ∧ nofBits.toNat < 0x80000000 := by
  have hcopy := copied_bitCopy_iff dstOffset.toNat srcOffset.toNat nofBits.toNat
  by_cases haligned : dstOffset.toNat % 8 = 0 ∧ srcOffset.toNat % 8 = 0
  · simp only [bitCopy32, if_pos haligned, if_pos (Or.inl haligned), Option.some.injEq,
      exists_eq_left']
    exact hcopy.trans (forall_prop_of_true haligned)
  simp only [bitCopy32, haligned, false_or, if_false]
  split
  · next hdefined =>
    simp only [Option.some.injEq, exists_eq_left']
    exact iff_of_true (hcopy.mpr fun h => absurd h haligned) hdefined
  · next hundefined => exact iff_of_false (by simp) hundefined

theorem bitCopy32_clears : ¬ ∃ mem, bitCopy32 (fun _ => 0xff) 0 (fun _ => 0xff) 0 1 = some mem ∧
    Copied (fun _ => 0xff) 0 (fun _ => 0xff) 0 1 mem := by
  rintro ⟨mem, hmem, hcopied⟩
  obtain rfl := Option.some.inj hmem
  exact absurd (hcopied 1) (by decide)

end MbmsTx.Phy.Fec
