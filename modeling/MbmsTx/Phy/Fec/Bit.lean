import MbmsTx.Lib.ByteBits

/-!
# Single bits in bytes

The functions of `bit.c` that pack and unpack words: of an unpacked word every byte is one bit, the
most significant one first.
-/

namespace MbmsTx.Phy.Fec

open ByteBits Memory List

/-- A bit as a byte. -/
def toBit (b : Bool) : BitVec 8 := if b then 1 else 0

/-- `srsran_bit_pack`. -/
def bitPack (bits : ℕ → BitVec 8) (nofBits : ℕ) : BitVec 32 :=
  (range nofBits).foldl (fun value i =>
    value ||| ((bits i).setWidth 32 <<< (nofBits - i - 1))) 0

/-- `srsran_bit_unpack`, of which only the buffer is kept. -/
def bitUnpack (value : BitVec 32) (bits : ℕ → BitVec 8) (start nofBits : ℕ) : ℕ → BitVec 8 :=
  (range nofBits).foldl (fun bits i =>
    Function.update bits (start + i) (((value >>> (nofBits - i - 1)) &&& 1).setWidth 8)) bits

theorem getLsbD_toBit (b : Bool) (k : ℕ) : (toBit b).getLsbD k = (decide (k = 0) && b) := by
  cases b <;> simp [toBit]

theorem getMsbD_toBit_shiftLeft (b : Bool) {i j : ℕ} (hi : i < 8) (hj : j < 8) :
    (toBit b <<< (7 - i)).getMsbD j = (decide (i = j) && b) := by
  have hall : ∀ (b : Bool) (i j : Fin 8),
      (toBit b <<< (7 - i.val)).getMsbD j = (decide (i.val = j.val) && b) := by decide
  exact hall b ⟨i, hi⟩ ⟨j, hj⟩

theorem getLsbD_bitPack (b : ℕ → Bool) {n : ℕ} (hn : n ≤ 32) (k : ℕ) :
    (bitPack (fun i => toBit (b i)) n).getLsbD k = (decide (k < n) && b (n - 1 - k)) := by
  refine (bit_foldl_or (·.getLsbD k) (l := if k < n then n - 1 - k else n) (b := b)
    (by simp) (by simp) ?_).trans ?_
  · intro i hi
    have hiff : (i = if k < n then n - 1 - k else n) ↔ k = n - i - 1 := by split <;> omega
    simp only [hiff, BitVec.getLsbD_shiftLeft, BitVec.getLsbD_setWidth, getLsbD_toBit]
    by_cases hk : k = n - i - 1
    · simp [hk, show n - i - 1 < 32 by omega]
    · by_cases hlt : k < n - i - 1
      · simp [hlt, hk]
      · simp [hk, show k - (n - i - 1) ≠ 0 by omega]
  · by_cases hk : k < n
    · simp [hk, show n - 1 - k < n by omega]
    · simp [hk]

theorem bitUnpack_apply {n : ℕ} (value : BitVec 32) (bits : ℕ → BitVec 8) (start k : ℕ) :
    bitUnpack value bits start n k =
      if start ≤ k ∧ k < start + n then toBit ((value.setWidth n).getMsbD (k - start))
      else bits k := by
  rw [bitUnpack, foldl_update_add]
  by_cases hin : start ≤ k ∧ k < start + n
  · rw [if_pos hin, if_pos hin]
    refine BitVec.eq_of_getLsbD_eq ?_
    intro j hj
    obtain ⟨i, hi⟩ : ∃ i, k - start = i := ⟨_, rfl⟩
    have hplace : n - i - 1 = n - 1 - i := by omega
    rw [hi, getLsbD_toBit, BitVec.getMsbD]
    by_cases hzero : j = 0
    · subst hzero
      simp [hplace, show i < n by omega, show n - 1 - i < n by omega]
    · simp [hzero]
  · rw [if_neg hin, if_neg hin]

theorem slice_bitUnpack {n : ℕ} (hn : n ≤ 32) (v : BitVec n) (bits : ℕ → BitVec 8) (start : ℕ) :
    slice (bitUnpack (v.setWidth 32) bits start n) start n = (bitsOf v).map toBit := by
  rw [slice, bitsOf, map_map]
  refine map_congr_left ?_
  intro i hi
  rw [mem_range] at hi
  rw [bitUnpack_apply, if_pos (by omega), Nat.add_sub_cancel_left,
    BitVec.setWidth_setWidth_of_le _ hn, BitVec.setWidth_eq, Function.comp_apply]

theorem slice_bitUnpack_before (value : BitVec 32) (bits : ℕ → BitVec 8) (start nofBits : ℕ) :
    slice (bitUnpack value bits start nofBits) 0 start = slice bits 0 start := by
  refine slice_congr ?_
  intro i hi
  rw [bitUnpack, foldl_update_add, if_neg (by omega)]

end MbmsTx.Phy.Fec
