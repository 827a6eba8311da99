import MbmsTx.Lib.Blocks
import MbmsTx.Lib.Memory

/-!
# The bits of words and of a memory of bytes

The bits of a word are listed from the most significant one on, and those of a memory of bytes are
numbered in the same order, so consecutive bytes have consecutive bits (`flatMap_bitsOf_slice`).
-/

namespace MbmsTx.ByteBits

open Memory List Function

/-- The bits of a word, the most significant first. -/
def bitsOf {n : ℕ} (v : BitVec n) : List Bool := (List.range n).map v.getMsbD

@[simp] theorem length_bitsOf {n : ℕ} (v : BitVec n) : (bitsOf v).length = n := by
  simp [bitsOf]

theorem or_decide_eq (b : ℕ → Bool) (l n : ℕ) :
    (decide (l < n) && b l || decide (n = l) && b n) = (decide (l < n + 1) && b l) := by
  rcases Nat.lt_trichotomy l n with hlt | rfl | hgt
  · simp [hlt, show l < n + 1 by omega, show n ≠ l by omega]
  · simp
  · simp [show ¬ l < n by omega, show ¬ l < n + 1 by omega, show n ≠ l by omega]

theorem or_ite_zero {w : ℕ} (c : Prop) [Decidable c] (u v : BitVec w) :
    (if c then u ||| v else u) = u ||| (if c then v else 0#w) := by
  split <;> simp

/-- A bit of a union of words, of which only one can have it. -/
theorem bit_foldl_or {w l n : ℕ} (bit : BitVec w → Bool) (hzero : bit 0#w = false)
    (hor : ∀ u v, bit (u ||| v) = (bit u || bit v)) {word : ℕ → BitVec w} {b : ℕ → Bool}
    (hword : ∀ k < n, bit (word k) = (decide (k = l) && b k)) :
    bit ((List.range n).foldl (fun out k => out ||| word k) 0#w) = (decide (l < n) && b l) := by
  induction n with
  | zero => simpa using hzero
  | succ n ih =>
    rw [range_succ, foldl_append, foldl_cons, foldl_nil, hor, hword n (Nat.lt_succ_self n),
      ih fun k hk => hword k (by omega), or_decide_eq]

/-- The bit at a position of a memory of bytes. -/
def bitAt (mem : ℕ → BitVec 8) (p : ℕ) : Bool := (mem (p / 8)).getMsbD (p % 8)

variable (mem : ℕ → BitVec 8)

theorem bitAt_mul_add (k : ℕ) {i : ℕ} (hi : i < 8) : bitAt mem (8 * k + i) = (mem k).getMsbD i := by
  have hdiv : (8 * k + i) / 8 = k := by omega
  have hmod : (8 * k + i) % 8 = i := by omega
  rw [bitAt, hdiv, hmod]

theorem bitAt_congr {mem mem' : ℕ → BitVec 8} {p : ℕ} (h : mem (p / 8) = mem' (p / 8)) :
    bitAt mem p = bitAt mem' p := by
  rw [bitAt, h, bitAt]

theorem bitAt_update (k : ℕ) (v : BitVec 8) (p : ℕ) :
    bitAt (update mem k v) p = if p / 8 = k then v.getMsbD (p % 8) else bitAt mem p := by
  rw [bitAt, update_apply, bitAt]
  split <;> rfl

theorem bitAt_update_or (k : ℕ) (v : BitVec 8) (p : ℕ) :
    bitAt (update mem k (mem k ||| v)) p =
      (bitAt mem p || (decide (p / 8 = k) && v.getMsbD (p % 8))) := by
  rw [bitAt_update]
  by_cases hk : p / 8 = k
  · rw [if_pos hk, decide_eq_true hk, Bool.true_and, BitVec.getMsbD_or, bitAt, hk]
  · rw [if_neg hk, decide_eq_false hk, Bool.false_and, Bool.or_false]

theorem flatMap_bitsOf_slice (start n : ℕ) :
    (slice mem start n).flatMap bitsOf = slice (bitAt mem) (8 * start) (8 * n) := by
  rw [slice, slice, Nat.mul_comm 8 n, Blocks.map_range_mul, flatMap_map]
  refine flatMap_congr ?_
  intro k _
  refine map_congr_left ?_
  intro i hi
  have hpos : 8 * start + (k * 8 + i) = 8 * (start + k) + i := by omega
  rw [hpos, bitAt_mul_add mem _ (mem_range.mp hi)]

theorem bitAt_foldl_update (mem v : ℕ → BitVec 8) (start n p : ℕ) :
    bitAt ((List.range n).foldl (fun m t => update m (start + t) (v t)) mem) p =
      if 8 * start ≤ p ∧ p < 8 * (start + n) then (v (p / 8 - start)).getMsbD (p % 8)
      else bitAt mem p := by
  rw [bitAt, foldl_update_add, apply_ite (BitVec.getMsbD · (p % 8))]
  exact if_congr (by omega) rfl rfl

/-! ## Copying bits -/

section Copied

variable {src dst mem : ℕ → BitVec 8} {i o n : ℕ}

/-- The memory `mem` is `dst` after `n` bits of a copy, from the position `i` of `src` to the
position `o`. -/
def Copied (src : ℕ → BitVec 8) (i : ℕ) (dst : ℕ → BitVec 8) (o n : ℕ)
    (mem : ℕ → BitVec 8) : Prop :=
  ∀ p, bitAt mem p = if o ≤ p ∧ p < o + n then bitAt src (i + (p - o)) else bitAt dst p

theorem copied_zero (src : ℕ → BitVec 8) (i : ℕ) (dst : ℕ → BitVec 8) (o : ℕ) :
    Copied src i dst o 0 dst := by
  intro p
  rw [if_neg (by omega)]

theorem Copied.update (h : Copied src i dst o n mem) {k r : ℕ} (hk : 8 * k ≤ o + n)
    (hr : o + n + r ≤ 8 * k + 8) {v : BitVec 8}
    (hv : ∀ j < 8, v.getMsbD j = if o + n ≤ 8 * k + j ∧ 8 * k + j < o + n + r then
      bitAt src (i + (8 * k + j - o)) else bitAt mem (8 * k + j)) :
    Copied src i dst o (n + r) (update mem k v) := by
  intro p
  rw [bitAt_update]
  by_cases hp : p / 8 = k
  · have hpos : 8 * k + p % 8 = p := by omega
    rw [if_pos hp, hv (p % 8) (Nat.mod_lt p (by decide)), hpos, h p]
    by_cases hnew : o + n ≤ p ∧ p < o + n + r
    · rw [if_pos hnew, if_pos (by omega)]
    · rw [if_neg hnew]
      exact if_congr (by omega) rfl rfl
  · rw [if_neg hp, h p]
    exact if_congr (by omega) rfl rfl

theorem Copied.foldl_update (h : Copied src i dst o n mem) {k : ℕ} (hk : 8 * k = o + n)
    {v : ℕ → BitVec 8} {m : ℕ}
    (hv : ∀ t < m, ∀ j < 8, (v t).getMsbD j = bitAt src (i + n + 8 * t + j)) :
    Copied src i dst o (n + 8 * m)
      ((List.range m).foldl (fun mem t => Function.update mem (k + t) (v t)) mem) := by
  induction m with
  | zero => exact h
  | succ m ih =>
    have hinit := ih fun t ht => hv t (by omega)
    rw [range_succ, foldl_append, foldl_cons, foldl_nil]
    refine hinit.update (r := 8) (by omega) (by omega) ?_
    intro j hj
    have hpos : i + n + 8 * m + j = i + (8 * (k + m) + j - o) := by omega
    rw [if_pos (by omega), hv m (by omega) j hj, hpos]

end Copied

end MbmsTx.ByteBits
