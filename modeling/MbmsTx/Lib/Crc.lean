import Mathlib.Algebra.Polynomial.Div
import Mathlib.Algebra.Field.ZMod
import Mathlib.Tactic.LinearCombination
import MbmsTx.Lib.ByteBits

/-!
# Cyclic redundancy checks

A register of `n` bits divides a message, one bit at a time, by the generator `X ^ n + g`, whose
lower coefficients are the bits of `g`. It ends with the remainder of the message times `X ^ n`
(`poly_remainder`).

Feeding bits is linear in the register (`foldl_push_xor`), and a bit that agrees with the leading
bit only shifts it. So eight bits at once are a shift by eight places and an entry of a table for
the leading byte (`foldl_push_byte`).
-/

namespace MbmsTx.Crc

open ByteBits Polynomial List

variable {n : ℕ}

/-! ## The register -/

/-- The register takes in one bit of the message. -/
def push (g r : BitVec n) (b : Bool) : BitVec n :=
  (r <<< 1) ^^^ (if r.msb ^^ b then g else 0#n)

/-- What is left of a message. -/
def remainder (g : BitVec n) (msg : List Bool) : BitVec n := msg.foldl (push g) 0#n

variable (g : BitVec n)

theorem remainder_append (msg more : List Bool) :
    remainder g (msg ++ more) = more.foldl (push g) (remainder g msg) := foldl_append

/-! ## Polynomials over the field with two elements -/

/-- A bit as a coefficient. -/
def coeff (b : Bool) : ZMod 2 := if b then 1 else 0

theorem coeff_xor (a b : Bool) : coeff (a ^^ b) = coeff a + coeff b := by
  revert a b
  decide

/-- A word as the polynomial with its bits as coefficients. -/
noncomputable def poly (v : BitVec n) : (ZMod 2)[X] :=
  ∑ i ∈ Finset.range n, C (coeff (v.getLsbD i)) * X ^ i

/-- A message as a polynomial, the first bit its leading coefficient. -/
noncomputable def messagePoly (msg : List Bool) : (ZMod 2)[X] :=
  msg.foldl (fun p b => p * X + C (coeff b)) 0

/-- The generator whose lower coefficients are the bits of a word. -/
noncomputable def generator (g : BitVec n) : (ZMod 2)[X] := X ^ n + poly g

variable (msg : List Bool)

theorem messagePoly_concat (b : Bool) :
    messagePoly (msg ++ [b]) = messagePoly msg * X + C (coeff b) := by
  simp [messagePoly]

theorem degree_poly_lt (v : BitVec n) : (poly v).degree < n := by
  refine (degree_sum_le _ _).trans_lt ?_
  refine (Finset.sup_lt_iff (WithBot.bot_lt_coe n)).mpr ?_
  intro i hi
  refine (degree_C_mul_X_pow_le i _).trans_lt ?_
  exact WithBot.coe_lt_coe.mpr (Finset.mem_range.mp hi)

theorem monic_generator : (generator g).Monic := monic_X_pow_add (degree_poly_lt g)

theorem degree_generator : (generator g).degree = n := by
  rw [generator, add_comm, degree_add_eq_right_of_degree_lt]
  · simp
  · rw [degree_X_pow]
    exact degree_poly_lt g

theorem poly_zero : poly 0#n = 0 := by
  simp [poly, coeff]

theorem poly_xor (x y : BitVec n) : poly (x ^^^ y) = poly x + poly y := by
  simp [poly, coeff_xor, add_mul, Finset.sum_add_distrib]

theorem poly_shiftLeft_one (v : BitVec n) :
    poly (v <<< 1) = poly v * X + C (coeff v.msb) * X ^ n := by
  cases n with
  | zero => simp [poly, coeff, BitVec.msb, BitVec.getMsbD]
  | succ n =>
    have hmsb : v.msb = v.getLsbD n := by rfl
    have hshift : ∀ i ∈ Finset.range n,
        C (coeff ((v <<< 1).getLsbD (i + 1))) * X ^ (i + 1) =
          C (coeff (v.getLsbD i)) * X ^ i * (X : (ZMod 2)[X]) := by
      intro i hi
      have hlt : i + 1 < n + 1 := by simpa using hi
      rw [BitVec.getLsbD_shiftLeft]
      simp only [hlt, decide_true, Bool.true_and, pow_succ, mul_assoc]
      simp
    have htwice : C (coeff v.msb) * X ^ (n + 1) + C (coeff v.msb) * X ^ (n + 1) =
        (0 : (ZMod 2)[X]) := CharTwo.add_self_eq_zero _
    have hlast : C (coeff ((v <<< 1).getLsbD 0)) * X ^ 0 = (0 : (ZMod 2)[X]) := by
      simp [coeff]
    rw [poly, Finset.sum_range_succ', Finset.sum_congr rfl hshift, ← Finset.sum_mul, hlast, poly,
      Finset.sum_range_succ, ← hmsb]
    linear_combination -htwice

theorem poly_push (g r : BitVec n) (b : Bool) : poly (push g r b) =
      poly r * X + C (coeff b) * X ^ n + C (coeff (r.msb ^^ b)) * generator g := by
  have hg : poly (if r.msb ^^ b then g else 0#n) = C (coeff (r.msb ^^ b)) * poly g := by
    cases r.msb ^^ b <;> simp [coeff, poly_zero]
  have htwice : C (coeff b) * X ^ n + C (coeff b) * X ^ n = (0 : (ZMod 2)[X]) :=
    CharTwo.add_self_eq_zero _
  rw [push, poly_xor, poly_shiftLeft_one, hg, generator, coeff_xor, C_add]
  linear_combination -htwice

theorem poly_remainder : poly (remainder g msg) = (messagePoly msg * X ^ n) %ₘ generator g := by
  have hdiv : ∃ q, poly (remainder g msg) + generator g * q = messagePoly msg * X ^ n := by
    induction msg using reverseRecOn with
    | nil => exact ⟨0, by simp [remainder, messagePoly, poly_zero]⟩
    | append_singleton msg b ih =>
      obtain ⟨q, hq⟩ := ih
      have htwice : ∀ p : (ZMod 2)[X], p + p = 0 := CharTwo.add_self_eq_zero
      refine ⟨q * X + C (coeff ((remainder g msg).msb ^^ b)), ?_⟩
      rw [remainder_append, foldl_cons, foldl_nil, poly_push, messagePoly_concat]
      linear_combination X * hq + htwice (C (coeff ((remainder g msg).msb ^^ b)) * generator g)
  obtain ⟨q, hq⟩ := hdiv
  have hdeg : (poly (remainder g msg)).degree < (generator g).degree := by
    rw [degree_generator]
    exact degree_poly_lt _
  exact (div_modByMonic_unique q _ (monic_generator g) ⟨hq, hdeg⟩).2.symm

theorem messagePoly_map_range (f : ℕ → Bool) (m : ℕ) : messagePoly ((List.range m).map f) =
      ∑ i ∈ Finset.range m, C (coeff (f i)) * X ^ (m - 1 - i) := by
  induction m with
  | zero => rfl
  | succ m ih =>
    rw [range_succ, map_append, map_singleton, messagePoly_concat, ih,
      Finset.sum_range_succ, Finset.sum_mul]
    refine congrArg₂ (· + ·) (Finset.sum_congr rfl ?_) (by simp)
    intro i hi
    have hplace : m + 1 - 1 - i = m - 1 - i + 1 := by
      have := Finset.mem_range.mp hi
      omega
    rw [hplace, pow_succ, mul_assoc]

theorem messagePoly_bitsOf (v : BitVec n) : messagePoly (bitsOf v) = poly v := by
  rw [bitsOf, messagePoly_map_range, poly, ← Finset.sum_range_reflect]
  refine Finset.sum_congr rfl ?_
  intro i hi
  have hlt := Finset.mem_range.mp hi
  have hplace : n - 1 - (n - 1 - i) = i := by omega
  simp [BitVec.getMsbD, hplace, show n - 1 - i < n by omega]

/-- The bits `check` are those of the generator for a message. -/
def IsCheck (g : BitVec n) (msg check : List Bool) : Prop :=
  check.length = n ∧ messagePoly check = (messagePoly msg * X ^ n) %ₘ generator g

theorem isCheck_remainder : IsCheck g msg (bitsOf (remainder g msg)) :=
  ⟨length_bitsOf _, by rw [messagePoly_bitsOf, poly_remainder]⟩

/-! ## A byte at a time -/

theorem push_xor (g x y : BitVec n) (a b : Bool) :
    push g (x ^^^ y) (a ^^ b) = push g x a ^^^ push g y b := by
  have hfeed : (if (x ^^^ y).msb ^^ (a ^^ b) then g else 0#n) =
      (if x.msb ^^ a then g else 0#n) ^^^ (if y.msb ^^ b then g else 0#n) := by
    rw [BitVec.msb_xor]
    cases x.msb <;> cases y.msb <;> cases a <;> cases b <;> simp
  rw [push, push, push, hfeed, BitVec.shiftLeft_xor_distrib]
  ac_rfl

theorem foldl_push_zipWith (g x y : BitVec n) {msg more : List Bool}
    (hlen : msg.length = more.length) :
    (zipWith (· ^^ ·) msg more).foldl (push g) (x ^^^ y) =
      msg.foldl (push g) x ^^^ more.foldl (push g) y := by
  induction msg generalizing x y more with
  | nil =>
    rw [length_eq_zero_iff.mp hlen.symm]
    rfl
  | cons a msg ih =>
    cases more with
    | nil => cases hlen
    | cons b more =>
      rw [zipWith_cons_cons, foldl_cons, push_xor, ih _ _ (by simpa using hlen)]
      rfl

theorem bitsOf_xor (x y : BitVec n) :
    bitsOf (x ^^^ y) = zipWith (· ^^ ·) (bitsOf x) (bitsOf y) := by
  refine ext_getElem (by simp) ?_
  intro i hi hi'
  simp [bitsOf]

theorem foldl_push_replicate_false (g r : BitVec n) (k : ℕ) :
    (replicate k false).foldl (push g) r = (push g · false)^[k] r := by
  induction k generalizing r with
  | zero => rfl
  | succ k ih => rw [replicate_succ, foldl_cons, ih, Function.iterate_succ_apply]

theorem iterate_push_zero (k : ℕ) : (push g · false)^[k] 0#n = 0#n := by
  have hfixed : push g 0#n false = 0#n := by simp [push]
  exact Function.iterate_fixed hfixed k

theorem foldl_push_xor (g x y : BitVec n) (msg : List Bool) : msg.foldl (push g) (x ^^^ y) =
      (push g · false)^[msg.length] x ^^^ msg.foldl (push g) y := by
  have hzip : zipWith (· ^^ ·) (replicate msg.length false) msg = msg := by
    refine ext_getElem (by simp) ?_
    simp
  have hlinear := foldl_push_zipWith g x y (length_replicate (n := msg.length) (a := false))
  rwa [hzip, foldl_push_replicate_false] at hlinear

theorem foldl_push_of_getMsbD {g v : BitVec n} {msg : List Bool} (hlen : msg.length ≤ n)
    (hmsg : ∀ i < msg.length, msg[i]? = some (v.getMsbD i)) :
    msg.foldl (push g) v = v <<< msg.length := by
  induction msg generalizing v with
  | nil => simp
  | cons b msg ih =>
    have hb : b = v.msb := by
      have := hmsg 0 (by simp)
      simpa [BitVec.msb] using this
    have hpush : push g v b = v <<< 1 := by simp [push, hb]
    rw [foldl_cons, hpush, ih (by simp at hlen; omega)]
    · rw [← BitVec.shiftLeft_add, length_cons, add_comm]
    · intro i hi
      have hget := hmsg (i + 1) (by simpa using hi)
      rw [BitVec.getMsbD_shiftLeft]
      assumption

theorem foldl_push_bitsOf_self (g r : BitVec n) : (bitsOf r).foldl (push g) r = 0#n := by
  have hbits : ∀ i < (bitsOf r).length, (bitsOf r)[i]? = some (r.getMsbD i) := by
    intro i hi
    rw [length_bitsOf] at hi
    simp [bitsOf, hi]
  rw [foldl_push_of_getMsbD (length_bitsOf r).le hbits, length_bitsOf,
    BitVec.shiftLeft_eq_zero (Nat.le_refl n)]

theorem remainder_append_bitsOf : remainder g (msg ++ bitsOf (remainder g msg)) = 0#n := by
  rw [remainder_append, foldl_push_bitsOf_self]

/-- The entry of the table for a leading byte. -/
def tableEntry (g : BitVec n) (i : BitVec 8) : BitVec n :=
  (push g · false)^[8] (i.setWidth n <<< (n - 8))

theorem foldl_push_byte (hn : 8 ≤ n) (g r : BitVec n) (b : BitVec 8) : (bitsOf b).foldl (push g) r =
      (r <<< 8) ^^^ tableEntry g ((r >>> (n - 8)).setWidth 8 ^^^ b) := by
  -- the part of the register whose leading byte is the byte fed is only shifted
  obtain ⟨top, htop⟩ : ∃ top : BitVec n,
      top = ((r >>> (n - 8)).setWidth 8 ^^^ b).setWidth n <<< (n - 8) := ⟨_, rfl⟩
  have hsplit : r = top ^^^ (top ^^^ r) := by
    rw [← BitVec.xor_assoc, BitVec.xor_self, BitVec.zero_xor]
  have hmsg : ∀ i < (bitsOf b).length, (bitsOf b)[i]? = some ((top ^^^ r).getMsbD i) := by
    intro i hi
    rw [length_bitsOf] at hi
    have htopBit : top.getMsbD i = (r.getMsbD i ^^ b.getMsbD i) := by
      have hplace : n - 1 - i - (n - 8) = 7 - i := by omega
      have hback : n - 8 + (7 - i) = n - 1 - i := by omega
      have hge : ¬ n - 1 - i < n - 8 := by omega
      simp [htop, BitVec.getMsbD, hplace, hback, hge, hi, show i < n by omega,
        show n - 1 - i < n by omega, show 7 - i < n by omega, show 7 - i < 8 by omega]
    have hxor : (r.getMsbD i ^^ b.getMsbD i ^^ r.getMsbD i) = b.getMsbD i := by
      cases r.getMsbD i <;> cases b.getMsbD i <;> rfl
    rw [BitVec.getMsbD_xor, htopBit, hxor]
    simp [bitsOf, hi]
  have hout : (top ^^^ r) <<< 8 = r <<< 8 := by
    rw [BitVec.shiftLeft_xor_distrib, htop, ← BitVec.shiftLeft_add,
      BitVec.shiftLeft_eq_zero (by omega), BitVec.zero_xor]
  conv_lhs => rw [hsplit]
  rw [foldl_push_xor, foldl_push_of_getMsbD (by simpa using hn) hmsg, length_bitsOf, hout,
    BitVec.xor_comm, tableEntry, htop]

theorem remainder_bitsOf (hn : 8 ≤ n) (g : BitVec n) (b : BitVec 8) :
    remainder g (bitsOf b) = tableEntry g b := by
  rw [remainder, foldl_push_byte hn]
  simp

/-! ## Registers that are shorter than a byte -/

/-- A register at the upper end of a longer one. -/
def aligned (m : ℕ) (r : BitVec n) : BitVec m := r.setWidth m <<< (m - n)

variable {m : ℕ}

theorem getMsbD_aligned (hn : n ≤ m) (r : BitVec n) (i : ℕ) :
    (aligned m r).getMsbD i = r.getMsbD i := by
  rw [aligned, BitVec.getMsbD_shiftLeft, BitVec.getMsbD_setWidth]
  have hplace : i + (m - n) + n - m = i := by omega
  simp [hplace]

theorem aligned_xor (m : ℕ) (x y : BitVec n) :
    aligned m (x ^^^ y) = aligned m x ^^^ aligned m y := by
  rw [aligned, BitVec.setWidth_xor, BitVec.shiftLeft_xor_distrib, aligned, aligned]

theorem aligned_zero (m : ℕ) : aligned m 0#n = 0#m := by
  simp [aligned]

theorem push_aligned (hn : n ≤ m) (g r : BitVec n) (b : Bool) :
    push (aligned m g) (aligned m r) b = aligned m (push g r b) := by
  have hmsb : (aligned m r).msb = r.msb := getMsbD_aligned hn r 0
  have hshift : aligned m r <<< 1 = aligned m (r <<< 1) := by
    refine BitVec.eq_of_getMsbD_eq ?_
    intro i _
    rw [BitVec.getMsbD_shiftLeft, getMsbD_aligned hn, getMsbD_aligned hn, BitVec.getMsbD_shiftLeft]
  have hfeed : (if r.msb ^^ b then aligned m g else 0#m) =
      aligned m (if r.msb ^^ b then g else 0#n) := by
    split
    · rfl
    · exact (aligned_zero m).symm
  rw [push, hmsb, hshift, hfeed, push, aligned_xor]

theorem remainder_aligned (hn : n ≤ m) (g : BitVec n) (msg : List Bool) :
    remainder (aligned m g) msg = aligned m (remainder g msg) := by
  induction msg using reverseRecOn with
  | nil => exact (aligned_zero m).symm
  | append_singleton msg b ih =>
    rw [remainder_append, remainder_append, ih]
    exact push_aligned hn g (remainder g msg) b

theorem bitsOf_aligned (hn : n ≤ m) (r : BitVec n) :
    bitsOf (aligned m r) = bitsOf r ++ replicate (m - n) false := by
  refine ext_getElem (by simp; omega) ?_
  intro i hi hi'
  rw [getElem_append]
  simp only [bitsOf, getElem_map, getElem_range, getMsbD_aligned hn]
  split
  · rfl
  · rename_i hge
    simp only [length_map, length_range] at hge
    rw [getElem_replicate, BitVec.getMsbD_of_ge _ _ (by omega)]

theorem foldl_push_of_le (hn : n ≤ 8) (g r : BitVec n) (b : BitVec 8) :
    (bitsOf b).foldl (push g) r = remainder g (bitsOf (aligned 8 r ^^^ b)) := by
  have hself : (bitsOf (aligned 8 r)).foldl (push g) r = 0#n := by
    rw [bitsOf_aligned hn, foldl_append, foldl_push_bitsOf_self, foldl_push_replicate_false,
      iterate_push_zero]
  have hlinear := foldl_push_zipWith g r r
    (show (bitsOf (aligned 8 r)).length = (bitsOf b).length by simp)
  rw [BitVec.xor_self, hself, BitVec.zero_xor, ← bitsOf_xor] at hlinear
  exact hlinear.symm

/-! ## Words that are wider than the register -/

theorem poly_setWidth (hn : n ≤ m) (v : BitVec n) : poly (v.setWidth m) = poly v := by
  obtain ⟨k, rfl⟩ := Nat.exists_eq_add_of_le hn
  rw [poly, Finset.sum_range_add, poly]
  have hlow : ∀ i ∈ Finset.range n, C (coeff ((v.setWidth (n + k)).getLsbD i)) * X ^ i =
      C (coeff (v.getLsbD i)) * (X : (ZMod 2)[X]) ^ i := by
    intro i hi
    have hlt := Finset.mem_range.mp hi
    simp [show i < n + k by omega]
  have hhigh : ∀ i ∈ Finset.range k,
      C (coeff ((v.setWidth (n + k)).getLsbD (n + i))) * (X : (ZMod 2)[X]) ^ (n + i) = 0 := by
    intro i _
    simp [coeff]
  rw [Finset.sum_congr rfl hlow, Finset.sum_eq_zero hhigh, add_zero]

end MbmsTx.Crc
