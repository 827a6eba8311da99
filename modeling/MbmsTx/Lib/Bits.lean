import Mathlib.Data.Nat.Bitwise

/-!
# Bit fields, most significant bit first

A message is a list of entries, one bit each. `unpack v n` appends the `n` low bits of `v`, `read n`
takes a field of `n` bits off the front. They are inverse up to the width of the field
(`read_unpack_append`). Entries that are bits are what their number unpacks to
(`unpack_pack_of_isBits`).
-/

namespace MbmsTx.Bits

open List Nat

/-- The `n` low bits of `value`, most significant first. -/
def unpack (value : ℕ) : ℕ → List ℕ
  | 0 => []
  | n + 1 => ((value >>> n) &&& 1) :: unpack value n

/-- The number with the entries as its bits, most significant first. -/
def pack : List ℕ → ℕ
  | [] => 0
  | bit :: bits => bit <<< bits.length ||| pack bits

/-- Read a field of `n` bits and advance past it. -/
def read (n : ℕ) (msg : List ℕ) : ℕ × List ℕ :=
  (pack (msg.take n), msg.drop n)

variable (value n : ℕ)

@[simp] theorem length_unpack : (unpack value n).length = n := by
  induction n with
  | zero => rfl
  | succ n ih => simp [unpack, ih]

theorem pack_unpack : pack (unpack value n) = value % 2 ^ n := by
  induction n with
  | zero => simp [unpack, pack, mod_one]
  | succ n ih =>
    have hbit : (value >>> n) &&& 1 = value / 2 ^ n % 2 := by
      rw [and_one_is_mod, shiftRight_eq_div_pow]
    have hlt : value % 2 ^ n < 2 ^ n := Nat.mod_lt _ (Nat.two_pow_pos n)
    rw [unpack, pack, ih, length_unpack, hbit, shiftLeft_eq, mul_comm,
      ← two_pow_add_eq_or_of_lt hlt, pow_succ, mod_mul, add_comm]

@[simp] theorem read_unpack_append (rest : List ℕ) :
    read n (unpack value n ++ rest) = (value % 2 ^ n, rest) := by
  have htake : (unpack value n ++ rest).take n = unpack value n := by
    rw [take_append_of_le_length (by simp), take_of_length_le (by simp)]
  have hdrop : (unpack value n ++ rest).drop n = rest := by
    rw [drop_append_of_le_length (by simp), drop_of_length_le (by simp), nil_append]
  rw [read, htake, hdrop, pack_unpack]

theorem unpack_congr {u v n : ℕ} (h : ∀ i < n, u.testBit i = v.testBit i) :
    unpack u n = unpack v n := by
  induction n with
  | zero => rfl
  | succ n ih =>
    have hbit : u >>> n &&& 1 = v >>> n &&& 1 := by
      rw [and_one_is_mod, and_one_is_mod, shiftRight_eq_div_pow,
        shiftRight_eq_div_pow, ← toNat_testBit, ← toNat_testBit,
        h n (lt_succ_self n)]
    rw [unpack, unpack, hbit, ih fun i hi => h i (lt_succ_of_lt hi)]

/-- The entries of a message are bits. -/
def IsBits (bits : List ℕ) : Prop := ∀ b ∈ bits, b < 2

theorem isBits_append {a b : List ℕ} : IsBits (a ++ b) ↔ IsBits a ∧ IsBits b :=
  forall_mem_append

theorem isBits_unpack : IsBits (unpack value n) := by
  induction n with
  | zero => simp [unpack, IsBits]
  | succ n ih =>
    refine forall_mem_cons.mpr ⟨?_, ih⟩
    rw [and_one_is_mod]
    omega

theorem pack_lt {bits : List ℕ} (h : IsBits bits) : pack bits < 2 ^ bits.length := by
  induction bits with
  | nil => decide
  | cons b bits ih =>
    have hrest := ih fun c hc => h c (mem_cons_of_mem b hc)
    have hb := h b mem_cons_self
    rw [pack, length_cons]
    refine or_lt_two_pow ?_ (by omega)
    rw [shiftLeft_eq, pow_succ, mul_comm]
    exact Nat.mul_lt_mul_of_pos_left hb (Nat.two_pow_pos _)

theorem unpack_pack_of_isBits {bits : List ℕ} (h : IsBits bits) :
    unpack (pack bits) bits.length = bits := by
  induction bits with
  | nil => rfl
  | cons b bits ih =>
    have hbits : IsBits bits := fun c hc => h c (mem_cons_of_mem b hc)
    have hfirst : (b <<< bits.length ||| pack bits) >>> bits.length &&& 1 = b := by
      rw [shiftRight_or_distrib, shiftLeft_shiftRight,
        shiftRight_eq_zero _ _ (pack_lt hbits), or_zero, and_one_is_mod,
        mod_eq_of_lt (h b mem_cons_self)]
    have hrest : unpack (b <<< bits.length ||| pack bits) bits.length = bits := by
      rw [unpack_congr, ih hbits]
      intro i hi
      simp [not_le.mpr hi]
    rw [length_cons, pack, unpack, hfirst, hrest]

end MbmsTx.Bits
