import Mathlib.Data.Nat.Bitwise

/-!
# Bit fields of a byte memory

The bits of a memory of bytes are numbered consecutively, the most significant bit of a byte first.
A field of `n` bits is a number. Fields split at any position (`field_add`), and a field inside one
byte is a quotient and a remainder of the byte (`field_in_byte`); so a reader or writer that goes
byte by byte is followed without looking at single bits.
-/

namespace MbmsTx.BitField

variable {mem mem' : ℕ → UInt8} {p m n : ℕ}

/-- The bit at a position. -/
def bit (mem : ℕ → UInt8) (p : ℕ) : ℕ := (mem (p / 8)).toNat / 2 ^ (7 - p % 8) % 2

/-- The field of `n` bits from a position on. -/
def field (mem : ℕ → UInt8) (p : ℕ) : ℕ → ℕ
  | 0 => 0
  | n + 1 => field mem p n * 2 + bit mem (p + n)

@[simp] theorem field_zero : field mem p 0 = 0 := rfl

theorem field_succ : field mem p (n + 1) = field mem p n * 2 + bit mem (p + n) := rfl

theorem field_lt (mem : ℕ → UInt8) (p n : ℕ) : field mem p n < 2 ^ n := by
  induction n with
  | zero => simp
  | succ n ih =>
    have hbit : bit mem (p + n) < 2 := Nat.mod_lt _ (by decide)
    rw [field_succ, pow_succ]
    omega

theorem field_add (mem : ℕ → UInt8) (p m n : ℕ) :
    field mem p (m + n) = field mem p m * 2 ^ n + field mem (p + m) n := by
  induction n with
  | zero => simp
  | succ n ih =>
    calc field mem p (m + (n + 1)) = field mem p (m + n) * 2 + bit mem (p + (m + n)) := rfl
      _ = (field mem p m * 2 ^ n + field mem (p + m) n) * 2 + bit mem (p + m + n) := by
          rw [ih, add_assoc p m n]
      _ = field mem p m * 2 ^ (n + 1) + field mem (p + m) (n + 1) := by
          rw [field_succ, pow_succ, add_mul, mul_assoc, add_assoc]

theorem field_congr (h : ∀ q, p ≤ q → q < p + n → bit mem q = bit mem' q) :
    field mem p n = field mem' p n := by
  induction n with
  | zero => rfl
  | succ n ih =>
    rw [field_succ, field_succ, ih fun q hge hlt => h q hge (by omega),
      h (p + n) (by omega) (by omega)]

theorem div_mod_two {x a j : ℕ} (hj : j < a) : x / 2 ^ j % 2 = x % 2 ^ a / 2 ^ j % 2 := by
  have hsplit : 2 ^ a = 2 ^ j * 2 ^ (a - j) := by
    rw [← pow_add]
    congr 1
    omega
  have hdvd : 2 ∣ 2 ^ (a - j) := dvd_pow_self 2 (by omega)
  rw [hsplit, Nat.mod_mul_right_div_self, Nat.mod_mod_of_dvd _ hdvd]

theorem field_in_byte (mem : ℕ → UInt8) {k o n : ℕ} (h : o + n ≤ 8) :
    field mem (8 * k + o) n = (mem k).toNat % 2 ^ (8 - o) / 2 ^ (8 - o - n) := by
  induction n with
  | zero =>
    simp
  | succ n ih =>
    have hbyte : (8 * k + o + n) / 8 = k := by omega
    have hplace : 7 - (8 * k + o + n) % 8 = 8 - o - (n + 1) := by omega
    have hpow : 8 - o - n = 8 - o - (n + 1) + 1 := by omega
    rw [field_succ, ih (by omega), bit, hbyte, hplace, div_mod_two (by omega : _ < 8 - o), hpow,
      pow_succ, ← Nat.div_div_eq_div_mul]
    omega

/-- Bits in front of a position stay if the bytes before it do, and the leading ones in its own
byte. -/
theorem bit_eq_of_lt {k o : ℕ} (hbytes : ∀ i < k, mem i = mem' i)
    (hbyte : (mem k).toNat / 2 ^ (8 - o) = (mem' k).toNat / 2 ^ (8 - o))
    {q : ℕ} (hq : q < 8 * k + o) (ho : o ≤ 8) : bit mem q = bit mem' q := by
  unfold bit
  rcases lt_or_ge (q / 8) k with hlt | hge
  · rw [hbytes _ hlt]
  · have hk : q / 8 = k := by omega
    have hpow : 7 - q % 8 = 8 - o + (7 - q % 8 - (8 - o)) := by omega
    rw [hk, hpow, pow_add, ← Nat.div_div_eq_div_mul, ← Nat.div_div_eq_div_mul, hbyte]

end MbmsTx.BitField
