import MbmsTx.Lib.Memory
import Mathlib.Data.Nat.Bitwise

/-!
# Numbers as bit strings

`bitstring_utils::from_number` stores the low bits of a number, the lowest byte first, and
`to_number` adds the bytes up. It shifts each byte as an `int`: the fourth one is sign-extended when
its highest bit is set, and the shift of the fifth is undefined.
-/

namespace MbmsTx.Asn1

open MbmsTx.Memory List Nat

/-- `bitstring_utils::from_number`: the bytes from the pointer on. -/
def fromNumber (ptr : ℕ → UInt8) (number nbits : ℕ) : ℕ → UInt8 :=
  if 64 < nbits then ptr
  else
    let nofBytes := (nbits + 7) / 8
    let ptr := (List.range nofBytes).foldl
      (fun ptr i => Function.update ptr i (UInt8.ofNat (number >>> (i * 8)))) ptr
    let offset := nbits % 8
    if 0 < offset then
      Function.update ptr (nofBytes - 1) (ptr (nofBytes - 1) &&& UInt8.ofNat ((1 <<< offset) - 1))
    else ptr

/-- `ptr[i] << (i * 8u)`, an `int`, as a `uint64_t`; `none` for the undefined shift. -/
def shiftedByte (byte : UInt8) (i : ℕ) : Option ℕ :=
  if 32 ≤ i * 8 then none
  else if byte.toNat <<< (i * 8) < 2 ^ 31 then some (byte.toNat <<< (i * 8))
  else some (byte.toNat <<< (i * 8) + (2 ^ 64 - 2 ^ 32))

/-- One round of `to_number`. -/
def addByte (ptr : ℕ → UInt8) (val i : ℕ) : Option ℕ :=
  (shiftedByte (ptr i) i).map fun shifted => (val + shifted) % 2 ^ 64

/-- `bitstring_utils::to_number`. -/
def toNumber (ptr : ℕ → UInt8) (nbits : ℕ) : Option ℕ :=
  if 64 < nbits then some 0 else (List.range ((nbits + 7) / 8)).foldlM (addByte ptr) 0

section

variable {ptr : ℕ → UInt8} {v w nbits k : ℕ}

theorem toNat_fromNumber (hn : nbits ≤ 64) (hk : k < (nbits + 7) / 8) :
    (fromNumber ptr v nbits k).toNat = v % 2 ^ nbits / 2 ^ (8 * k) % 256 := by
  have hbytes : ∀ i < (nbits + 7) / 8, ((List.range ((nbits + 7) / 8)).foldl (fun ptr i =>
      Function.update ptr i (UInt8.ofNat (v >>> (i * 8)))) ptr i).toNat =
        v / 2 ^ (8 * i) % 256 := by
    intro i hi
    rw [foldl_update_range (fun i _ => UInt8.ofNat (v >>> (i * 8))), if_pos hi, UInt8.toNat_ofNat',
      shiftRight_eq_div_pow, mul_comm]
  have hpow : 2 ^ nbits = 2 ^ (8 * k) * 2 ^ (nbits - 8 * k) := by
    rw [← pow_add]
    congr 1
    omega
  rw [hpow, mod_mul_right_div_self, fromNumber, if_neg (by omega)]
  by_cases hlast : 0 < nbits % 8 ∧ k = (nbits + 7) / 8 - 1
  · -- the last byte has the bits that are left
    obtain ⟨hoffset, rfl⟩ := hlast
    have hwidth : nbits - 8 * ((nbits + 7) / 8 - 1) = nbits % 8 := by omega
    have hlt : 2 ^ (nbits % 8) ≤ 2 ^ 7 := Nat.pow_le_pow_right (by decide) (by omega)
    have hdvd : 2 ^ (nbits % 8) ∣ 256 := Nat.pow_dvd_pow 2 (by omega : nbits % 8 ≤ 8)
    have hmask : (UInt8.ofNat ((1 <<< (nbits % 8)) - 1)).toNat = 2 ^ (nbits % 8) - 1 := by
      rw [UInt8.toNat_ofNat', one_shiftLeft, mod_eq_of_lt (by omega)]
    rw [if_pos hoffset, Function.update_self, UInt8.toNat_and, hbytes _ hk, hmask,
      and_two_pow_sub_one_eq_mod, mod_mod_of_dvd _ hdvd, hwidth]
    omega
  · have hdvd : 256 ∣ 2 ^ (nbits - 8 * k) := Nat.pow_dvd_pow 2 (by omega : 8 ≤ nbits - 8 * k)
    rw [mod_mod_of_dvd _ hdvd, ← hbytes k hk]
    split
    · next hoffset => rw [Function.update_of_ne fun heq => hlast ⟨hoffset, heq⟩]
    · rfl

theorem addByte_eq (hbyte : (ptr k).toNat = w / 2 ^ (8 * k) % 256) (hk : k ≤ 3) :
    addByte ptr (w % 2 ^ (8 * k)) k =
      some (if 2 ^ (8 * k) * (w / 2 ^ (8 * k) % 256) < 2 ^ 31 then w % 2 ^ (8 * (k + 1))
        else (w % 2 ^ (8 * (k + 1)) + (2 ^ 64 - 2 ^ 32)) % 2 ^ 64) := by
  have hshift : (ptr k).toNat <<< (k * 8) = 2 ^ (8 * k) * (w / 2 ^ (8 * k) % 256) := by
    rw [shiftLeft_eq, hbyte, mul_comm k, mul_comm]
  have hsplit : w % 2 ^ (8 * (k + 1)) =
      w % 2 ^ (8 * k) + 2 ^ (8 * k) * (w / 2 ^ (8 * k) % 256) := by
    rw [mul_add, Nat.pow_add, mod_mul]
  have hlt : w % 2 ^ (8 * (k + 1)) < 2 ^ 32 :=
    lt_of_lt_of_le (Nat.mod_lt _ (Nat.two_pow_pos _)) (Nat.pow_le_pow_right (by decide) (by omega))
  rw [addByte, shiftedByte, if_neg (by omega), hshift]
  split
  · rw [Option.map_some, ← hsplit, mod_eq_of_lt (by omega)]
  · rw [Option.map_some, ← add_assoc, ← hsplit]

/-- The first three bytes are added up. -/
theorem foldlM_addByte (hptr : ∀ i < k, (ptr i).toNat = w / 2 ^ (8 * i) % 256) (hk : k ≤ 3) :
    (List.range k).foldlM (addByte ptr) 0 = some (w % 2 ^ (8 * k)) := by
  induction k with
  | zero => simp [mod_one]
  | succ k ih =>
    have hpow : 2 ^ (8 * k) ≤ 2 ^ 16 := Nat.pow_le_pow_right (by decide) (by omega)
    have hsmall : 2 ^ (8 * k) * (w / 2 ^ (8 * k) % 256) ≤ 2 ^ 16 * 255 :=
      Nat.mul_le_mul hpow (by omega)
    have hadd := addByte_eq (hptr k (lt_succ_self k)) (by omega)
    rw [if_pos (by omega)] at hadd
    rw [range_succ, foldlM_append, ih (fun i hi => hptr i (by omega)) (by omega)]
    simp [hadd]

/-- The fifth shift is undefined. -/
theorem foldlM_addByte_eq_none (h : 4 < k) : (List.range k).foldlM (addByte ptr) 0 = none := by
  induction k with
  | zero => omega
  | succ k ih =>
    rw [range_succ, foldlM_append]
    rcases lt_or_ge 4 k with hlt | hle
    · rw [ih hlt]
      rfl
    obtain rfl : k = 4 := by omega
    cases (List.range 4).foldlM (addByte ptr) 0 with
    | none => rfl
    | some val => rfl

/-- A number of up to 64 bits comes back, cut to its width, exactly if it has at most 32 bits and is
below 2^31. -/
theorem toNumber_fromNumber_iff (ptr : ℕ → UInt8) (v nbits : ℕ) (hn : nbits ≤ 64) :
    toNumber (fromNumber ptr v nbits) nbits = some (v % 2 ^ nbits) ↔
      nbits ≤ 32 ∧ v % 2 ^ nbits < 2 ^ 31 := by
  rw [toNumber, if_neg (by omega)]
  have hptr : ∀ i < (nbits + 7) / 8, (fromNumber ptr v nbits i).toNat =
      v % 2 ^ nbits / 2 ^ (8 * i) % 256 := fun i hi => toNat_fromNumber hn hi
  have hlt : v % 2 ^ nbits < 2 ^ (8 * ((nbits + 7) / 8)) :=
    lt_of_lt_of_le (Nat.mod_lt _ (Nat.two_pow_pos nbits))
      (Nat.pow_le_pow_right (by decide) (by omega))
  generalize v % 2 ^ nbits = w at *
  rcases lt_trichotomy ((nbits + 7) / 8) 4 with hfew | hfour | hmany
  · have hsmall : 2 ^ (8 * ((nbits + 7) / 8)) ≤ 2 ^ 24 :=
      Nat.pow_le_pow_right (by decide) (by omega)
    rw [foldlM_addByte hptr (by omega), mod_eq_of_lt hlt]
    exact iff_of_true rfl ⟨by omega, by omega⟩
  · rw [hfour] at hptr hlt ⊢
    have hthree := @foldlM_addByte _ w 3 (fun i hi => hptr i (by omega)) (Nat.le_refl 3)
    have hlast := addByte_eq (hptr 3 (by decide)) (Nat.le_refl 3)
    rw [range_succ, foldlM_append, hthree]
    simp only [foldlM_cons, foldlM_nil, Option.bind_eq_bind, Option.bind_some, hlast]
    split
    · exact iff_of_true (congrArg some (mod_eq_of_lt hlt)) ⟨by omega, by omega⟩
    · rw [mod_eq_of_lt hlt]
      exact iff_of_false (fun heq => by have := Option.some.inj heq; omega) fun h => by omega
  · rw [foldlM_addByte_eq_none hmany]
    exact iff_of_false (by simp) fun h => by omega

end

theorem toNumber_fromNumber_28_bits :
    toNumber (fromNumber (fun _ => 0) 0x1234567 28) 28 = some (0x1234567 % 2 ^ 28) :=
  (toNumber_fromNumber_iff (fun _ => 0) 0x1234567 28 (by decide)).mpr (by decide)

/-- A number of 32 bits with the highest one set, and one of 36 bits. -/
theorem toNumber_fromNumber_32_and_36_bits :
    toNumber (fromNumber (fun _ => 0) (2 ^ 31) 32) 32 = some (2 ^ 64 - 2 ^ 31) ∧
      toNumber (fromNumber (fun _ => 0) 1 36) 36 = none := by
  decide +kernel

end MbmsTx.Asn1
