import Mathlib.Tactic.Linarith
import Mathlib.Tactic.Ring

/-!
# Resource indication values

The resource indication value (RIV) of an allocation of type 2 codes the number of resource blocks
and the first one (`ra.c`). Long allocations are coded by what they leave free, so each one has two
values, of which the smaller is used. 32 bits are enough for up to 92681 resource blocks.
-/

namespace MbmsTx.Phy

open UInt32 Nat

/-- `srsran_ra_type2_to_riv`. -/
def raType2ToRiv (lCrb rbStart nofPrb : UInt32) : UInt32 :=
  if lCrb - 1 ≤ nofPrb / 2 then nofPrb * (lCrb - 1) + rbStart
  else nofPrb * (nofPrb - lCrb + 1) + nofPrb - 1 - rbStart

/-- `srsran_ra_type2_from_riv`: the number of resource blocks and the first one. -/
def raType2FromRiv (riv nofPrb nofVrb : UInt32) : UInt32 × UInt32 :=
  let lCrb := riv / nofPrb + 1
  let rbStart := riv % nofPrb
  if nofVrb - rbStart < lCrb then (nofPrb - riv / nofPrb + 1, nofPrb - riv % nofPrb - 1)
  else (lCrb, rbStart)

/-- The resource blocks of a localized allocation in each slot. -/
def localizedPrbs (riv nofPrb : UInt32) : List ℕ :=
  let alloc := raType2FromRiv riv nofPrb nofPrb
  (List.range alloc.1.toNat).map fun i => i + alloc.2.toNat

/-- The allocations of a bandwidth: their length and first resource block. -/
def allocations (n : UInt32) : Set (UInt32 × UInt32) :=
  {a | 1 ≤ a.1.toNat ∧ a.2.toNat + a.1.toNat ≤ n.toNat}

/-- The values code the allocations one to one, and any value is decoded to an allocation. -/
structure RivExact (n : UInt32) : Prop where
  bijective : Set.BijOn (fun a => (raType2ToRiv a.1 a.2 n).toNat) (allocations n)
    {riv | 2 * riv < n.toNat * (n.toNat + 1)}
  inverse : ∀ a ∈ allocations n, raType2FromRiv (raType2ToRiv a.1 a.2 n) n n = a
  decoded : ∀ riv, riv.toNat < n.toNat * (n.toNat + 1) → raType2FromRiv riv n n ∈ allocations n
  marked : ∀ riv, riv.toNat < n.toNat * (n.toNat + 1) → ∀ prb ∈ localizedPrbs riv n, prb < n.toNat

/-! ## The two values of an allocation -/

/-- A value below `n * (n + 1)` and its allocation. -/
def Codes (n riv len start : ℕ) : Prop :=
  ∃ q r, riv = n * q + r ∧ q ≤ n ∧ r < n ∧
    (q + 1 + r ≤ n ∧ len = q + 1 ∧ start = r ∨
      n < q + 1 + r ∧ len = n - q + 1 ∧ start = n - 1 - r)

namespace Codes

variable {n riv riv' len len' start start' : ℕ} (h : Codes n riv len start)
include h

theorem fits : 1 ≤ len ∧ start + len ≤ n := by
  obtain ⟨q, r, -, hq, hr, hcase⟩ := h
  omega

theorem unique (h' : Codes n riv len' start') : len = len' ∧ start = start' := by
  obtain ⟨q, r, hriv, hq, hr, hcase⟩ := h
  obtain ⟨q', r', rfl, hq', hr', hcase'⟩ := h'
  have hquot := congrArg (· / n) hriv
  have hrem := congrArg (· % n) hriv
  simp only [mul_add_div (by omega : 0 < n), div_eq_of_lt hr, div_eq_of_lt hr',
    mul_add_mod, mod_eq_of_lt hr, mod_eq_of_lt hr'] at hquot hrem
  omega

/-- The two values add up to `n * (n + 1) - 1`, so only one is in the first half. -/
theorem unique_value (h' : Codes n riv' len start) (hlt : 2 * riv < n * (n + 1))
    (hlt' : 2 * riv' < n * (n + 1)) : riv = riv' := by
  obtain ⟨q, r, rfl, hq, hr, hcase⟩ := h
  obtain ⟨q', r', rfl, hq', hr', hcase'⟩ := h'
  have hsame : q' = q ∧ r' = r ∨ q' = n - q ∧ r' = n - 1 - r := by omega
  rcases hsame with ⟨rfl, rfl⟩ | ⟨rfl, rfl⟩
  · rfl
  · have hmul : n * q + n * (n - q) = n * n := by rw [← mul_add, Nat.add_sub_cancel' hq]
    rw [mul_succ] at hlt hlt'
    omega

end Codes

theorem value_lt_of_fits {n q r : ℕ} (hq : 2 * q ≤ n) (hfits : q + 1 + r ≤ n) :
    2 * (n * q + r) < n * (n + 1) := by
  obtain ⟨m, rfl⟩ : ∃ m, n = q + m := ⟨n - q, by omega⟩
  obtain ⟨k, rfl⟩ : ∃ k, m = q + k := ⟨m - q, by omega⟩
  nlinarith [zero_le (q * k)]

theorem value_lt_of_half {n q r : ℕ} (hq : 2 * (q + 1) ≤ n + 1) (hr : r < n) :
    2 * (n * q + r) < n * (n + 1) := by
  have hmul : n * (2 * (q + 1)) ≤ n * (n + 1) := mul_le_mul_left n hq
  have hexpand : n * (2 * (q + 1)) = 2 * (n * q) + 2 * n := by ring
  omega

/-! ## The functions -/

section

variable {n riv : UInt32} {a : UInt32 × UInt32} (hle : n.toNat ≤ 92681)
include hle

theorem lt_of_first_half {riv : ℕ} (h : 2 * riv < n.toNat * (n.toNat + 1)) : riv < 2 ^ 32 := by
  have hmul : n.toNat * (n.toNat + 1) ≤ 92681 * 92682 := Nat.mul_le_mul hle (by omega)
  omega

theorem codes_toRiv (ha : a ∈ allocations n) :
    Codes n.toNat (raType2ToRiv a.1 a.2 n).toNat a.1.toNat a.2.toNat ∧
      2 * (raType2ToRiv a.1 a.2 n).toNat < n.toNat * (n.toNat + 1) := by
  obtain ⟨hpos, hfits⟩ := ha
  have hlen : (a.1 - 1).toNat = a.1.toNat - 1 := by
    rw [UInt32.toNat_sub, UInt32.toNat_one]
    omega
  have hbranch : a.1 - 1 ≤ n / 2 ↔ a.1.toNat - 1 ≤ n.toNat / 2 := by
    rw [UInt32.le_iff_toNat_le, UInt32.toNat_div, hlen]
    rfl
  rw [raType2ToRiv]
  by_cases hshort : a.1.toNat - 1 ≤ n.toNat / 2
  · have hbound := value_lt_of_fits (n := n.toNat) (q := a.1.toNat - 1) (r := a.2.toNat) (by omega)
      (by omega)
    have hwrap := lt_of_first_half hle hbound
    rw [if_pos (hbranch.mpr hshort), UInt32.toNat_add, UInt32.toNat_mul, hlen, mod_add_mod,
      mod_eq_of_lt hwrap]
    exact ⟨⟨_, _, rfl, by omega, by omega, .inl (by omega)⟩, hbound⟩
  · have hbound := value_lt_of_half (n := n.toNat) (q := n.toNat - a.1.toNat + 1)
      (r := n.toNat - 1 - a.2.toNat) (by omega) (by omega)
    have hwrap := lt_of_first_half hle hbound
    have hfree : (n - a.1 + 1).toNat = n.toNat - a.1.toNat + 1 := by
      rw [UInt32.toNat_add, UInt32.toNat_sub, UInt32.toNat_one]
      omega
    have hvalue : (n * (n - a.1 + 1) + n - 1 - a.2).toNat =
        n.toNat * (n.toNat - a.1.toNat + 1) + (n.toNat - 1 - a.2.toNat) := by
      rw [UInt32.toNat_sub, UInt32.toNat_sub, UInt32.toNat_add, UInt32.toNat_mul, hfree,
        toNat_one]
      omega
    rw [if_neg (hbranch.not.mpr hshort), hvalue]
    exact ⟨⟨_, _, rfl, by omega, by omega, .inr (by omega)⟩, hbound⟩

theorem codes_fromRiv (hriv : riv.toNat < n.toNat * (n.toNat + 1)) :
    Codes n.toNat riv.toNat (raType2FromRiv riv n n).1.toNat (raType2FromRiv riv n n).2.toNat := by
  have hpos : 0 < n.toNat := pos_of_ne_zero fun hzero => by simp [hzero] at hriv
  have hq : (riv / n).toNat < n.toNat + 1 := Nat.div_lt_of_lt_mul hriv
  have hr : (riv % n).toNat < n.toNat := mod_lt _ hpos
  refine ⟨(riv / n).toNat, (riv % n).toNat, (div_add_mod _ _).symm, by omega, hr, ?_⟩
  have hbranch : n - riv % n < riv / n + 1 ↔
      n.toNat < (riv / n).toNat + 1 + (riv % n).toNat := by
    rw [UInt32.lt_iff_toNat_lt, UInt32.toNat_sub, UInt32.toNat_add, UInt32.toNat_one]
    omega
  rw [raType2FromRiv]
  by_cases hlong : n.toNat < (riv / n).toNat + 1 + (riv % n).toNat
  · simp only [if_pos (hbranch.mpr hlong), UInt32.toNat_sub, UInt32.toNat_add, UInt32.toNat_one]
    omega
  · rw [if_neg (hbranch.not.mpr hlong), UInt32.toNat_add, UInt32.toNat_one]
    exact .inl ⟨by omega, by omega, rfl⟩

theorem fromRiv_toRiv (ha : a ∈ allocations n) :
    raType2FromRiv (raType2ToRiv a.1 a.2 n) n n = a := by
  obtain ⟨hcodes, hlt⟩ := codes_toRiv hle ha
  obtain ⟨hlen, hstart⟩ := (codes_fromRiv hle (by omega)).unique hcodes
  exact Prod.ext (UInt32.toNat_inj.mp hlen) (UInt32.toNat_inj.mp hstart)

/-- Every bandwidth of at most 92681 resource blocks. -/
theorem rivExact : RivExact n where
  bijective := by
    have hvalue : ∀ k, 2 * k < n.toNat * (n.toNat + 1) → (ofNat k).toNat = k := fun k hk =>
      toNat_ofNat_of_lt' (lt_of_first_half hle hk)
    have hfrom : ∀ k, 2 * k < n.toNat * (n.toNat + 1) →
        Codes n.toNat k (raType2FromRiv (ofNat k) n n).1.toNat
          (raType2FromRiv (ofNat k) n n).2.toNat := by
      intro k hk
      have hcodes := @codes_fromRiv n (ofNat k) hle (by rw [hvalue k hk]; omega)
      rwa [hvalue k hk] at hcodes
    refine @Set.InvOn.bijOn _ _ _ _ _ (fun k => raType2FromRiv (ofNat k) n n) ⟨?_, ?_⟩ ?_ ?_
    · intro a ha
      dsimp only
      rw [UInt32.ofNat_toNat, fromRiv_toRiv hle ha]
    · intro k hk
      obtain ⟨hcodes, hlt⟩ := codes_toRiv hle (hfrom k hk).fits
      exact hcodes.unique_value (hfrom k hk) hlt hk
    · exact fun a ha => (codes_toRiv hle ha).2
    · exact fun k hk => (hfrom k hk).fits
  inverse a ha := fromRiv_toRiv hle ha
  decoded riv hriv := (codes_fromRiv hle hriv).fits
  marked riv hriv prb hprb := by
    have hfits := (codes_fromRiv hle hriv).fits.2
    obtain ⟨i, hi, rfl⟩ := List.mem_map.mp hprb
    have hlt := List.mem_range.mp hi
    omega

end

theorem rivExact_twenty_five : RivExact 25 := rivExact (by decide)

/-- From 92682 resource blocks on the values do not fit 32 bits: half of the resource blocks are
decoded as a single one. -/
theorem not_rivExact : ¬ RivExact 92682 := by
  intro h
  have hback := h.inverse (46342, 0) ⟨by decide, by decide⟩
  exact absurd hback (by decide)

end MbmsTx.Phy
