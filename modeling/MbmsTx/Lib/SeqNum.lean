import Mathlib.Algebra.Order.Group.Nat
import Mathlib.Tactic.Common

/-!
# Sequence numbers

Sequence numbers count modulo `M`. A protocol compares how far a number is ahead of a base,
`seqDist M base x`; a window has the numbers ahead of its lower edge by less than its size. The
lemmas say how the distance moves with the number and the base, and that in a window of half the
range a number is determined by its remainder modulo the size of the window.
-/

namespace MbmsTx

/-- How far the sequence number `x` is ahead of `base`, modulo `M`. -/
def seqDist (M base x : ℕ) : ℕ := (x + M - base) % M

/-- The sequence number after `x`. -/
def seqSucc (M x : ℕ) : ℕ := (x + 1) % M

section

variable {M base x y : ℕ}

theorem seqDist_eq_ite (hbase : base < M) (hx : x < M) :
    seqDist M base x = if base ≤ x then x - base else x + M - base := by
  unfold seqDist
  split
  · next h =>
    have hsum : x + M - base = (x - base) + M := by omega
    rw [hsum, Nat.add_mod_right, Nat.mod_eq_of_lt (by omega)]
  · exact Nat.mod_eq_of_lt (by omega)

theorem seqSucc_eq_ite (hx : x < M) : seqSucc M x = if x + 1 = M then 0 else x + 1 := by
  unfold seqSucc
  split
  · next h => rw [h, Nat.mod_self]
  · exact Nat.mod_eq_of_lt (by omega)

theorem seqSucc_lt (hM : 0 < M) : seqSucc M x < M := Nat.mod_lt _ hM

@[simp] theorem seqDist_self (hbase : base < M) : seqDist M base base = 0 := by
  rw [seqDist_eq_ite hbase hbase]
  simp

theorem seqDist_eq_zero_iff (hbase : base < M) (hx : x < M) : seqDist M base x = 0 ↔ x = base := by
  rw [seqDist_eq_ite hbase hx]
  split <;> omega

theorem seqDist_seqSucc (hbase : base < M) (hx : x < M) (h : seqDist M base x + 1 < M) :
    seqDist M base (seqSucc M x) = seqDist M base x + 1 := by
  rw [seqDist_eq_ite hbase (seqSucc_lt (by omega)), seqSucc_eq_ite hx]
  rw [seqDist_eq_ite hbase hx] at h ⊢
  split <;> split <;> split <;> simp_all <;> omega

theorem seqDist_seqSucc_base (hbase : base < M) (hx : x < M) (h : x ≠ base) :
    seqDist M (seqSucc M base) x = seqDist M base x - 1 := by
  rw [seqDist_eq_ite (seqSucc_lt (by omega)) hx, seqSucc_eq_ite hbase, seqDist_eq_ite hbase hx]
  split <;> split <;> split <;> simp_all <;> omega

theorem seqDist_sub (hbase : base < M) (hx : x < M) (hy : y < M)
    (h : seqDist M base x ≤ seqDist M base y) :
    seqDist M x y = seqDist M base y - seqDist M base x := by
  rw [seqDist_eq_ite hbase hx, seqDist_eq_ite hbase hy] at h ⊢
  rw [seqDist_eq_ite hx hy]
  split at h <;> split at h <;> split <;> omega

end

/-- Two numbers in a window of `N`, half the range, that share a slot of a map of `N` slots are
equal. -/
theorem eq_of_seqDist_lt_of_mod_eq {N base x y : ℕ} (hbase : base < 2 * N) (hx : x < 2 * N)
    (hy : y < 2 * N) (hdx : seqDist (2 * N) base x < N) (hdy : seqDist (2 * N) base y < N)
    (hslot : x % N = y % N) : x = y := by
  -- numbers with the same slot differ by a multiple of `N`, here by `0` or by `N`
  have hcases : ∀ z, z < 2 * N → z = z % N ∨ z = z % N + N := by
    intro z hz
    by_cases hzN : z < N
    · exact .inl (Nat.mod_eq_of_lt hzN).symm
    · have hmod : z % N = z - N := by
        rw [Nat.mod_eq_sub_mod (by omega), Nat.mod_eq_of_lt (by omega)]
      omega
  have hcx := hcases x hx
  have hcy := hcases y hy
  rw [seqDist_eq_ite hbase hx] at hdx
  rw [seqDist_eq_ite hbase hy] at hdy
  rw [hslot] at hcx
  split at hdx <;> split at hdy <;> omega

end MbmsTx
