import Mathlib.Data.List.Rotate
import Mathlib.Order.Monotone.Basic

/-!
# A circular buffer with gaps

Slots `0, 1, …` of which some are empty. `compact` is the content without the gaps, and `rank` the
number of items in front of a slot. Reading around from slot `k` on gives the compact content,
rotated by the rank of `k` (`rotate_compact`), and a scan for the first item at or behind `k` finds
this rank (`found_succ`).
-/

namespace MbmsTx.Gaps

open List

variable {α : Type*} (f : ℕ → Option α)

/-- The items of the first `n` slots. -/
def compact (n : ℕ) : List α := (range n).filterMap f

/-- The number of items in front of a slot. -/
def rank (n : ℕ) : ℕ := (compact f n).length

theorem compact_succ (n : ℕ) : compact f (n + 1) = compact f n ++ (f n).toList := by
  rw [compact, range_succ, filterMap_append, ← compact]
  rfl

variable {f} {n : ℕ}

theorem rank_succ_of_none (h : f n = none) : rank f (n + 1) = rank f n := by
  rw [rank, compact_succ, h, Option.toList_none, append_nil, rank]

theorem rank_succ_of_some {a : α} (h : f n = some a) : rank f (n + 1) = rank f n + 1 := by
  rw [rank, compact_succ, h, Option.toList_some, length_append, length_singleton, rank]

variable (f)

theorem rank_mono : Monotone (rank f) := by
  refine monotone_nat_of_le_succ ?_
  intro n
  rw [rank, rank, compact_succ, length_append]
  omega

variable {f} in
theorem compact_congr {g : ℕ → Option α} (h : ∀ p < n, f p = g p) : compact f n = compact g n := by
  refine filterMap_congr ?_
  intro p hp
  exact h p (mem_range.mp hp)

theorem compact_map {β : Type*} (g : α → β) (n : ℕ) :
    compact (fun p => (f p).map g) n = (compact f n).map g := by
  rw [compact, compact, map_filterMap]

/-! ## Reading around -/

theorem compact_add (k n : ℕ) :
    compact f (k + n) = compact f k ++ (range n).filterMap fun i => f (k + i) := by
  rw [compact, range_add, filterMap_append, filterMap_map]
  rfl

/-- The slots read around from slot `k` on. -/
theorem rotate_compact {k : ℕ} (hk : k ≤ n) :
    (compact f n).rotate (rank f k) = ((range n).rotate k).filterMap f := by
  obtain ⟨m, rfl⟩ := Nat.exists_eq_add_of_le hk
  have hrange : range (k + m) = range k ++ (range m).map (k + ·) :=
    range_add
  have hrotate : (range (k + m)).rotate k = (range m).map (k + ·) ++ range k := by
    conv_lhs =>
      rw [hrange]
      arg 2
      rw [← length_range (n := k)]
    exact rotate_append_length_eq _ _
  rw [hrotate, compact_add, rank, rotate_append_length_eq, filterMap_append, filterMap_map]
  rfl

theorem compact_mod {k : ℕ} (hk : k ≤ n) :
    compact (fun j => f ((k + j) % n)) n = (compact f n).rotate (rank f k) := by
  have hrange : (range n).rotate k = (range n).map fun j => (k + j) % n := by
    refine ext_getElem (by simp) ?_
    intro i hi hi'
    rw [getElem_rotate, getElem_range, getElem_map, getElem_range, length_range, Nat.add_comm]
  rw [rotate_compact f hk, hrange, filterMap_map]
  rfl

theorem compact_eq_of_rank_eq {k : ℕ} (hk : k ≤ n) (h : rank f k = rank f n) :
    compact f k = compact f n := by
  obtain ⟨m, rfl⟩ := Nat.exists_eq_add_of_le hk
  rw [rank, rank, compact_add, length_append] at h
  have hnil : ((range m).filterMap fun i => f (k + i)) = [] :=
    length_eq_zero_iff.mp (by omega)
  rw [compact_add, hnil, append_nil]

/-! ## Looking for the first item -/

/-- What a scan of `n` slots has found of the first item at or behind slot `k`. -/
def found (k n : ℕ) : Option ℕ := if rank f k < rank f n then some (rank f k) else none

@[simp] theorem found_zero (k : ℕ) : found f k 0 = none := if_neg (Nat.not_lt_zero _)

variable {f}

/-- An item is the one looked for if nothing was found before it and it is at or behind `k`. -/
theorem found_succ_of_some {k : ℕ} {a : α} (h : f n = some a) : found f k (n + 1) =
      if found f k n = none ∧ k ≤ n then some (rank f n) else found f k n := by
  have hsucc := rank_succ_of_some h
  rw [found, hsucc, found]
  rcases lt_or_ge (rank f k) (rank f n) with hlt | hge
  · rw [if_pos (by omega), if_pos hlt, if_neg (by simp)]
  rw [if_neg (by omega : ¬ rank f k < rank f n)]
  rcases lt_or_ge n k with hnk | hkn
  · have := rank_mono f (by omega : n + 1 ≤ k)
    rw [if_neg (by omega), if_neg (by omega)]
  · have := rank_mono f hkn
    have heq : rank f k = rank f n := by omega
    rw [if_pos (by omega), if_pos ⟨rfl, hkn⟩, heq]

variable (f)

/-! ## Slots that hold numbers -/

/-- If the first `n` slots hold each number below `m` and nothing else, the content is a permutation
of them. -/
theorem perm_compact {f : ℕ → Option ℕ} {m : ℕ} (place : ℕ → ℕ)
    (hplace : ∀ i < m, place i < n ∧ f (place i) = some i)
    (hback : ∀ p < n, ∀ i, f p = some i → i < m ∧ place i = p) :
    (compact f n).Perm (range m) := by
  have hnodup : (compact f n).Nodup := by
    refine pairwise_filterMap.mpr (nodup_range.imp_of_mem ?_)
    rintro p q hp hq hne i hi _ hi' rfl
    have hpi := hback p (mem_range.mp hp) i hi
    have hqi := hback q (mem_range.mp hq) i hi'
    omega
  refine (perm_ext_iff_of_nodup hnodup nodup_range).mpr ?_
  intro i
  rw [compact, mem_filterMap, mem_range]
  constructor
  · rintro ⟨p, hp, hi⟩
    exact (hback p (mem_range.mp hp) i hi).1
  · intro hi
    exact ⟨place i, mem_range.mpr (hplace i hi).1, (hplace i hi).2⟩

end MbmsTx.Gaps
