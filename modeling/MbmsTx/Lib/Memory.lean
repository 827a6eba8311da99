import Mathlib.Data.List.Basic

/-!
# Memory as a function of the address

`Holds` says that the memory has a list of values from an address on; for a concatenation it splits
at the boundary (`holds_append`), which is all that a parser of consecutive fields needs.
-/

namespace MbmsTx.Memory

open List Function

variable {α : Type*} {mem : ℕ → α} {start : ℕ}

/-- The `len` values from the address `start` on. -/
def slice (mem : ℕ → α) (start len : ℕ) : List α := (List.range len).map fun i => mem (start + i)

@[simp] theorem length_slice (mem : ℕ → α) (start len : ℕ) :
    (slice mem start len).length = len := by
  simp [slice]

@[simp] theorem slice_zero (mem : ℕ → α) (start : ℕ) : slice mem start 0 = [] := rfl

theorem slice_add (mem : ℕ → α) (start m n : ℕ) :
    slice mem start (m + n) = slice mem start m ++ slice mem (start + m) n := by
  simp only [slice, range_add, map_append, map_map, Nat.add_assoc]
  rfl

theorem slice_succ (mem : ℕ → α) (start n : ℕ) :
    slice mem start (n + 1) = mem start :: slice mem (start + 1) n := by
  rw [Nat.add_comm, slice_add]
  rfl

theorem slice_congr {mem' : ℕ → α} {len : ℕ} (h : ∀ i < len, mem (start + i) = mem' (start + i)) :
    slice mem start len = slice mem' start len := by
  refine map_congr_left ?_
  intro i hi
  exact h i (mem_range.mp hi)

theorem eq_of_slice_eq {mem' : ℕ → α} {start' len : ℕ}
    (h : slice mem start len = slice mem' start' len)
    {i : ℕ} (hi : i < len) : mem (start + i) = mem' (start' + i) := by
  have hget := congrArg (fun xs => xs[i]?) h
  simpa [slice, hi] using hget

/-- The memory has the values `xs` from the address `start` on. -/
def Holds (mem : ℕ → α) (start : ℕ) (xs : List α) : Prop := slice mem start xs.length = xs

@[simp] theorem holds_nil (mem : ℕ → α) (start : ℕ) : Holds mem start [] := rfl

@[simp] theorem holds_cons {x : α} {xs : List α} :
    Holds mem start (x :: xs) ↔ mem start = x ∧ Holds mem (start + 1) xs := by
  rw [Holds, length_cons, slice_succ, cons.injEq]
  rfl

theorem holds_append {xs ys : List α} :
    Holds mem start (xs ++ ys) ↔ Holds mem start xs ∧ Holds mem (start + xs.length) ys := by
  induction xs generalizing start with
  | nil => simp
  | cons x xs ih =>
    rw [cons_append, holds_cons, holds_cons, ih, and_assoc, length_cons, Nat.add_assoc,
      Nat.add_comm 1]

/-! ## Copying single values -/

/-- Copy values one after the other; each pair is an address of the source and one of the
destination. -/
def copyEach (src dst : ℕ → α) (copied : List (ℕ × ℕ)) : ℕ → α :=
  copied.foldl (fun dst x => Function.update dst x.2 (src x.1)) dst

theorem copyEach_of_not_mem {src dst : ℕ → α} {copied : List (ℕ × ℕ)} {o : ℕ}
    (h : o ∉ copied.map Prod.snd) : copyEach src dst copied o = dst o := by
  induction copied generalizing dst with
  | nil => rfl
  | cons x copied ih =>
    rw [map_cons, mem_cons, not_or] at h
    rw [copyEach, foldl_cons]
    exact (ih h.2).trans (update_of_ne h.1 _ _)

theorem copyEach_of_mem {src dst : ℕ → α} {copied : List (ℕ × ℕ)}
    (hnodup : (copied.map Prod.snd).Nodup) {i o : ℕ} (hmem : (i, o) ∈ copied) :
    copyEach src dst copied o = src i := by
  induction copied generalizing dst with
  | nil => exact absurd hmem not_mem_nil
  | cons x copied ih =>
    rw [map_cons, nodup_cons] at hnodup
    rw [copyEach, foldl_cons]
    rcases mem_cons.mp hmem with rfl | hmem
    · exact (copyEach_of_not_mem hnodup.1).trans (update_self o _ _)
    · exact ih hnodup.2 hmem

theorem foldl_update_add (v : ℕ → α) (mem : ℕ → α) (start n k : ℕ) :
    (List.range n).foldl (fun mem t => Function.update mem (start + t) (v t)) mem k =
      if start ≤ k ∧ k < start + n then v (k - start) else mem k := by
  induction n with
  | zero => rw [if_neg (by omega)]; rfl
  | succ n ih =>
    rw [range_succ, foldl_append, foldl_cons, foldl_nil]
    by_cases hlast : k = start + n
    · have hidx : k - start = n := by omega
      rw [hlast, update_self, if_pos (by omega), ← hlast, hidx]
    · rw [update_of_ne hlast, ih]
      exact if_congr (by omega) rfl rfl

theorem foldl_update_sub (v : ℕ → α) (mem : ℕ → α) (start n k : ℕ) :
    (List.range n).foldl (fun mem t => Function.update mem (start + (n - t - 1)) (v t)) mem k =
      if start ≤ k ∧ k < start + n then v (n - 1 - (k - start)) else mem k := by
  have hloop : ∀ m ≤ n,
      (List.range m).foldl (fun mem t => Function.update mem (start + (n - t - 1)) (v t)) mem k =
        if start + (n - m) ≤ k ∧ k < start + n then v (n - 1 - (k - start)) else mem k := by
    intro m hm
    induction m with
    | zero => rw [if_neg (by omega)]; rfl
    | succ m ih =>
      rw [range_succ, foldl_append, foldl_cons, foldl_nil]
      by_cases hlast : k = start + (n - m - 1)
      · have hidx : n - 1 - (k - start) = m := by omega
        rw [hlast, update_self, if_pos (by omega), ← hlast, hidx]
      · rw [update_of_ne hlast, ih (by omega)]
        exact if_congr (by omega) rfl rfl
  rw [hloop n (Nat.le_refl n), Nat.sub_self, Nat.add_zero]

/-! ## Changing values in place -/

theorem foldl_update_range (u : ℕ → α → α) (mem : ℕ → α) (n k : ℕ) :
    (List.range n).foldl (fun mem k => Function.update mem k (u k (mem k))) mem k =
      if k < n then u k (mem k) else mem k := by
  induction n generalizing k with
  | zero => rfl
  | succ n ih =>
    rw [range_succ, foldl_append, foldl_cons, foldl_nil]
    by_cases hk : k = n
    · subst hk
      rw [update_self, ih, if_neg (Nat.lt_irrefl k), if_pos (Nat.lt_succ_self k)]
    · rw [update_of_ne hk, ih]
      exact if_congr (by omega) rfl rfl

end MbmsTx.Memory
