import Mathlib.Data.List.Perm.Basic

/-!
# Positions in blocks

An array of blocks of one size is written block by block, in each block at some offsets:
`laid size f n` are the positions in this order. They increase if the offsets of each block do
(`pairwise_laid`), and two such lists that split every block split the array (`perm_laid`).

Nested loops visit the blocks in this order (`flatMap_range_mul`), and what a loop does is told from
what its body does (`foldl_flatMap`, `foldl_nested`).

A matrix written row by row is read column by column, with its columns permuted: `columnwise` is the
position read at some time, `turn` the time at which a position is read.
-/

namespace MbmsTx.Blocks

open List Nat

variable {α β σ : Type*}

/-- The positions of `n` blocks of `size` elements: in block `b` the offsets `f b`. -/
def laid (size : ℕ) (f : ℕ → List ℕ) (n : ℕ) : List ℕ :=
  (range n).flatMap fun b => (f b).map fun q => b * size + q

variable {size n p m : ℕ} {f g : ℕ → List ℕ} {s : σ}

theorem laid_succ (size : ℕ) (f : ℕ → List ℕ) (n : ℕ) :
    laid size f (n + 1) = laid size f n ++ (f n).map fun q => n * size + q := by
  rw [laid, range_succ, flatMap_append, flatMap_singleton]
  rfl

theorem lt_of_mem_laid (hlt : ∀ b < n, ∀ q ∈ f b, q < size) (hp : p ∈ laid size f n) :
    p < n * size := by
  induction n with
  | zero => exact absurd hp not_mem_nil
  | succ n ih =>
    have hmul : (n + 1) * size = n * size + size := succ_mul n size
    rw [laid_succ, mem_append, mem_map] at hp
    rcases hp with hold | ⟨q, hq, rfl⟩
    · have hbefore := ih (fun b hb => hlt b (lt_succ_of_lt hb)) hold
      omega
    · have hoffset := hlt n (lt_succ_self n) q hq
      omega

theorem pairwise_laid (hlt : ∀ b < n, ∀ q ∈ f b, q < size)
    (hinc : ∀ b < n, (f b).Pairwise (· < ·)) : (laid size f n).Pairwise (· < ·) := by
  induction n with
  | zero => exact List.Pairwise.nil
  | succ n ih =>
    rw [laid_succ, pairwise_append]
    refine ⟨ih (fun b hb => hlt b (lt_succ_of_lt hb)) (fun b hb => hinc b (lt_succ_of_lt hb)),
      ?_, ?_⟩
    · refine (hinc n (lt_succ_self n)).map _ ?_
      omega
    · intro p hp p' hp'
      obtain ⟨q, -, rfl⟩ := mem_map.mp hp'
      have hbefore := lt_of_mem_laid (fun b hb => hlt b (lt_succ_of_lt hb)) hp
      omega

/-- If the offsets of two lists together are a block, for every block, the lists together are all
positions. -/
theorem perm_laid (hperm : ∀ b < n, (f b ++ g b).Perm (range size)) :
    (laid size f n ++ laid size g n).Perm (range (n * size)) := by
  induction n with
  | zero =>
    rw [Nat.zero_mul]
    rfl
  | succ n ih =>
    have hblock := (hperm n (lt_succ_self n)).map fun q => n * size + q
    have hbefore := ih fun b hb => hperm b (lt_succ_of_lt hb)
    rw [map_append] at hblock
    rw [laid_succ, laid_succ, succ_mul, range_add]
    generalize (f n).map (fun q => n * size + q) = fs at hblock ⊢
    generalize (g n).map (fun q => n * size + q) = gs at hblock ⊢
    calc laid size f n ++ fs ++ (laid size g n ++ gs)
        = laid size f n ++ (fs ++ laid size g n) ++ gs := by simp
      _ ~ laid size f n ++ (laid size g n ++ fs) ++ gs :=
          (perm_append_comm.append_left _).append_right _
      _ = (laid size f n ++ laid size g n) ++ (fs ++ gs) := by simp
      _ ~ range (n * size) ++ (range size).map fun q => n * size + q :=
          hbefore.append hblock

theorem laid_sublist (hsub : ∀ b, (f b).Sublist (g b)) (n : ℕ) :
    (laid size f n).Sublist (laid size g n) := by
  induction n with
  | zero => rfl
  | succ n ih =>
    rw [laid_succ, laid_succ]
    exact ih.append ((hsub n).map _)

theorem flatMap_range_mul (f : ℕ → List α) (m n : ℕ) : (range (m * n)).flatMap f =
      (range m).flatMap fun i => (range n).flatMap fun j => f (i * n + j) := by
  induction m with
  | zero =>
    simp
  | succ m ih =>
    rw [succ_mul, range_add, flatMap_append, ih, range_succ, flatMap_append,
      flatMap_singleton, flatMap_map]

theorem map_range_mul (f : ℕ → α) (m n : ℕ) : (range (m * n)).map f =
      (range m).flatMap fun i => (range n).map fun j => f (i * n + j) := by
  rw [map_eq_flatMap, flatMap_range_mul]
  refine flatMap_congr ?_
  intro i _
  rw [map_eq_flatMap]

theorem getElem?_flatMap_range {g : ℕ → List α} {i j : ℕ} (hlen : ∀ i < n, (g i).length = m)
    (hi : i < n) (hj : j < m) : ((range n).flatMap g)[m * i + j]? = (g i)[j]? := by
  induction n with
  | zero => omega
  | succ n ih =>
    have hinit : ((range n).flatMap g).length = m * n := by
      rw [length_flatMap, map_congr_left (g := fun _ => m)]
      · simp [Nat.mul_comm]
      · intro i hi
        exact hlen i (lt_succ_of_lt (mem_range.mp hi))
    rw [range_succ, flatMap_append, flatMap_singleton]
    rcases Nat.lt_or_eq_of_le (Nat.le_of_lt_succ hi) with hlt | rfl
    · have hbound : m * i + j < m * n := by
        calc m * i + j < m * i + m := by omega
          _ = m * (i + 1) := by rfl
          _ ≤ m * n := mul_le_mul_left m hlt
      rw [getElem?_append_left (by omega), ih (fun i hi => hlen i (by omega)) hlt]
    · rw [getElem?_append_right (by omega), hinit, Nat.add_sub_cancel_left]

theorem foldl_flatMap {R : σ → List β → Prop} {step : σ → α → σ} {out : α → List β}
    (hstep : ∀ s ys x, R s ys → R (step s x) (ys ++ out x)) {ys : List β} (xs : List α)
    (h : R s ys) : R (xs.foldl step s) (ys ++ xs.flatMap out) := by
  induction xs generalizing s ys with
  | nil =>
    rw [flatMap_nil, append_nil]
    exact h
  | cons x xs ih =>
    rw [flatMap_cons, ← append_assoc]
    exact ih (hstep s ys x h)

variable {P : ℕ → σ → Prop}

theorem foldl_range {f : σ → ℕ → σ} (hstep : ∀ s, ∀ j < n, P j s → P (j + 1) (f s j)) (h : P 0 s) :
    P n ((range n).foldl f s) := by
  induction n with
  | zero => exact h
  | succ n ih =>
    rw [range_succ, foldl_append, foldl_cons, foldl_nil]
    exact hstep _ n (lt_succ_self n) (ih fun s j hj => hstep s j (lt_succ_of_lt hj))

theorem foldl_range_from {f : σ → ℕ → σ} {start : ℕ}
    (hstep : ∀ s j, P j s → P (j + 1) (f s j)) (h : P start s) :
    P (start + n) ((range' start n).foldl f s) := by
  rw [range'_eq_map_range, foldl_map]
  exact foldl_range (fun s j _ hs => hstep s (start + j) hs) h

theorem foldl_nested {step : σ → ℕ → ℕ → σ}
    (hstep : ∀ s, ∀ i < m, ∀ j < n, P (i * n + j) s → P (i * n + j + 1) (step s i j)) (h : P 0 s) :
    P (m * n) ((range m).foldl (fun s i => (range n).foldl (fun s j => step s i j) s) s) := by
  refine foldl_range (P := fun i s => P (i * n) s) ?_ (by rwa [Nat.zero_mul])
  intro s i hi hs
  have hinner := foldl_range (fun s j hj => hstep s i hi j hj) hs
  rwa [succ_mul]

/-! ## A matrix read by columns -/

section Columns

variable {nrows ncols : ℕ} {perm : ℕ → ℕ}

/-- The position, row by row, of what is read as number `p`. -/
def columnwise (nrows ncols : ℕ) (perm : ℕ → ℕ) (p : ℕ) : ℕ :=
  p % nrows * ncols + perm (p / nrows)

/-- When a position is read. -/
def turn (nrows ncols : ℕ) (perm : ℕ → ℕ) (v : ℕ) : ℕ := perm (v % ncols) * nrows + v / ncols

/-- The order of the columns is its own inverse. -/
structure SelfInverse (ncols : ℕ) (perm : ℕ → ℕ) : Prop where
  lt : ∀ c < ncols, perm c < ncols
  perm_perm : ∀ c < ncols, perm (perm c) = c

theorem mul_add_lt {a b : ℕ} (ha : a < m) (hb : b < n) : a * n + b < m * n := by
  calc a * n + b < a * n + n := Nat.add_lt_add_left hb _
    _ = (a + 1) * n := (succ_mul a n).symm
    _ ≤ m * n := Nat.mul_le_mul_right n ha

theorem mul_add_div {a b : ℕ} (hb : b < n) : (a * n + b) / n = a := by
  rw [Nat.mul_comm, Nat.mul_add_div (by omega), Nat.div_eq_of_lt hb, Nat.add_zero]

theorem columnwise_lt (hperm : SelfInverse ncols perm) (hp : p < ncols * nrows) :
    columnwise nrows ncols perm p < nrows * ncols := by
  have hnrows : 0 < nrows := Nat.pos_of_mul_pos_left (Nat.lt_of_le_of_lt (Nat.zero_le p) hp)
  exact mul_add_lt (mod_lt p hnrows) (hperm.lt _ ((div_lt_iff_lt_mul hnrows).mpr hp))

theorem turn_lt (hperm : SelfInverse ncols perm) {v : ℕ} (hv : v < nrows * ncols) :
    turn nrows ncols perm v < ncols * nrows := by
  have hncols : 0 < ncols := Nat.pos_of_mul_pos_left (Nat.lt_of_le_of_lt (Nat.zero_le v) hv)
  exact mul_add_lt (hperm.lt _ (mod_lt v hncols)) ((div_lt_iff_lt_mul hncols).mpr hv)

theorem columnwise_turn (hperm : SelfInverse ncols perm) {v : ℕ} (hv : v < nrows * ncols) :
    columnwise nrows ncols perm (turn nrows ncols perm v) = v := by
  have hncols : 0 < ncols := Nat.pos_of_mul_pos_left (Nat.lt_of_le_of_lt (Nat.zero_le v) hv)
  have hrow : v / ncols < nrows := (Nat.div_lt_iff_lt_mul hncols).mpr hv
  rw [columnwise, turn, mul_add_mod_of_lt hrow, mul_add_div hrow,
    hperm.perm_perm _ (Nat.mod_lt v hncols), Nat.mul_comm, Nat.div_add_mod]

theorem turn_columnwise (hperm : SelfInverse ncols perm) (hp : p < ncols * nrows) :
    turn nrows ncols perm (columnwise nrows ncols perm p) = p := by
  have hnrows : 0 < nrows := Nat.pos_of_mul_pos_left (Nat.lt_of_le_of_lt (Nat.zero_le p) hp)
  have hcol : p / nrows < ncols := (Nat.div_lt_iff_lt_mul hnrows).mpr hp
  rw [turn, columnwise, mul_add_mod_of_lt (hperm.lt _ hcol),
    mul_add_div (hperm.lt _ hcol), hperm.perm_perm _ hcol, Nat.mul_comm, Nat.div_add_mod]

end Columns

end MbmsTx.Blocks
