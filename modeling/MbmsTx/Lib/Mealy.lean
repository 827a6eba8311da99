import Mathlib.Data.List.Basic

/-!
# Machines with output

A machine reads a list and writes a value for each that it reads. A machine on blocks simulates one
on the items of the blocks if it does so in one step (`run_flatMap`), so a table of whole blocks is
as good as the machine it was filled from.
-/

namespace MbmsTx.Mealy

open List

variable {σ α β : Type*}

/-- The last state and what was written. -/
def run (step : σ → α → σ × β) : σ → List α → σ × List β
  | s, [] => (s, [])
  | s, a :: as => ((run step (step s a).1 as).1, (step s a).2 :: (run step (step s a).1 as).2)

variable (step : σ → α → σ × β) (s : σ)

@[simp] theorem run_nil : run step s [] = (s, []) := rfl

theorem run_cons (a : α) (as : List α) : run step s (a :: as) =
      ((run step (step s a).1 as).1, (step s a).2 :: (run step (step s a).1 as).2) := rfl

theorem run_append (as bs : List α) : run step s (as ++ bs) =
      ((run step (run step s as).1 bs).1,
        (run step s as).2 ++ (run step (run step s as).1 bs).2) := by
  induction as generalizing s with
  | nil => rfl
  | cons a as ih => rw [cons_append, run_cons, ih, run_cons, cons_append]

theorem run_concat (as : List α) (a : α) : run step s (as ++ [a]) =
      ((step (run step s as).1 a).1, (run step s as).2 ++ [(step (run step s as).1 a).2]) := by
  rw [run_append, run_cons, run_nil]

theorem run_flatMap {τ γ δ : Type*} {blockStep : τ → γ → τ × δ} {items : γ → List α}
    {outs : δ → List β} {state : τ → σ}
    (hstep : ∀ t c, run step (state t) (items c) =
      (state (blockStep t c).1, outs (blockStep t c).2)) (t : τ) (cs : List γ) :
    run step (state t) (cs.flatMap items) =
      (state (run blockStep t cs).1, (run blockStep t cs).2.flatMap outs) := by
  induction cs generalizing t with
  | nil => rfl
  | cons c cs ih =>
    rw [flatMap_cons, run_append, hstep, ih, run_cons, flatMap_cons]

/-! ## Inputs given by a function -/

/-- The state before the `n`-th input. -/
def stateAt (s : σ) (f : ℕ → α) (n : ℕ) : σ := (run step s ((List.range n).map f)).1

/-- What is written for the `n`-th input. -/
def outAt (s : σ) (f : ℕ → α) (n : ℕ) : β := (step (stateAt step s f n) (f n)).2

@[simp] theorem stateAt_zero (f : ℕ → α) : stateAt step s f 0 = s := rfl

theorem stateAt_succ (f : ℕ → α) (n : ℕ) :
    stateAt step s f (n + 1) = (step (stateAt step s f n) (f n)).1 := by
  rw [stateAt, range_succ, map_append, map_singleton, run_concat]
  rfl

theorem run_map_range (f : ℕ → α) (n : ℕ) :
    run step s ((List.range n).map f) =
      (stateAt step s f n, (List.range n).map (outAt step s f)) := by
  induction n with
  | zero => rfl
  | succ n ih =>
    rw [range_succ, map_append, map_singleton, run_concat, ih, map_append,
      map_singleton, stateAt_succ]
    rfl

theorem stateAt_congr {f g : ℕ → α} {n : ℕ} (h : ∀ i < n, f i = g i) :
    stateAt step s f n = stateAt step s g n := by
  rw [stateAt, stateAt, map_congr_left]
  intro i hi
  exact h i (mem_range.mp hi)

theorem outAt_congr {f g : ℕ → α} {n : ℕ} (h : ∀ i ≤ n, f i = g i) :
    outAt step s f n = outAt step s g n := by
  rw [outAt, outAt, stateAt_congr step s fun i hi => h i (Nat.le_of_lt hi), h n (Nat.le_refl n)]

end MbmsTx.Mealy
