import Mathlib.Algebra.Ring.Nat

/-!
# Linear recurrences over bits

A sequence of bits in which every element is the sum of a few of those before it. A register holds a
window of the sequence. When no tap is in the last `k` places of the window, it moves by `k` places
in one step (`Window.shift`). The sequence is linear in its seed (`Recurrence.seq_xor`).
-/

namespace MbmsTx.Lfsr

/-! ## Sequences -/

/-- Every element is the sum of those at the taps, counted from `length` places before. -/
structure Recurrence where
  length : ℕ
  taps : List (Fin length)

namespace Recurrence

/-- The sequence that starts with the seed. -/
def seq (r : Recurrence) (seed : ℕ → Bool) (n : ℕ) : Bool :=
  if _h : n < r.length then seed n
  else r.taps.foldr (fun (t : Fin r.length) sum => r.seq seed (n - r.length + t) ^^ sum) false
termination_by n
decreasing_by
  omega

variable {r : Recurrence} {seed : ℕ → Bool}

theorem seq_of_lt {n : ℕ} (hn : n < r.length) : r.seq seed n = seed n := by
  rw [seq, dif_pos hn]

theorem seq_add (r : Recurrence) (seed : ℕ → Bool) (n : ℕ) :
    r.seq seed (n + r.length) =
      r.taps.foldr (fun (t : Fin r.length) sum => r.seq seed (n + t) ^^ sum) false := by
  rw [seq, dif_neg (by omega), Nat.add_sub_cancel]

theorem foldr_xor {α : Type*} (f g : α → Bool) (l : List α) :
    l.foldr (fun t sum => (f t ^^ g t) ^^ sum) false =
      (l.foldr (fun t sum => f t ^^ sum) false ^^ l.foldr (fun t sum => g t ^^ sum) false) := by
  induction l with
  | nil => rfl
  | cons t l ih =>
    rw [List.foldr_cons, List.foldr_cons, List.foldr_cons, ih]
    simp [Bool.xor_left_comm]

theorem seq_xor (r : Recurrence) (a b : ℕ → Bool) (n : ℕ) :
    r.seq (fun i => a i ^^ b i) n = (r.seq a n ^^ r.seq b n) := by
  induction n using Nat.strongRecOn with
  | ind n ih =>
    by_cases hn : n < r.length
    · rw [seq_of_lt hn, seq_of_lt hn, seq_of_lt hn]
    obtain ⟨m, rfl⟩ : ∃ m, n = m + r.length := ⟨n - r.length, by omega⟩
    have hsum : ∀ t : Fin r.length,
        r.seq (fun i => a i ^^ b i) (m + t) = (r.seq a (m + t) ^^ r.seq b (m + t)) := by
      intro t
      have := t.isLt
      exact ih (m + t) (by omega)
    simp only [seq_add, hsum]
    exact foldr_xor _ _ _

theorem seq_zero (r : Recurrence) (n : ℕ) : r.seq (fun _ => false) n = false := by
  have hself := r.seq_xor (fun _ => false) (fun _ => false) n
  simpa using hself

theorem seq_congr {a b : ℕ → Bool} (h : ∀ i < r.length, a i = b i) (n : ℕ) :
    r.seq a n = r.seq b n := by
  induction n using Nat.strongRecOn with
  | ind n ih =>
    by_cases hn : n < r.length
    · rw [seq_of_lt hn, seq_of_lt hn, h n hn]
    obtain ⟨m, rfl⟩ : ∃ m, n = m + r.length := ⟨n - r.length, by omega⟩
    have hsame : ∀ t : Fin r.length, r.seq a (m + t) = r.seq b (m + t) := by
      intro t
      have := t.isLt
      exact ih (m + t) (by omega)
    simp only [seq_add, hsame]

end Recurrence

/-! ## Registers -/

section Window

variable {m n k length : ℕ} {x y : ℕ → Bool} {v w f mask : BitVec m}

/-- The word holds the elements from `n` on, the first in its lowest bit. -/
def Window (length : ℕ) (x : ℕ → Bool) (n : ℕ) (w : BitVec m) : Prop :=
  ∀ i, w.getLsbD i = (decide (i < length) && x (n + i))

theorem Window.getLsbD (h : Window length x n w) {i : ℕ} (hi : i < length) :
    w.getLsbD i = x (n + i) := by
  rw [h i, decide_eq_true hi, Bool.true_and]

theorem Window.xor (hv : Window length x n v) (hw : Window length y n w) :
    Window length (fun i => x i ^^ y i) n (v ^^^ w) := by
  intro i
  rw [BitVec.getLsbD_xor, hv i, hw i]
  cases decide (i < length) <;> rfl

/-- The window moves by `k` places. -/
theorem Window.shift (h : Window length x n w) (hm : length ≤ m) (hk : k ≤ length)
    (hf : ∀ i < k, f.getLsbD i = x (n + length + i))
    (hmask : ∀ i, mask.getLsbD i = decide (i < k)) :
    Window length x (n + k) ((w >>> k) ^^^ ((f &&& mask) <<< (length - k))) := by
  intro i
  rw [BitVec.getLsbD_xor, BitVec.getLsbD_ushiftRight, BitVec.getLsbD_shiftLeft, BitVec.getLsbD_and,
    hmask, h]
  rcases lt_or_ge i (length - k) with hlow | hhigh
  · have hidx : n + (k + i) = n + k + i := by omega
    rw [decide_eq_true hlow, decide_eq_true (by omega),
      decide_eq_true (by omega : i < length), hidx]
    simp
  · have hout : decide (k + i < length) = false := decide_eq_false (by omega)
    have hin : decide (i < length - k) = false := decide_eq_false (by omega)
    rw [hout, hin]
    by_cases hi : i < length
    · have hidx : n + length + (i - (length - k)) = n + k + i := by omega
      rw [hf _ (by omega), hidx, decide_eq_true hi, decide_eq_true (by omega),
        decide_eq_true (by omega)]
      simp
    · rw [decide_eq_false hi, decide_eq_false (by omega : ¬ i - (length - k) < k)]
      simp

end Window

end MbmsTx.Lfsr
