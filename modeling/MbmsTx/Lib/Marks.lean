import Mathlib.Algebra.Ring.Nat
import Mathlib.Algebra.BigOperators.Group.List.Basic
import Mathlib.Algebra.Order.Group.Nat
import Mathlib.Data.List.Nodup

/-!
# Marks of a list of lengths

Pieces laid end to end from a base `a` end at the marks of their lengths. The marks determine the
lengths (`marks_injective`), so lengths that are taken apart and put together are followed by their
marks: cutting out a range selects those inside it, and joining two lists appends them.
-/

namespace MbmsTx

open List

/-- Where the pieces of the given lengths end, when the first starts at `a`. -/
def marks : ℕ → List ℕ → List ℕ
  | _, [] => []
  | a, l :: ls => (a + l) :: marks (a + l) ls

@[simp] theorem marks_nil (a : ℕ) : marks a [] = [] := rfl

@[simp] theorem marks_cons (a l : ℕ) (ls : List ℕ) :
    marks a (l :: ls) = (a + l) :: marks (a + l) ls := rfl

theorem marks_append (a : ℕ) (ls ms : List ℕ) :
    marks a (ls ++ ms) = marks a ls ++ marks (a + ls.sum) ms := by
  induction ls generalizing a with
  | nil => simp
  | cons l ls ih => simp [ih, add_assoc]

variable {ls : List ℕ} {a : ℕ}

theorem marks_injective (a : ℕ) {ms : List ℕ} (h : marks a ls = marks a ms) : ls = ms := by
  induction ls generalizing a ms with
  | nil =>
    cases ms with
    | nil => rfl
    | cons m ms => cases h
  | cons l ls ih =>
    cases ms with
    | nil => cases h
    | cons m ms =>
      obtain ⟨hhead, htail⟩ := cons.inj h
      have hlm : l = m := Nat.add_left_cancel hhead
      subst hlm
      rw [ih (a + l) htail]

theorem lt_of_mem_marks (hpos : ∀ l ∈ ls, 0 < l) {m : ℕ} (hm : m ∈ marks a ls) : a < m := by
  induction ls generalizing a with
  | nil => cases hm
  | cons l ls ih =>
    have hl : 0 < l := hpos l (by simp)
    rcases mem_cons.mp hm with rfl | hm
    · omega
    · have hlt := ih (fun k hk => hpos k (mem_cons_of_mem _ hk)) hm
      omega

theorem le_of_mem_marks {m : ℕ} (hm : m ∈ marks a ls) : m ≤ a + ls.sum := by
  induction ls generalizing a with
  | nil => cases hm
  | cons l ls ih =>
    rw [sum_cons]
    rcases mem_cons.mp hm with rfl | hm
    · omega
    · have hle := ih hm
      omega

theorem add_sum_mem_marks (hne : ls ≠ []) : a + ls.sum ∈ marks a ls := by
  induction ls generalizing a with
  | nil => exact absurd rfl hne
  | cons l ls ih =>
    rw [sum_cons, marks_cons, ← add_assoc]
    by_cases hnil : ls = []
    · simp [hnil]
    · exact mem_cons_of_mem _ (ih hnil)

theorem pairwise_marks (hpos : ∀ l ∈ ls, 0 < l) : (marks a ls).Pairwise (· < ·) := by
  induction ls generalizing a with
  | nil => simp
  | cons l ls ih =>
    have hls : ∀ k ∈ ls, 0 < k := fun k hk => hpos k (mem_cons_of_mem _ hk)
    exact pairwise_cons.mpr ⟨fun m hm => lt_of_mem_marks hls hm, ih hls⟩

theorem pos_of_pairwise_marks (h : (a :: marks a ls).Pairwise (· < ·)) : ∀ l ∈ ls, 0 < l := by
  induction ls generalizing a with
  | nil => simp
  | cons l ls ih =>
    obtain ⟨hhead, htail⟩ := pairwise_cons.mp h
    intro k hk
    rcases mem_cons.mp hk with rfl | hk
    · have hlt := hhead (a + k) (by simp)
      omega
    · exact ih htail k hk

theorem filter_marks_eq_nil {b : ℕ} (hpos : ∀ l ∈ ls, 0 < l) (hba : b ≤ a + 1) (p : ℕ → Bool) :
    (marks a ls).filter (fun m => p m && decide (m < b)) = [] := by
  rw [filter_eq_nil_iff]
  intro m hm
  have hlt := lt_of_mem_marks hpos hm
  simp only [Bool.and_eq_true, decide_eq_true_eq, not_and]
  omega

/-- The elements of an increasing list below `a` and those between `a` and `b`. -/
theorem filter_lt_append {xs : List ℕ} {b : ℕ} (hxs : xs.Pairwise (· < ·)) (hab : a ≤ b) :
    xs.filter (fun m => decide (m < a)) ++
        xs.filter (fun m => decide (a ≤ m) && decide (m < b)) =
      xs.filter fun m => decide (m < b) := by
  induction xs with
  | nil => rfl
  | cons x xs ih =>
    obtain ⟨hhead, htail⟩ := pairwise_cons.mp hxs
    by_cases hx : x < a
    · rw [filter_cons_of_pos (by simpa using hx), filter_cons_of_neg (by simp [hx]),
        filter_cons_of_pos (by simp; omega), cons_append, ih htail]
    -- all elements from here on lie behind `a`
    · rw [filter_eq_nil_iff.mpr, nil_append]
      · refine filter_congr fun m hm => ?_
        have hle : a ≤ m := by
          rcases mem_cons.mp hm with rfl | hm
          · omega
          · exact (Nat.le_of_not_lt hx).trans (hhead m hm).le
        simp [hle]
      · rintro m hm hlt
        rcases mem_cons.mp hm with rfl | hm
        · exact hx (by simpa using hlt)
        · exact hx ((hhead m hm).trans (by simpa using hlt))

/-- The mark at `b`, if any, completes the marks up to `b`. -/
theorem filter_marks_succ (base b : ℕ) (hpos : ∀ l ∈ ls, 0 < l) :
    (marks base ls).filter (fun m => decide (m < b)) ++ (if b ∈ marks base ls then [b] else []) =
      (marks base ls).filter fun m => decide (m < b + 1) := by
  have hmarks := @pairwise_marks ls base hpos
  have heq : (fun m => decide (b ≤ m) && decide (m < b + 1)) = fun m => decide (m = b) := by
    funext m
    rw [← Bool.decide_and, decide_eq_decide]
    omega
  rw [← filter_lt_append hmarks (Nat.le_succ b), heq, filter_eq]
  split
  · next hmem => rw [count_eq_one_of_mem (hmarks.imp Nat.ne_of_lt) hmem]; rfl
  · next hmem => rw [count_eq_zero_of_not_mem hmem]; rfl

end MbmsTx
