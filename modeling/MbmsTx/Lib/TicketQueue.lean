import Mathlib.Tactic.Common

/-!
# Queues in ticket order

Elements that enter a queue in turn carry consecutive tickets: in `Numbered ticket first queue` the
tickets count up from `first` at the head. It is kept by adding the next ticket at the end and by
removing the head, and identifies the elements of the queue by their tickets.
-/

namespace MbmsTx.TicketQueue

open List

variable {α : Type*} {ticket : α → Option ℕ} {first : ℕ} {queue : List α} {a : α}

/-- The elements have consecutive tickets from `first` on. -/
def Numbered (ticket : α → Option ℕ) : ℕ → List α → Prop
  | _, [] => True
  | first, a :: queue => ticket a = some first ∧ Numbered ticket (first + 1) queue

section

variable (h : Numbered ticket first queue)
include h

theorem Numbered.head (ha : queue.head? = some a) : ticket a = some first := by
  cases queue with
  | nil => cases ha
  | cons b queue =>
    cases ha
    exact h.1

theorem Numbered.tail (hne : queue ≠ []) : Numbered ticket (first + 1) queue.tail := by
  cases queue with
  | nil => assumption
  | cons b queue => exact h.2

theorem Numbered.push
    (ha : ticket a = some (first + queue.length)) : Numbered ticket first (queue ++ [a]) := by
  induction queue generalizing first with
  | nil => exact ⟨ha, trivial⟩
  | cons b queue ih =>
    refine ⟨h.1, ih h.2 ?_⟩
    rw [ha, length_cons]
    congr 1
    omega

theorem Numbered.congr {ticket' : α → Option ℕ}
    (heq : ∀ a ∈ queue, ticket' a = ticket a) : Numbered ticket' first queue := by
  induction queue generalizing first with
  | nil => trivial
  | cons b queue ih =>
    exact ⟨(heq b mem_cons_self).trans h.1, ih h.2 fun a ha => heq a (mem_cons_of_mem _ ha)⟩

theorem Numbered.le_of_mem (ha : a ∈ queue) :
    ∃ n, ticket a = some n ∧ first ≤ n ∧ n < first + queue.length := by
  induction queue generalizing first with
  | nil => cases ha
  | cons b queue ih =>
    rcases mem_cons.mp ha with rfl | ha
    · exact ⟨first, h.1, Nat.le_refl _, by simp⟩
    obtain ⟨n, hn, hle, hlt⟩ := ih h.2 ha
    refine ⟨n, hn, by omega, ?_⟩
    rw [length_cons]
    omega

theorem Numbered.exists_mem {n : ℕ} (hle : first ≤ n) (hlt : n < first + queue.length) :
    ∃ a ∈ queue, ticket a = some n := by
  induction queue generalizing first with
  | nil =>
    rw [length_nil] at hlt
    omega
  | cons b queue ih =>
    rw [length_cons] at hlt
    rcases Nat.eq_or_lt_of_le hle with rfl | hgt
    · exact ⟨b, mem_cons_self, h.1⟩
    obtain ⟨a, ha, hn⟩ := ih h.2 hgt (by omega)
    exact ⟨a, mem_cons_of_mem _ ha, hn⟩

theorem Numbered.head_of_ticket (ha : a ∈ queue)
    (hticket : ticket a = some first) : queue.head? = some a := by
  cases queue with
  | nil => cases ha
  | cons b queue =>
    rcases mem_cons.mp ha with rfl | ha
    · rfl
    obtain ⟨n, hn, hle, -⟩ := h.2.le_of_mem ha
    rw [hticket] at hn
    cases hn
    omega

theorem Numbered.mem_tail (hhead : queue.head? = some a) {b : α} :
    b ∈ queue.tail ↔ b ∈ queue ∧ b ≠ a := by
  cases queue with
  | nil => cases hhead
  | cons c queue =>
    cases hhead
    rw [tail_cons, mem_cons]
    constructor
    · intro hb
      refine ⟨.inr hb, ?_⟩
      rintro rfl
      obtain ⟨n, hn, hle, -⟩ := h.2.le_of_mem hb
      rw [h.1] at hn
      cases hn
      omega
    · rintro ⟨rfl | hb, hne⟩
      · exact absurd rfl hne
      · exact hb

end

end MbmsTx.TicketQueue
