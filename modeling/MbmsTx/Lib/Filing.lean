import Mathlib.Data.List.Nodup

/-!
# Items filed under keys

In `Filed key lists` every item is in the list of its key, once, and in no other. The items of a
pool that are filed on neither of two sides are in a free list (`Free`). Both are kept by releasing
items and by taking a free item and filing it.
-/

namespace MbmsTx.Filing

open List

variable {α κ ι : Type*} {key key' : α → Option κ} {other other' : α → Option ι}
  {lists lists' : κ → List α} {pool : α → Prop} {items free free' : List α} {a : α} {k : κ} {i : ι}

/-- Every item is in the list of its key, once, and in no other. -/
structure Filed (key : α → Option κ) (lists : κ → List α) : Prop where
  nodup : ∀ k, (lists k).Nodup
  mem : ∀ {k a}, a ∈ lists k ↔ key a = some k

section

variable [DecidableEq α] [DecidableEq κ]

/-- Items of one list lose their key. -/
theorem Filed.release {list : List α} (h : Filed key lists)
    (hkey : ∀ a, key' a = if a ∈ items then none else key a)
    (hlists : ∀ j, lists' j = if j = k then list else lists j)
    (hitems : ∀ a ∈ items, key a = some k)
    (hnodup : list.Nodup) (hlist : ∀ a, a ∈ list ↔ a ∈ lists k ∧ a ∉ items) :
    Filed key' lists' := by
  refine ⟨fun j => ?_, fun {j a} => ?_⟩
  · rw [hlists]
    split
    · exact hnodup
    · exact h.nodup j
  · rw [hlists, hkey]
    by_cases hj : j = k <;> by_cases ha : a ∈ items
    · simp [hj, ha, hlist]
    · simp [hj, ha, hlist, h.mem]
    · simp [hj, ha, h.mem, hitems a ha, Ne.symm hj]
    · simp [hj, ha, h.mem]

/-- An item without key is put in front of a list. -/
theorem Filed.insert (h : Filed key lists) (ha : key a = none)
    (hkey : ∀ b, key' b = if b = a then some k else key b)
    (hlists : ∀ j, lists' j = if j = k then a :: lists j else lists j) : Filed key' lists' := by
  refine ⟨fun j => ?_, fun {j b} => ?_⟩
  · rw [hlists]
    split
    · exact nodup_cons.mpr ⟨by simp [h.mem, ha], h.nodup j⟩
    · exact h.nodup j
  · rw [hlists, hkey]
    by_cases hj : j = k <;> by_cases hb : b = a
    · simp [hj, hb]
    · simp [hj, hb, h.mem]
    · simp [hj, hb, h.mem, ha, Ne.symm hj]
    · simp [hj, hb, h.mem]

end

/-- The free items of a pool are those that neither side has filed. -/
structure Free (pool : α → Prop) (key : α → Option κ) (other : α → Option ι) (free : List α) :
    Prop where
  bound : ∀ {a}, key a ≠ none ∨ other a ≠ none → pool a
  nodup : free.Nodup
  mem : ∀ {a}, a ∈ free ↔ pool a ∧ key a = none ∧ other a = none

theorem Free.symm (h : Free pool key other free) : Free pool other key free :=
  ⟨fun ha => h.bound ha.symm, h.nodup, h.mem.trans (and_congr_right' and_comm)⟩

theorem Free.release [DecidableEq α] (h : Free pool key other free)
    (hkey : ∀ a, key' a = if a ∈ items then none else key a) (hitems : ∀ a ∈ items, key a ≠ none)
    (hmem : ∀ {a}, a ∈ free' ↔ a ∈ free ∨ a ∈ items ∧ other a = none)
    (hnodup : (∀ a ∈ items, a ∉ free) → free'.Nodup) : Free pool key' other free' := by
  refine ⟨fun {a} ha => h.bound (ha.imp_left fun hne hnone => hne (by simp [hkey, hnone])),
    hnodup fun a ha hfree => hitems a ha (h.mem.mp hfree).2.1, fun {a} => ?_⟩
  rw [hmem, h.mem, hkey]
  by_cases ha : a ∈ items
  · simp [ha, hitems a ha, h.bound (.inl (hitems a ha))]
  · simp [ha]

theorem Free.take [DecidableEq α] (h : Free pool key other (a :: free))
    (hkey : ∀ b, key' b = if b = a then some k else key b)
    (hother : ∀ b, other' b = if b = a then some i else other b) : Free pool key' other' free := by
  obtain ⟨hnew, hnodup⟩ := nodup_cons.mp h.nodup
  refine ⟨fun {b} hb => ?_, hnodup, fun {b} => ?_⟩
  · by_cases hba : b = a
    · exact hba ▸ (h.mem.mp mem_cons_self).1
    · rw [hkey, hother, if_neg hba, if_neg hba] at hb
      exact h.bound hb
  · rw [hkey, hother]
    by_cases hba : b = a
    · simp [hba, hnew]
    · simp [hba, ← h.mem]

end MbmsTx.Filing
