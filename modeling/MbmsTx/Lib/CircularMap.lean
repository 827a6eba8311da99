import Mathlib.Algebra.Ring.Nat
import Mathlib.Data.Finset.Card

/-!
# Circular maps

A map with `N` slots, in which a key lives in the slot of its remainder modulo `N`: `overwrite`
evicts what it finds there. The number of entries is kept in a counter; the structure carries that
the counter is right and that every entry lies in the slot of its key.
-/

namespace MbmsTx

open Option Finset

/-- A map of `N` slots indexed by the key modulo `N`, with its number of entries. -/
structure CircularMap (N : ℕ) (α : Type*) where
  slots : ℕ → Option (ℕ × α)
  count : ℕ
  key_mod : ∀ {i : ℕ} {entry : ℕ × α}, slots i = some entry → entry.1 % N = i
  count_eq : count = ((range N).filter fun i => (slots i).isSome).card

namespace CircularMap

variable {N : ℕ} {α : Type*}

/-- The map without entries. -/
def empty (N : ℕ) (α : Type*) : CircularMap N α where
  slots := fun _ => none
  count := 0
  key_mod := by simp
  count_eq := by simp

/-- The value stored under a key. -/
def get? (m : CircularMap N α) (key : ℕ) : Option α :=
  (m.slots (key % N)).bind fun entry => if entry.1 = key then some entry.2 else none

/-- Whether the key is stored. -/
def contains (m : CircularMap N α) (key : ℕ) : Bool := (m.get? key).isSome

/-- Whether the slot of the key is free. -/
def hasSpace (m : CircularMap N α) (key : ℕ) : Bool := (m.slots (key % N)).isNone

variable {m : CircularMap N α} {key : ℕ} {value : α}

theorem slots_of_get? (h : m.get? key = some value) : m.slots (key % N) = some (key, value) := by
  obtain ⟨⟨k, v⟩, hslot, hkey⟩ := bind_eq_some_iff.mp h
  simp only [ite_none_right_eq_some, some.injEq] at hkey
  rw [hslot, hkey.1, hkey.2]

theorem contains_iff : m.contains key ↔ ∃ value, m.slots (key % N) = some (key, value) := by
  constructor
  · intro h
    obtain ⟨value, hvalue⟩ := isSome_iff_exists.mp h
    exact ⟨value, slots_of_get? hvalue⟩
  · rintro ⟨value, h⟩
    simp [contains, get?, h]

@[simp] theorem contains_empty (key : ℕ) : (empty N α).contains key = false := rfl

@[simp] theorem count_empty : (empty N α).count = 0 := rfl

/-- The entry that an overwrite of the key evicts. -/
def evicted (m : CircularMap N α) (key : ℕ) : Option (ℕ × α) := m.slots (key % N)

theorem hasSpace_of_forall (h : ∀ other, other % N = key % N → m.contains other = false) :
    m.hasSpace key := by
  rw [hasSpace, isNone_iff_eq_none]
  by_contra hne
  obtain ⟨⟨k, v⟩, hkv⟩ := ne_none_iff_exists'.mp hne
  have hmod : k % N = key % N := m.key_mod hkv
  have hk : m.contains k := contains_iff.mpr ⟨v, by rw [hmod, hkv]⟩
  exact absurd hk (by simp [h k hmod])

/-! ## Writing a slot -/

/-- The slots with slot `i` set. -/
def setSlot (slots : ℕ → Option (ℕ × α)) (i : ℕ) (entry : Option (ℕ × α)) : ℕ → Option (ℕ × α) :=
  fun j => if j = i then entry else slots j

theorem card_setSlot (slots : ℕ → Option (ℕ × α)) {i : ℕ} (hi : i < N) (entry : Option (ℕ × α)) :
    ((range N).filter fun j => (setSlot slots i entry j).isSome).card +
        (if (slots i).isSome then 1 else 0) =
      ((range N).filter fun j => (slots j).isSome).card + if entry.isSome then 1 else 0 := by
  have hsum : ∀ slots : ℕ → Option (ℕ × α),
      ((range N).filter fun j => (slots j).isSome).card =
        (((range N).erase i).filter fun j => (slots j).isSome).card +
          if (slots i).isSome then 1 else 0 := by
    intro slots
    rw [← insert_erase (mem_range.mpr hi), filter_insert]
    split
    · simp [card_insert_of_notMem]
    · simp
  have hother : (((range N).erase i).filter fun j => (setSlot slots i entry j).isSome) =
      ((range N).erase i).filter fun j => (slots j).isSome := by
    refine filter_congr fun j hj => ?_
    rw [setSlot, if_neg (ne_of_mem_erase hj)]
  rw [hsum, hsum slots, hother]
  simp [setSlot]
  omega

/-! ## Operations -/

/-- The entries, in the order of their slots. -/
def entries (m : CircularMap N α) : List (ℕ × α) := (List.range N).filterMap m.slots

theorem nodup_keys_entries (m : CircularMap N α) : (m.entries.map Prod.fst).Nodup := by
  unfold entries List.Nodup
  rw [List.pairwise_map, List.pairwise_filterMap]
  refine List.nodup_range.imp fun hne entry hentry entry' hentry' heq => hne ?_
  rw [← m.key_mod hentry, ← m.key_mod hentry', heq]

variable [NeZero N]

/-- Store a value, evicting the entry in the slot of the key. -/
def overwrite (m : CircularMap N α) (key : ℕ) (value : α) : CircularMap N α where
  slots := setSlot m.slots (key % N) (some (key, value))
  count := m.count + if (m.slots (key % N)).isSome then 0 else 1
  key_mod := by
    intro i entry h
    simp only [setSlot] at h
    split at h
    · next hi => simp only [Option.some.injEq] at h; rw [← h, hi]
    · exact m.key_mod h
  count_eq := by
    have hcard := card_setSlot m.slots (Nat.mod_lt key (Nat.pos_of_neZero N)) (some (key, value))
    rw [← m.count_eq] at hcard
    cases h : (m.slots (key % N)).isSome <;> simp [h] at hcard ⊢ <;> omega

/-- Remove a key, if it is stored. -/
def erase (m : CircularMap N α) (key : ℕ) : CircularMap N α :=
  if h : m.contains key = true then
    { slots := setSlot m.slots (key % N) none
      count := m.count - 1
      key_mod := by
        intro i entry hentry
        simp only [setSlot] at hentry
        split at hentry
        · exact absurd hentry (by simp)
        · exact m.key_mod hentry
      count_eq := by
        obtain ⟨value, hvalue⟩ := contains_iff.mp h
        have hcard := card_setSlot m.slots (Nat.mod_lt key (Nat.pos_of_neZero N)) none
        rw [← m.count_eq, hvalue] at hcard
        exact (Nat.eq_sub_of_add_eq hcard).symm }
  else m

/-- Change the value stored under a key in place. -/
def modify (m : CircularMap N α) (key : ℕ) (f : α → α) : CircularMap N α :=
  match m.get? key with
  | some value => m.overwrite key (f value)
  | none => m

variable (other : ℕ)

theorem contains_overwrite : (m.overwrite key value).contains other ↔
      other = key ∨ other % N ≠ key % N ∧ m.contains other := by
  rw [contains_iff, contains_iff]
  by_cases hslot : other % N = key % N
  · simp only [overwrite, setSlot, hslot, if_true, some.injEq, Prod.mk.injEq]
    constructor
    · omega
    · rintro (rfl | ⟨hne, -⟩)
      · simp
      omega
  · have hne : other ≠ key := fun h => hslot (by rw [h])
    simp [overwrite, setSlot, hslot, hne]

theorem contains_erase : (m.erase key).contains other ↔ other ≠ key ∧ m.contains other := by
  unfold erase
  split
  · next h =>
    obtain ⟨value, hvalue⟩ := contains_iff.mp h
    rw [contains_iff, contains_iff]
    by_cases hslot : other % N = key % N
    · simp [setSlot, hslot, hvalue]
      omega
    · have hne : other ≠ key := fun h => hslot (by rw [h])
      simp [setSlot, hslot, hne]
  · next h =>
    constructor
    · intro hother
      exact ⟨fun heq => h (heq ▸ hother), hother⟩
    simp

variable {f : α → α}

@[simp] theorem contains_modify : (m.modify key f).contains other = m.contains other := by
  unfold modify
  split
  · next value hvalue =>
    have hslot := slots_of_get? hvalue
    have hkey : m.contains key := contains_iff.mpr ⟨value, hslot⟩
    rw [Bool.eq_iff_iff, contains_overwrite]
    constructor
    · rintro (rfl | ⟨-, h⟩)
      · exact hkey
      · exact h
    · intro h
      by_cases hmod : other % N = key % N
      · obtain ⟨v, hv⟩ := contains_iff.mp h
        rw [hmod, hslot] at hv
        simp only [some.injEq, Prod.mk.injEq] at hv
        omega
      · exact .inr ⟨hmod, h⟩
  · rfl

@[simp] theorem count_modify : (m.modify key f).count = m.count := by
  unfold modify
  split
  · next value hvalue => simp [overwrite, slots_of_get? hvalue]
  · rfl

theorem count_overwrite_of_hasSpace (h : m.hasSpace key) :
    (m.overwrite key value).count = m.count + 1 := by
  have hnone : m.slots (key % N) = none := by simpa [hasSpace] using h
  simp [overwrite, hnone]

theorem get?_overwrite_of_ne {other : ℕ} (h : other % N ≠ key % N) :
    (m.overwrite key value).get? other = m.get? other := by
  simp [get?, overwrite, setSlot, h]

theorem get?_modify_of_ne {other : ℕ} (h : other % N ≠ key % N) :
    (m.modify key f).get? other = m.get? other := by
  unfold modify
  split
  · exact get?_overwrite_of_ne h
  · rfl

theorem get?_overwrite_self : (m.overwrite key value).get? key = some value := by
  simp [get?, overwrite, setSlot]

/-- After an overwrite: the new entry, and those in other slots. -/
theorem get?_overwrite : (m.overwrite key value).get? other =
      if other = key then some value else if other % N = key % N then none else m.get? other := by
  by_cases hkey : other = key
  · rw [hkey, if_pos rfl, get?_overwrite_self]
  rw [if_neg hkey]
  by_cases hslot : other % N = key % N
  · simp [get?, overwrite, setSlot, hslot, Ne.symm hkey]
  · rw [if_neg hslot, get?_overwrite_of_ne hslot]

theorem get?_erase : (m.erase key).get? other = if other = key then none else m.get? other := by
  by_cases hkey : other = key
  · rw [if_pos hkey, hkey, ← not_isSome_iff_eq_none]
    intro hsome
    exact ((contains_erase key).mp hsome).1 rfl
  rw [if_neg hkey, erase]
  split
  · next h =>
    obtain ⟨value, hvalue⟩ := contains_iff.mp h
    by_cases hslot : other % N = key % N
    · simp [get?, setSlot, hslot, hvalue, Ne.symm hkey]
    · simp [get?, setSlot, hslot]
  · rfl

theorem get?_modify_self : (m.modify key f).get? key = (m.get? key).map f := by
  unfold modify
  split
  · next value hvalue =>
    rw [get?_overwrite_self, hvalue]
    rfl
  · next hnone =>
    rw [hnone]
    rfl

theorem get?_modify :
    (m.modify key f).get? other = if other = key then (m.get? key).map f else m.get? other := by
  by_cases hkey : other = key
  · rw [hkey, if_pos rfl, get?_modify_self]
  rw [if_neg hkey]
  cases hvalue : m.get? key with
  | none => rw [modify, hvalue]
  | some value =>
    rw [modify, hvalue, get?_overwrite, if_neg hkey]
    split
    · next hslot =>
      simp [get?, hslot, slots_of_get? hvalue, Ne.symm hkey]
    · rfl

theorem mem_entries : (key, value) ∈ m.entries ↔ m.get? key = some value := by
  unfold entries
  rw [List.mem_filterMap]
  constructor
  · rintro ⟨i, -, hslot⟩
    have hkey : key % N = i := m.key_mod hslot
    simp [get?, hkey, hslot]
  · intro h
    exact ⟨key % N, List.mem_range.mpr (Nat.mod_lt _ (Nat.pos_of_neZero N)), slots_of_get? h⟩

end CircularMap

end MbmsTx
