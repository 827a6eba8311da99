import Mathlib.Data.Int.Notation
import Mathlib.Data.List.Defs
import Mathlib.Tactic.Common

/-!
# SDUs that were not yet acknowledged

`undelivered_sdus_queue` keeps the SDU with the sequence number `sn` in slot `sn % 4096`. With
longer sequence numbers an SDU replaces another one in its slot, and `count` counts both.
-/

namespace MbmsTx.Pdcp

open Option

/-- `undelivered_sdus_queue`, with its SDUs and their sequence numbers. -/
structure UndeliveredSdus (α : Type*) where
  slots : ℕ → Option (ℕ × α)
  count : ℕ
  fms : ℕ

namespace UndeliveredSdus

def capacity : ℕ := 4096

variable {α : Type*}

/-- A queue without SDUs. -/
def init : UndeliveredSdus α :=
  { slots := fun _ => none
    count := 0
    fms := 0 }

variable (q : UndeliveredSdus α)

/-- The SDU with a sequence number. -/
def get? (sn : ℕ) : Option α :=
  (q.slots (sn % capacity)).bind fun entry => if entry.1 = sn then some entry.2 else none

def hasSdu (sn : ℕ) : Bool := (q.get? sn).isSome

def incrementSn (sn : ℕ) : ℕ := (sn + 1) % capacity

def updateFms : UndeliveredSdus α :=
  if q.count = 0 then { q with fms := incrementSn q.fms }
  else
    let next := (List.range (capacity / 2)).find? fun i => q.hasSdu (incrementSn (q.fms + i))
    { q with
        fms := match next with
          | some i => incrementSn (q.fms + i)
          | none => incrementSn q.fms }

/-- `add_sdu`; `none` where it fails. -/
def addSdu (sn : ℕ) (sdu : α) : Option (UndeliveredSdus α) :=
  if capacity ≤ q.count then none
  else
    let diff : ℤ := (sn : ℤ) - q.fms
    let half : ℤ := capacity / 2
    if q.count ≠ 0 ∧ (half < diff ∨ (diff ≤ 0 ∧ -half < diff)) then none
    else
      some
        { slots := fun i => if i = sn % capacity then some (sn, sdu) else q.slots i
          count := q.count + 1
          fms := if q.count = 0 then sn else q.fms }

def clearSdu (sn : ℕ) : UndeliveredSdus α :=
  if q.hasSdu sn then
    let q' : UndeliveredSdus α :=
      { q with
          slots := fun i => if i = sn % capacity then none else q.slots i
          count := q.count - 1 }
    if sn = q.fms then q'.updateFms else q'
  else q

/-- `pdcp_entity_lte::store_sdu`; `window` is half the number of sequence numbers. -/
def storeSdu (window : ℕ) (sn : ℕ) (sdu : α) : Option (UndeliveredSdus α) :=
  if q.hasSdu sn then none
  else if capacity ≤ q.count then none
  else
    let diff : ℤ := (sn : ℤ) - q.fms
    if q.count ≠ 0 ∧ ((window : ℤ) < diff ∨ (diff < 0 ∧ -(window : ℤ) < diff)) then none
    else q.addSdu sn sdu

/-! ## What is in the slots -/

@[simp] theorem updateFms_slots : q.updateFms.slots = q.slots := by
  unfold updateFms
  split
  · rfl
  · rfl

variable {q} {q' : UndeliveredSdus α} {sn : ℕ} {sdu : α}

theorem slots_of_storeSdu {window : ℕ} (h : q.storeSdu window sn sdu = some q') :
    q'.slots = fun i => if i = sn % capacity then some (sn, sdu) else q.slots i := by
  unfold storeSdu at h
  split at h
  · cases h
  split at h
  · cases h
  dsimp only at h
  split at h
  · cases h
  unfold addSdu at h
  split at h
  · cases h
  dsimp only at h
  split at h
  · cases h
  · rw [← some.inj h]

theorem hasSdu_iff : q.hasSdu sn ↔ ∃ sdu, q.slots (sn % capacity) = some (sn, sdu) := by
  unfold hasSdu get?
  constructor
  · intro h
    obtain ⟨sdu, hsdu⟩ := isSome_iff_exists.mp h
    obtain ⟨⟨key, value⟩, hslot, hkey⟩ := bind_eq_some_iff.mp hsdu
    simp only [ite_none_right_eq_some, some.injEq] at hkey
    exact ⟨value, by rw [hslot, hkey.1]⟩
  · rintro ⟨sdu, hslot⟩
    simp [hslot]

/-- Every SDU is in the slot of its sequence number. -/
def WellFormed (q : UndeliveredSdus α) : Prop :=
  ∀ {i : ℕ} {entry : ℕ × α}, q.slots i = some entry → entry.1 % capacity = i

theorem wellFormed_init : (init : UndeliveredSdus α).WellFormed := by
  intro i entry h
  exact absurd h (by simp [init])

theorem WellFormed.storeSdu (hq : q.WellFormed) {window : ℕ}
    (h : q.storeSdu window sn sdu = some q') : q'.WellFormed := by
  intro i entry hentry
  rw [slots_of_storeSdu h] at hentry
  dsimp only at hentry
  split at hentry
  · rename_i hi
    rw [← some.inj hentry, hi]
  · exact hq hentry

theorem slots_clearSdu_of_hasSdu (h : q.hasSdu sn) (i : ℕ) :
    (q.clearSdu sn).slots i = if i = sn % capacity then none else q.slots i := by
  unfold clearSdu
  rw [if_pos h]
  split
  · simp
  · rfl

theorem WellFormed.slots_clearSdu (hq : q.WellFormed) (sn i : ℕ) :
    (q.clearSdu sn).slots i = (q.slots i).filter fun entry => entry.1 ≠ sn := by
  by_cases hhas : q.hasSdu sn
  · obtain ⟨sdu, hslot⟩ := hasSdu_iff.mp hhas
    rw [slots_clearSdu_of_hasSdu hhas]
    by_cases hi : i = sn % capacity
    · rw [if_pos hi, hi, hslot, filter_some_neg (by simp)]
    rw [if_neg hi]
    cases hentry : q.slots i with
    | none => rfl
    | some entry =>
      have hne : entry.1 ≠ sn := fun h => hi (by rw [← h, hq hentry])
      rw [filter_some_pos (by simp [hne])]
  · rw [clearSdu, if_neg hhas]
    cases hentry : q.slots i with
    | none => rfl
    | some entry =>
      have hne : entry.1 ≠ sn := by
        rintro rfl
        exact hhas (hasSdu_iff.mpr ⟨entry.2, by rw [hq hentry, hentry]⟩)
      rw [filter_some_pos (by simp [hne])]

theorem WellFormed.clearSdu (hq : q.WellFormed) (sn : ℕ) : (q.clearSdu sn).WellFormed := by
  intro i entry hentry
  rw [hq.slots_clearSdu] at hentry
  exact hq (filter_eq_some_iff.mp hentry).1

theorem WellFormed.slots_foldl_clearSdu (hq : q.WellFormed) (sns : List ℕ) (i : ℕ) :
    (sns.foldl UndeliveredSdus.clearSdu q).slots i =
      (q.slots i).filter fun entry => entry.1 ∉ sns := by
  induction sns generalizing q with
  | nil =>
    cases hentry : q.slots i with
    | none | some entry => exact hentry
  | cons sn sns ih =>
    rw [List.foldl_cons, ih (hq.clearSdu sn), hq.slots_clearSdu, filter_filter]
    simp

theorem WellFormed.foldl_clearSdu (hq : q.WellFormed) (sns : List ℕ) :
    (sns.foldl UndeliveredSdus.clearSdu q).WellFormed := by
  intro i entry hentry
  rw [hq.slots_foldl_clearSdu] at hentry
  exact hq (filter_eq_some_iff.mp hentry).1

end UndeliveredSdus

end MbmsTx.Pdcp
