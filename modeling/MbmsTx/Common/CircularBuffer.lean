import MbmsTx.Lib.Transition
import Mathlib.Algebra.Order.Group.Nat

/-!
# The circular buffer behind the SDU queues

`base_circular_buffer` keeps the position of the oldest element and the number of elements. Its
iterators hold a position modulo the capacity, so the two ends of a full buffer are equal and
nothing is visited.
-/

namespace MbmsTx.Common

open MbmsTx.Transition List Function Nat

/-- `base_circular_buffer`, with slots that hold an element or none. -/
structure CircularBuffer (α : Type*) where
  buffer : ℕ → Option α
  maxSize : ℕ
  rpos : ℕ
  count : ℕ

namespace CircularBuffer

variable {α : Type*}

/-- A buffer without elements. -/
def init (maxSize : ℕ) : CircularBuffer α := ⟨fun _ => none, maxSize, 0, 0⟩

variable (b : CircularBuffer α)

def full : Prop := b.count = b.maxSize

instance : Decidable b.full := inferInstanceAs (Decidable (_ = _))

/-- `push`; the assertion fails on a full buffer. -/
def push (x : α) : Option (CircularBuffer α) :=
  if b.full then none
  else
    some
      { b with
          buffer := update b.buffer ((b.rpos + b.count) % b.maxSize) (some x)
          count := b.count + 1 }

/-- `pop`; the assertion fails on an empty buffer. -/
def pop : Option (CircularBuffer α) :=
  if b.count = 0 then none
  else
    some
      { b with
          buffer := update b.buffer b.rpos none
          rpos := (b.rpos + 1) % b.maxSize
          count := b.count - 1 }

def clear : CircularBuffer α :=
  { b with
      buffer := (List.range b.count).foldl
        (fun buffer i => update buffer ((b.rpos + i) % b.maxSize) none) b.buffer
      count := 0 }

/-- The loop of `apply_first` from a position: the elements visited and the result. It ends within a
round over the slots, or not at all; a remainder by 0 has no result either. -/
def visit (func : α → Bool) : (fuel idx : ℕ) → Option (List α × Bool)
  | 0, _ => none
  | fuel + 1, idx =>
    if idx = (b.rpos + b.count) % b.maxSize then some ([], false)
    else
      (b.buffer idx).bind fun x =>
        if func x then some ([x], true)
        else
          (visit func fuel ((idx + 1) % b.maxSize)).map fun rest => (x :: rest.1, rest.2)

def applyFirst (func : α → Bool) : Option Bool := (b.visit func b.maxSize b.rpos).map Prod.snd

/-- The elements from `begin` to `end`. -/
def elements : Option (List α) := (b.visit (fun _ => false) b.maxSize b.rpos).map Prod.fst

/-- The buffer holds these elements, the oldest first. -/
structure Holds (l : List α) : Prop where
  count : b.count = l.length
  room : l.length ≤ b.maxSize
  rpos : b.rpos < max b.maxSize 1
  slot : ∀ i x, l[i]? = some x → b.buffer ((b.rpos + i) % b.maxSize) = some x

variable {b}

theorem add_mod_ne {r i j m : ℕ} (hij : i < j) (hj : j < i + m) : (r + i) % m ≠ (r + j) % m := by
  intro heq
  have hzero := sub_mod_eq_zero_of_mod_eq heq.symm
  rw [mod_eq_of_lt (by omega)] at hzero
  omega

theorem Holds.push {l : List α} (h : b.Holds l) {x : α} {b' : CircularBuffer α}
    (hpush : b.push x = some b') : b'.Holds (l ++ [x]) := by
  unfold CircularBuffer.push at hpush
  split at hpush
  · cases hpush
  rename_i hfull
  have hroom : l.length < b.maxSize := by
    have hle := h.room
    have hne : l.length ≠ b.maxSize := fun heq => hfull (h.count.trans heq)
    omega
  cases hpush
  refine ⟨by simp [h.count], by rw [length_append]; exact hroom, h.rpos, ?_⟩
  intro i y hy
  dsimp only
  rw [h.count]
  rcases lt_trichotomy i l.length with hlt | rfl | hgt
  · rw [update_of_ne (add_mod_ne hlt (by omega))]
    rw [getElem?_append_left hlt] at hy
    exact h.slot i y hy
  · rw [getElem?_concat_length] at hy
    rw [update_self, hy]
  · rw [getElem?_eq_none (by rw [length_append]; exact hgt)] at hy
    cases hy

theorem Holds.pop {l : List α} (h : b.Holds l) {b' : CircularBuffer α} (hpop : b.pop = some b') :
    b'.Holds l.tail := by
  unfold CircularBuffer.pop at hpop
  split at hpop
  · cases hpop
  cases hpop
  have hcount := h.count
  have hroom := h.room
  have hrpos := h.rpos
  refine ⟨by simp [hcount], by simp; omega, lt_of_lt_of_le (mod_lt _ (by omega))
    (le_max_left _ _), ?_⟩
  intro i y hy
  rw [getElem?_tail] at hy
  have hlt : i + 1 < l.length := (List.getElem?_eq_some_iff.mp hy).1
  have hne := @add_mod_ne b.rpos 0 (i + 1) b.maxSize (succ_pos i) (by omega)
  rw [add_zero, mod_eq_of_lt (by omega)] at hne
  dsimp only
  rw [mod_add_mod, add_assoc, add_comm 1, update_of_ne hne.symm]
  exact h.slot _ y hy

/-- From the element `k` on to the end of a buffer that is not full. -/
theorem Holds.visit {l : List α} (h : b.Holds l) (hfull : l.length < b.maxSize) (func : α → Bool)
    {fuel k : ℕ} (hk : k ≤ l.length) (hfuel : l.length - k < fuel) :
    ∃ xs, b.visit func fuel ((b.rpos + k) % b.maxSize) = some (xs, (l.drop k).any func) ∧
      ((l.drop k).any func = false → xs = l.drop k) := by
  induction fuel generalizing k with
  | zero => omega
  | succ fuel ih =>
    rw [CircularBuffer.visit, h.count]
    rcases eq_or_lt_of_le hk with rfl | hlt
    · simp
    have hslot := h.slot k _ (getElem?_eq_getElem hlt)
    rw [if_neg (add_mod_ne hlt (by omega)), hslot, drop_eq_getElem_cons hlt, Option.bind_some,
      any_cons]
    cases hx : func l[k] with
    | true => simp
    | false =>
      obtain ⟨xs, hvisit, hxs⟩ := ih (succ_le_of_lt hlt) (by omega)
      rw [mod_add_mod, add_assoc, hvisit]
      refine ⟨_, rfl, fun hnone => ?_⟩
      rw [hxs (by simpa using hnone)]

end CircularBuffer

/-- What is done to a buffer. -/
inductive BufferAction (α : Type*)
  | push (x : α)
  | tryPush (x : α)
  | pop
  | clear

variable {α : Type*}

/-- The runs of a buffer, with the elements pushed and not popped since. -/
def bufferSystem (maxSize : ℕ) : System (CircularBuffer α × List α) (BufferAction α) where
  Init s := s = (.init maxSize, [])
  step s
    | .push x => (s.1.push x).map fun b => (b, s.2 ++ [x])
    | .tryPush x => if s.1.full then some s else (s.1.push x).map fun b => (b, s.2 ++ [x])
    | .pop => s.1.pop.map fun b => (b, s.2.tail)
    | .clear => some (s.1.clear, [])

/-- Iterating visits the elements once each in the order of their pushes, and so does `apply_first`
until its function returns true. -/
def VisitsStored (b : CircularBuffer α) (stored : List α) : Prop :=
  b.elements = some stored ∧ b.count = stored.length ∧
    ∀ func, b.applyFirst func = some (stored.any func)

theorem holds_of_reachable {maxSize : ℕ} {s : CircularBuffer α × List α}
    (h : (bufferSystem maxSize).Reachable s) : s.1.Holds s.2 := by
  refine h.invariant (fun s => s.1.Holds s.2) ?_ ?_
  · rintro s rfl
    exact ⟨rfl, zero_le _, by simp [CircularBuffer.init], by simp⟩
  · intro s a s' hs hstep
    cases a with
    | push x =>
      obtain ⟨b, hb, rfl⟩ := Option.map_eq_some_iff.mp hstep
      exact hs.push hb
    | tryPush x =>
      simp only [bufferSystem] at hstep
      split at hstep
      · cases hstep
        exact hs
      · obtain ⟨b, hb, rfl⟩ := Option.map_eq_some_iff.mp hstep
        exact hs.push hb
    | pop =>
      obtain ⟨b, hb, rfl⟩ := Option.map_eq_some_iff.mp hstep
      exact hs.pop hb
    | clear =>
      cases hstep
      exact ⟨rfl, zero_le _, hs.rpos, by simp⟩

/-- In every run the elements are visited exactly if the buffer is not full. -/
theorem visitsStored_iff {maxSize : ℕ} {b : CircularBuffer α} {stored : List α}
    (h : (bufferSystem maxSize).Reachable (b, stored)) : VisitsStored b stored ↔ ¬ b.full := by
  have hs : b.Holds stored := holds_of_reachable h
  have hrpos := hs.rpos
  have hcount := hs.count
  have hroom := hs.room
  unfold CircularBuffer.full
  constructor
  · rintro ⟨helements, -, -⟩ hfull
    cases hsize : b.maxSize with
    | zero =>
      rw [CircularBuffer.elements, hsize] at helements
      cases helements
    | succ n =>
      -- the two ends are the same position
      rw [CircularBuffer.elements, hsize, CircularBuffer.visit, hfull, add_mod_right,
        mod_eq_of_lt (by omega), if_pos rfl] at helements
      cases helements
      rw [length_nil] at hcount
      omega
  · intro hfull
    have hvisit : ∀ func, ∃ xs, b.visit func b.maxSize b.rpos = some (xs, stored.any func) ∧
        (stored.any func = false → xs = stored) := by
      intro func
      have hstart := hs.visit (by omega) func (zero_le _) (by omega : _ < b.maxSize)
      rw [add_zero, mod_eq_of_lt (by omega)] at hstart
      exact hstart
    refine ⟨?_, hcount, fun func => ?_⟩
    · obtain ⟨xs, hxs, heq⟩ := hvisit fun _ => false
      rw [CircularBuffer.elements, hxs, heq (by simp)]
      rfl
    · obtain ⟨xs, hxs, -⟩ := hvisit func
      rw [CircularBuffer.applyFirst, hxs]
      rfl

/-- A buffer of three slots after a pop. -/
theorem visitsStored_after_pop :
    ∃ b : CircularBuffer ℕ, (bufferSystem 3).Reachable (b, [2, 3]) ∧ VisitsStored b [2, 3] := by
  have h : (bufferSystem 3).Reachable (_, [2, 3]) :=
    .step (.step (.step (.step (.init rfl) (a := .push 1) rfl) (a := .push 2) rfl) (a := .pop) rfl)
      (a := .tryPush 3) rfl
  exact ⟨_, h, (visitsStored_iff h).mpr (by decide)⟩

/-- A full buffer of two slots: no element is visited or found. -/
theorem not_visitsStored_full :
    ∃ b : CircularBuffer ℕ, (bufferSystem 2).Reachable (b, [5, 6]) ∧ b.elements = some [] ∧
      b.applyFirst (· == 5) = some false ∧ ¬ VisitsStored b [5, 6] := by
  refine ⟨_, .step (.step (.init rfl) (a := .push 5) rfl) (a := .push 6) rfl, rfl, rfl, ?_⟩
  rintro ⟨helements, -, -⟩
  cases helements

end MbmsTx.Common
