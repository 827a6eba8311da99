import MbmsTx.Lib.Blocks
import MbmsTx.Lib.Gaps

/-!
# The circular buffer of turbo rate matching

The three streams of a turbo code block are written, each behind the same number of dummy bits, row
by row into matrices that are read column by column, with the columns permuted; the second parity
stream is read one position further. The circular buffer holds the first stream, and then the others
by turns. Without the dummy bits it has every coded bit once (`perm_slots`).

Coded bits are numbered in the interlaced order of the decoder.
-/

namespace MbmsTx.Phy.Fec

open Blocks Gaps Option Nat

/-- The matrices of a code block. -/
structure SubBlock where
  nrows : ℕ
  ncols : ℕ
  perm : ℕ → ℕ
  ndummy : ℕ
  selfInverse : SelfInverse ncols perm
  ndummy_lt : ndummy < ncols * nrows

namespace SubBlock

variable (b : SubBlock)

/-- The number of cells of a matrix. -/
def size : ℕ := b.ncols * b.nrows

/-- The number of bits of a stream. -/
def len : ℕ := b.size - b.ndummy

theorem len_add_ndummy : b.len + b.ndummy = b.size := Nat.sub_add_cancel b.ndummy_lt.le

theorem size_pos : 0 < b.size := zero_lt_of_lt b.ndummy_lt

/-- The bit of a stream in a cell, if it is not a dummy. -/
def kept (v : ℕ) : Option ℕ := if b.ndummy ≤ v then some (v - b.ndummy) else none

variable {v : ℕ}

theorem kept_eq_some {n : ℕ} : b.kept v = some n ↔ v = n + b.ndummy := by
  rw [kept]
  split
  · rw [some.injEq]
    omega
  · constructor
    · simp
    omega

theorem isNone_kept (v : ℕ) : (b.kept v).isNone = decide (v < b.ndummy) := by
  rw [kept]
  split
  · rw [isNone_some, decide_eq_false (by omega)]
  · rw [isNone_none, decide_eq_true (by omega)]

/-- The cell that is read as number `p`. -/
def read (p : ℕ) : ℕ := columnwise b.nrows b.ncols b.perm p

/-- When a cell is read. -/
def turn (v : ℕ) : ℕ := Blocks.turn b.nrows b.ncols b.perm v

variable {p : ℕ}

theorem read_lt (hp : p < b.size) : b.read p < b.size := by
  rw [size, Nat.mul_comm]
  exact columnwise_lt b.selfInverse hp

theorem turn_lt (hv : v < b.size) : b.turn v < b.size := by
  rw [size, Nat.mul_comm] at hv
  exact Blocks.turn_lt b.selfInverse hv

theorem read_turn (hv : v < b.size) : b.read (b.turn v) = v := by
  rw [size, Nat.mul_comm] at hv
  exact columnwise_turn b.selfInverse hv

theorem turn_read (hp : p < b.size) : b.turn (b.read p) = p :=
  turn_columnwise b.selfInverse hp

/-- The next cell, around the matrix. -/
def next (v : ℕ) : ℕ := (v + 1) % b.size

/-- The cell in front of a cell, around the matrix. -/
def prev (v : ℕ) : ℕ := (v + b.size - 1) % b.size

theorem prev_lt (v : ℕ) : b.prev v < b.size := Nat.mod_lt _ b.size_pos

theorem next_prev (hv : v < b.size) : b.next (b.prev v) = v := by
  have hpos := b.size_pos
  rw [next, prev]
  rcases Nat.eq_zero_or_pos v with rfl | hv0
  · rw [Nat.zero_add, mod_eq_of_lt (by omega : b.size - 1 < b.size), Nat.sub_add_cancel hpos,
      mod_self]
  · have hback : v + b.size - 1 = v - 1 + b.size := by omega
    rw [hback, add_mod_right, mod_eq_of_lt (by omega : v - 1 < b.size),
      Nat.sub_add_cancel hv0, mod_eq_of_lt hv]

theorem prev_next (hv : v < b.size) : b.prev (b.next v) = v := by
  rw [prev, next]
  rcases Nat.lt_or_eq_of_le (succ_le_of_lt hv) with hlt | hlast
  · have hback : v + 1 + b.size - 1 = v + b.size := by omega
    rw [mod_eq_of_lt hlt, hback, add_mod_right, mod_eq_of_lt hv]
  · have hlast : v + 1 = b.size := hlast
    rw [hlast, mod_self, Nat.zero_add, mod_eq_of_lt (by omega)]
    omega

/-! ## Slots of the buffer -/

/-- The cell in a slot of the buffer. -/
def cell (p : ℕ) : ℕ :=
  if p < b.size then b.read p
  else if (p - b.size) % 2 = 0 then b.read ((p - b.size) / 2)
  else b.next (b.read ((p - b.size) / 2))

/-- The stream that a slot belongs to. -/
def stream (p : ℕ) : ℕ := if p < b.size then 0 else (p - b.size) % 2 + 1

/-- The slot of a cell of a stream. -/
def place (j v : ℕ) : ℕ :=
  if j = 0 then b.turn v
  else if j = 1 then b.size + 2 * b.turn v
  else b.size + 2 * b.turn (b.prev v) + 1

theorem cell_of_lt (hp : p < b.size) : b.cell p = b.read p := if_pos hp

variable (m : ℕ)

theorem cell_even : b.cell (b.size + 2 * m) = b.read m := by
  have hhalf : (b.size + 2 * m - b.size) / 2 = m := by omega
  rw [cell, if_neg (by omega), if_pos (by omega), hhalf]

theorem cell_odd : b.cell (b.size + 2 * m + 1) = b.next (b.read m) := by
  have hhalf : (b.size + 2 * m + 1 - b.size) / 2 = m := by omega
  rw [cell, if_neg (by omega), if_neg (by omega), hhalf]

theorem stream_of_lt (hp : p < b.size) : b.stream p = 0 := if_pos hp

theorem stream_even : b.stream (b.size + 2 * m) = 1 := by
  rw [stream, if_neg (by omega)]
  omega

theorem stream_odd : b.stream (b.size + 2 * m + 1) = 2 := by
  rw [stream, if_neg (by omega)]
  omega

theorem slot_cases (hp : p < 3 * b.size) :
    p < b.size ∨ (∃ m < b.size, p = b.size + 2 * m) ∨ ∃ m < b.size, p = b.size + 2 * m + 1 := by
  rcases lt_or_ge p b.size with hlt | hge
  · omega
  · rcases mod_two_eq_zero_or_one (p - b.size) with heven | hodd
    · exact .inr (.inl ⟨(p - b.size) / 2, by omega, by omega⟩)
    · exact .inr (.inr ⟨(p - b.size) / 2, by omega, by omega⟩)

theorem cell_lt (hp : p < 3 * b.size) : b.cell p < b.size := by
  rcases b.slot_cases hp with hlt | ⟨m, hm, rfl⟩ | ⟨m, hm, rfl⟩
  · rw [b.cell_of_lt hlt]
    exact b.read_lt hlt
  · rw [b.cell_even]
    exact b.read_lt hm
  · rw [b.cell_odd]
    exact Nat.mod_lt _ b.size_pos

theorem stream_lt (p : ℕ) : b.stream p < 3 := by
  rw [stream]
  split <;> omega

theorem place_spec {j : ℕ} (hj : j < 3) (hv : v < b.size) :
    b.place j v < 3 * b.size ∧ b.cell (b.place j v) = v ∧ b.stream (b.place j v) = j := by
  have hturn := b.turn_lt hv
  obtain rfl | rfl | rfl : j = 0 ∨ j = 1 ∨ j = 2 := by omega
  · have hplace : b.place 0 v = b.turn v := rfl
    refine ⟨by omega, ?_, ?_⟩
    · rw [hplace, b.cell_of_lt hturn, b.read_turn hv]
    · rw [hplace, b.stream_of_lt hturn]
  · have hplace : b.place 1 v = b.size + 2 * b.turn v := rfl
    refine ⟨by omega, ?_, ?_⟩
    · rw [hplace, b.cell_even, b.read_turn hv]
    · rw [hplace, b.stream_even]
  · have hplace : b.place 2 v = b.size + 2 * b.turn (b.prev v) + 1 := rfl
    have hprev := b.turn_lt (b.prev_lt v)
    refine ⟨by omega, ?_, ?_⟩
    · rw [hplace, b.cell_odd, b.read_turn (b.prev_lt v), b.next_prev hv]
    · rw [hplace, b.stream_odd]

theorem place_cell (hp : p < 3 * b.size) : b.place (b.stream p) (b.cell p) = p := by
  rcases b.slot_cases hp with hlt | ⟨m, hm, rfl⟩ | ⟨m, hm, rfl⟩
  · rw [b.stream_of_lt hlt, b.cell_of_lt hlt]
    exact b.turn_read hlt
  · rw [b.stream_even, b.cell_even]
    exact congrArg (fun t => b.size + 2 * t) (b.turn_read hm)
  · rw [b.stream_odd, b.cell_odd]
    have hplace : b.place 2 (b.next (b.read m)) =
        b.size + 2 * b.turn (b.prev (b.next (b.read m))) + 1 := rfl
    rw [hplace, b.prev_next (b.read_lt hm), b.turn_read hm]

/-! ## The content of the buffer -/

/-- The coded bit in a slot, if it is not a dummy. -/
def slot (p : ℕ) : Option ℕ := (b.kept (b.cell p)).map fun n => 3 * n + b.stream p

/-- The slot of a coded bit. -/
def slotOf (idx : ℕ) : ℕ := b.place (idx % 3) (idx / 3 + b.ndummy)

theorem slot_slotOf (idx : ℕ) (hidx : idx < 3 * b.len) :
    b.slotOf idx < 3 * b.size ∧ b.slot (b.slotOf idx) = some idx := by
  have hlen := b.len_add_ndummy
  obtain ⟨hlt, hcell, hstream⟩ :=
    b.place_spec (Nat.mod_lt idx (by decide)) (by omega : idx / 3 + b.ndummy < b.size)
  refine ⟨hlt, ?_⟩
  rw [slot, slotOf, hcell, hstream, b.kept_eq_some.mpr rfl, map_some, div_add_mod]

theorem slotOf_of_slot {idx : ℕ} (hp : p < 3 * b.size) (h : b.slot p = some idx) :
    idx < 3 * b.len ∧ b.slotOf idx = p := by
  have hlen := b.len_add_ndummy
  have hcell := b.cell_lt hp
  have hstream := b.stream_lt p
  obtain ⟨n, hn, rfl⟩ := map_eq_some_iff.mp h
  rw [b.kept_eq_some] at hn
  have hdiv : (3 * n + b.stream p) / 3 = n := by omega
  have hmod : (3 * n + b.stream p) % 3 = b.stream p := by omega
  refine ⟨by omega, ?_⟩
  rw [slotOf, hdiv, hmod, ← hn, b.place_cell hp]

theorem perm_slots : (compact b.slot (3 * b.size)).Perm (List.range (3 * b.len)) :=
  perm_compact b.slotOf (fun _ hidx => b.slot_slotOf _ hidx) (fun _ hp _ h => b.slotOf_of_slot hp h)

theorem rank_slots : rank b.slot (3 * b.size) = 3 * b.len := by
  rw [rank, b.perm_slots.length_eq, List.length_range]

/-- The bits of the first stream, in the order of the buffer. -/
def systematic (p : ℕ) : Option ℕ := b.kept (b.read p)

/-- The bits of the other two streams, the second behind the first. -/
def parity (m : ℕ) : Option ℕ :=
  if m % 2 = 0 then b.kept (b.read (m / 2))
  else (b.kept (b.next (b.read (m / 2)))).map (· + b.len)

theorem slot_systematic (hp : p < b.size) : b.slot p = (b.systematic p).map (3 * ·) := by
  rw [slot, b.cell_of_lt hp, b.stream_of_lt hp, systematic]
  rfl

theorem parity_even : b.parity (2 * m) = b.kept (b.read m) := by
  have hhalf : 2 * m / 2 = m := by omega
  rw [parity, if_pos (by omega), hhalf]

theorem parity_odd : b.parity (2 * m + 1) = (b.kept (b.next (b.read m))).map (· + b.len) := by
  have hhalf : (2 * m + 1) / 2 = m := by omega
  rw [parity, if_neg (by omega), hhalf]

theorem isNone_slot_parity : (b.slot (b.size + m)).isNone = (b.parity m).isNone := by
  rw [slot, isNone_map]
  obtain ⟨n, rfl | rfl⟩ : ∃ n, m = 2 * n ∨ m = 2 * n + 1 := ⟨m / 2, by omega⟩
  · rw [b.cell_even, b.parity_even]
  · rw [← Nat.add_assoc, b.cell_odd, b.parity_odd, isNone_map]

theorem perm_systematic : (compact b.systematic b.size).Perm (List.range b.len) := by
  have hlen := b.len_add_ndummy
  refine perm_compact (fun n => b.turn (n + b.ndummy)) ?_ ?_
  · intro n hn
    have hv : n + b.ndummy < b.size := by omega
    refine ⟨b.turn_lt hv, ?_⟩
    rw [systematic, b.read_turn hv, b.kept_eq_some]
  · intro p hp n h
    have hread := b.read_lt hp
    rw [systematic, b.kept_eq_some] at h
    refine ⟨by omega, ?_⟩
    rw [← h, b.turn_read hp]

theorem rank_size : rank b.slot b.size = b.len := by
  rw [rank, compact_congr fun p hp => b.slot_systematic hp, compact_map, List.length_map,
    b.perm_systematic.length_eq, List.length_range]

end SubBlock

end MbmsTx.Phy.Fec
