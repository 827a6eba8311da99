import MbmsTx.Lib.Memory
import MbmsTx.Phy.Fec.SubBlock

/-!
# The tables of turbo rate matching

The transmitter of `rm_turbo.c` keeps the coded bits without the dummies and looks for the entry
that each redundancy version starts at; the receiver walks around the whole circular buffer, skips
the dummies, and looks up which coded bit is in each slot. The transmitter's tables are the content
of the two parts of the circular buffer (`gentables_eq`), and the receiver's table is the whole
content from the start of the redundancy version on (`gentableReceive_eq`).
-/

namespace MbmsTx.Phy.Fec

open Blocks Gaps Option Nat List Function

/-! ## The functions of the source -/

def ncols : ℕ := 32

def rmPermTc (j : ℕ) : ℕ :=
  [0, 16, 8, 24, 4, 20, 12, 28, 2, 18, 10, 26, 6, 22, 14, 30,
   1, 17, 9, 25, 5, 21, 13, 29, 3, 19, 11, 27, 7, 23, 15, 31].getD j 0

/-- The number of rows for streams of a third of `inLen` bits. -/
def rmNrows (inLen : ℕ) : ℕ := (inLen / 3 - 1) / ncols + 1

/-- The number of dummies in front of a stream. -/
def rmNdummy (inLen : ℕ) : ℕ := rmNrows inLen * ncols - inLen / 3

/-- The start of a redundancy version, with `ceilf` of the exact quotient. -/
def rmK0 (nrows rvIdx : ℕ) : ℕ :=
  let ceil := (3 * (nrows * ncols) + (8 * nrows - 1)) / (8 * nrows)
  nrows * (2 * (ceil % 65536) * rvIdx + 2)

/-- A table of the transmitter while it is generated, and `k0_vec[k][1]`: the entries that the
redundancy versions start at, as far as found. -/
structure Gentable where
  table : List ℕ
  start : ℕ → Option ℕ

/-- For each cell of a matrix: the entry is appended, unless the cell holds a dummy, and it is the
start of the redundancy versions whose slot is reached. -/
def Gentable.cell (g : Gentable) (k0 : ℕ → ℕ) (nCb offset buffIdx : ℕ) (entry : Option ℕ) :
    Gentable :=
  let table := g.table ++ entry.toList
  let lastIsNull := entry.isNone
  { table := table
    start := (range 4).foldl (fun start k =>
      if start k = none then
        if k0 k % nCb ≤ buffIdx ∧ lastIsNull = false then
          update start k (some (offset + table.length - 1))
        else start
      else start) g.start }

/-- The entry for a value of the matrix. -/
def rmEntry (ndummy v : ℕ) : Option ℕ := if ndummy ≤ v then some (v - ndummy) else none

/-- `srsran_rm_turbo_gentable_systematic`; the second component is `buff_idx`. -/
def gentableSystematic (k0 : ℕ → ℕ) (start : ℕ → Option ℕ) (nrows ndummy : ℕ) : Gentable × ℕ :=
  (range ncols).foldl (fun s j => (range nrows).foldl (fun s i =>
    (s.1.cell k0 (3 * nrows * ncols) 0 s.2 (rmEntry ndummy (i * ncols + rmPermTc j)), s.2 + 1)) s)
    (⟨[], start⟩, 0)

/-- `srsran_rm_turbo_gentable_parity`, with `buff_idx0` and `buff_idx1`. -/
def gentableParity (k0 : ℕ → ℕ) (start : ℕ → Option ℕ) (offset nrows ndummy : ℕ) :
    Gentable × ℕ × ℕ :=
  let kp := nrows * ncols
  (range ncols).foldl (fun s j => (range nrows).foldl (fun s i =>
    let (g, buffIdx0, buffIdx1) := s
    let g := g.cell k0 (3 * kp) offset (2 * buffIdx0 + kp) (rmEntry ndummy (i * ncols + rmPermTc j))
    let kidx := (rmPermTc (buffIdx1 / nrows) + ncols * (buffIdx1 % nrows) + 1) % kp
    let g := g.cell k0 (3 * kp) offset (2 * buffIdx1 + 1 + kp)
      ((rmEntry ndummy kidx).map (· + offset))
    (g, buffIdx0 + 1, buffIdx1 + 1)) s)
    (⟨[], start⟩, 0, 0)

/-- The tables of the transmitter for one code block size. -/
structure RmTables where
  systematicBits : List ℕ
  parityBits : List ℕ
  k0Start : ℕ → Option ℕ

/-- `srsran_rm_turbo_gentables`, for one code block size. -/
def gentables (inLen : ℕ) : RmTables :=
  let nrows := rmNrows inLen
  let ndummy := rmNdummy inLen
  let systematic := (gentableSystematic (rmK0 nrows) (fun _ => none) nrows ndummy).1
  let parity := (gentableParity (rmK0 nrows) systematic.start (inLen / 3) nrows ndummy).1
  { systematicBits := systematic.table, parityBits := parity.table, k0Start := parity.start }

/-- The test of a slot in `srsran_rm_turbo_gentable_receive`. -/
def rmIsDummy (nrows ndummy jp : ℕ) : Bool :=
  let kp := nrows * ncols
  if jp < kp ∨ jp % 2 = 0 then
    let q := if kp ≤ jp then (jp - kp) / 2 else jp
    let di := q / nrows
    let dj := q % nrows
    if ndummy ≤ dj * ncols + rmPermTc di then
      decide (((dj * ncols + rmPermTc di : ℕ) : ℤ) - ndummy < 0)
    else true
  else
    let jpp := (jp - kp - 1) / 2
    let kidx := (rmPermTc (jpp / nrows) + ncols * (jpp % nrows) + 1) % kp
    decide ((kidx : ℤ) - ndummy < 0)

/-- The loop of `srsran_rm_turbo_gentable_receive` that fills `temp_table1` with as many entries as
there are coded bits. -/
def receiveLoop (nrows ndummy k0 cbLen : ℕ) : ℕ → ℕ → List ℕ → Option (List ℕ)
  | 0, _, tempTable1 => if tempTable1.length < cbLen then none else some tempTable1
  | fuel + 1, j, tempTable1 =>
    if tempTable1.length < cbLen then
      let jp := (k0 + j) % (3 * nrows * ncols)
      receiveLoop nrows ndummy k0 cbLen fuel (j + 1)
        (if rmIsDummy nrows ndummy jp then tempTable1
          else tempTable1 ++ [jp % (3 * nrows * ncols)])
    else some tempTable1

/-- The slot of a bit, as `srsran_rm_turbo_gentable_receive` computes it. -/
def receiveSlot (nrows ndummy i j : ℕ) : ℕ :=
  let kp := nrows * ncols
  let di := (i + ndummy) / ncols
  let dj := (i + ndummy) % ncols
  if j ≠ 2 then kp * j + (j + 1) * (rmPermTc dj * nrows + di)
  else
    let k : ℤ := ((i : ℤ) + ndummy - 1).tmod kp
    let k := (if k < 0 then k + kp else k).toNat
    2 * ((k / ncols + nrows * rmPermTc (k % ncols)) % kp) + kp + 1

/-- The loop that fills `temp_table2`. -/
def receiveTable2 (nrows ndummy cbLen : ℕ) (tempTable2 : ℕ → ℕ) : ℕ → ℕ :=
  (range (cbLen / 3)).foldl (fun temp i => (range 3).foldl (fun temp j =>
    update temp (receiveSlot nrows ndummy i j) (3 * i + j)) temp) tempTable2

/-- `srsran_rm_turbo_gentable_receive` over an old `temp_table2`. -/
def gentableReceive (tempTable2 : ℕ → ℕ) (cbLen rvIdx : ℕ) : Option (List ℕ) := do
  let nrows := rmNrows cbLen
  let ndummy := rmNdummy cbLen
  let tempTable1 ← receiveLoop nrows ndummy (rmK0 nrows rvIdx) cbLen (3 * nrows * ncols) 0 []
  let tempTable2 := receiveTable2 nrows ndummy cbLen tempTable2
  some (tempTable1.map tempTable2)

/-! ## The circular buffer -/

/-- The matrices for streams of `d` bits. -/
def rmSubBlock (d : ℕ) (hd : 0 < d) : SubBlock where
  nrows := rmNrows (3 * d)
  ncols := ncols
  perm := rmPermTc
  ndummy := rmNdummy (3 * d)
  selfInverse := ⟨by decide, by decide⟩
  ndummy_lt := by
    rw [rmNdummy, Nat.mul_comm ncols, rmNrows, ncols]
    omega

section Tables

variable {d nrows rv j : ℕ} (hd : 0 < d)

theorem rmSubBlock_len : (rmSubBlock d hd).len = d := by
  have hnrows : (rmSubBlock d hd).size = ncols * rmNrows (3 * d) := rfl
  have hndummy : (rmSubBlock d hd).ndummy = rmNdummy (3 * d) := rfl
  rw [SubBlock.len, hnrows, hndummy, rmNdummy, rmNrows, ncols]
  omega

/-- The quotient under `ceilf` is a whole number. -/
theorem rmK0_eq (hnrows : 0 < nrows) (rv : ℕ) : rmK0 nrows rv = nrows * (24 * rv + 2) := by
  have hceil : (3 * (nrows * ncols) + (8 * nrows - 1)) / (8 * nrows) = 12 := by
    rw [ncols]
    refine Nat.div_eq_of_lt_le ?_ ?_ <;> omega
  rw [rmK0, hceil]

theorem rmK0_lt (hnrows : 0 < nrows) (hrv : rv < 4) : rmK0 nrows rv < 3 * (ncols * nrows) - 1 := by
  have hle : nrows * (24 * rv + 2) ≤ nrows * 74 := Nat.mul_le_mul_left nrows (by omega)
  rw [rmK0_eq hnrows, ncols]
  omega

/-! ## The tables of the transmitter -/

theorem cell_start (g : Gentable) (k0 : ℕ → ℕ) (nCb offset buffIdx : ℕ) (entry : Option ℕ) {k : ℕ}
    (hk : k < 4) :
    (g.cell k0 nCb offset buffIdx entry).start k =
      if g.start k = none ∧ k0 k % nCb ≤ buffIdx ∧ entry.isNone = false then
        some (offset + (g.table ++ entry.toList).length - 1)
      else g.start k := by
  have hloop := Memory.foldl_update_range (fun k found =>
    if found = none ∧ k0 k % nCb ≤ buffIdx ∧ entry.isNone = false then
      some (offset + (g.table ++ entry.toList).length - 1)
    else found) g.start 4 k
  rw [if_pos hk] at hloop
  rw [← hloop, Gentable.cell]
  dsimp only
  refine congrFun (congrArg (fun step => (range 4).foldl step g.start) ?_) k
  funext start k
  by_cases hnone : start k = none
  · by_cases hreached : k0 k % nCb ≤ buffIdx ∧ entry.isNone = false
    · rw [if_pos hnone, if_pos hreached, if_pos ⟨hnone, hreached⟩]
    · rw [if_pos hnone, if_neg hreached, if_neg fun h => hreached h.2, update_eq_self]
  · rw [if_neg hnone, if_neg fun h => hnone h.1, update_eq_self]

/-- A table of the transmitter when `m` of its cells are done: `f` are the slots of the circular
buffer, and `t` the entries, for the slots from `base` on. -/
structure Scanned (f t : ℕ → Option ℕ) (k0 : ℕ → ℕ) (base offset m : ℕ) (g : Gentable) : Prop where
  table : g.table = compact t m
  rank : rank f (base + m) = offset + rank t m
  start : ∀ k < 4, g.start k = found f (k0 k) (base + m)

theorem Scanned.cell {f t : ℕ → Option ℕ} {k0 : ℕ → ℕ} {base offset m : ℕ} {g : Gentable}
    (h : Scanned f t k0 base offset m g) (nCb : ℕ) (hnull : (f (base + m)).isNone = (t m).isNone)
    (hk0 : ∀ k < 4, k0 k < nCb) :
    Scanned f t k0 base offset (m + 1) (g.cell k0 nCb offset (base + m) (t m)) := by
  have htable : g.table ++ (t m).toList = compact t (m + 1) := by
    rw [h.table, compact_succ]
  have hrank := h.rank
  have hlength : (compact t (m + 1)).length = Gaps.rank t (m + 1) := rfl
  cases ht : t m with
  | none =>
    have hf : f (base + m) = none := by
      rw [ht] at hnull
      exact isNone_iff_eq_none.mp hnull
    rw [ht] at htable
    refine ⟨htable, ?_, ?_⟩
    · rw [← Nat.add_assoc, rank_succ_of_none hf, rank_succ_of_none ht, hrank]
    · intro k hk
      rw [cell_start _ _ _ _ _ _ hk, if_neg (by simp), h.start k hk, ← Nat.add_assoc,
        found, found, rank_succ_of_none hf]
  | some a =>
    obtain ⟨c, hf⟩ : ∃ c, f (base + m) = some c := by
      refine ne_none_iff_exists'.mp fun hf => ?_
      rw [ht, hf] at hnull
      cases hnull
    have hsucc := rank_succ_of_some ht
    rw [ht] at htable
    refine ⟨htable, ?_, ?_⟩
    · rw [← Nat.add_assoc, rank_succ_of_some hf, hsucc]
      omega
    · intro k hk
      have hvalue : offset + Gaps.rank t (m + 1) - 1 = Gaps.rank f (base + m) := by omega
      rw [cell_start _ _ _ _ _ _ hk, htable, hlength, hvalue, mod_eq_of_lt (hk0 k hk),
        h.start k hk, ← Nat.add_assoc, found_succ_of_some hf]
      simp

theorem rmNrows_pos (inLen : ℕ) : 0 < rmNrows inLen := succ_pos _

theorem rmSubBlock_size : (rmSubBlock d hd).size = ncols * rmNrows (3 * d) := rfl

theorem three_mul_rmSubBlock_size : 3 * rmNrows (3 * d) * ncols = 3 * (rmSubBlock d hd).size := by
  rw [rmSubBlock_size, Nat.mul_assoc, Nat.mul_comm ncols]

theorem rmK0_lt_size (hrv : rv < 4) : rmK0 (rmNrows (3 * d)) rv < 3 * (rmSubBlock d hd).size := by
  have hlt := rmK0_lt (rmNrows_pos (3 * d)) hrv
  rw [rmSubBlock_size]
  omega

theorem rmEntry_read {i : ℕ} (hi : i < rmNrows (3 * d)) :
    rmEntry (rmNdummy (3 * d)) (i * ncols + rmPermTc j) =
      (rmSubBlock d hd).kept ((rmSubBlock d hd).read (j * rmNrows (3 * d) + i)) := by
  have hread : (rmSubBlock d hd).read (j * rmNrows (3 * d) + i) = i * ncols + rmPermTc j := by
    rw [SubBlock.read, columnwise]
    exact congrArg₂ (fun i j => i * ncols + rmPermTc j) (mul_add_mod_of_lt hi) (mul_add_div hi)
  rw [hread]
  rfl

theorem scanned_gentableSystematic :
    Scanned (rmSubBlock d hd).slot (rmSubBlock d hd).systematic (rmK0 (rmNrows (3 * d))) 0 0
      (rmSubBlock d hd).size
      (gentableSystematic (rmK0 (rmNrows (3 * d))) (fun _ => none) (rmNrows (3 * d))
        (rmNdummy (3 * d))).1 := by
  let b := rmSubBlock d hd
  rw [gentableSystematic]
  refine (foldl_nested (n := rmNrows (3 * d))
    (P := fun m (s : Gentable × ℕ) =>
      Scanned b.slot b.systematic (rmK0 (rmNrows (3 * d))) 0 0 m s.1 ∧ s.2 = m) ?_ ?_).1
  · rintro ⟨g, buffIdx⟩ j hj i hi ⟨hscan, hidx⟩
    refine ⟨?_, by rw [hidx]⟩
    have hlt := mul_add_lt hj hi
    have hnull : (b.slot (0 + (j * rmNrows (3 * d) + i))).isNone =
        (b.systematic (j * rmNrows (3 * d) + i)).isNone := by
      rw [Nat.zero_add, b.slot_systematic hlt, isNone_map]
    have hnext := hscan.cell (3 * b.size) hnull fun k hk => rmK0_lt_size hd hk
    rw [rmEntry_read hd hi, three_mul_rmSubBlock_size hd, hidx]
    rw [Nat.zero_add] at hnext
    exact hnext
  · refine ⟨⟨rfl, rfl, ?_⟩, rfl⟩
    simp

theorem scanned_gentableParity :
    Scanned (rmSubBlock d hd).slot (rmSubBlock d hd).parity (rmK0 (rmNrows (3 * d)))
      (rmSubBlock d hd).size d (2 * (rmSubBlock d hd).size)
      (gentableParity (rmK0 (rmNrows (3 * d)))
        (gentableSystematic (rmK0 (rmNrows (3 * d))) (fun _ => none) (rmNrows (3 * d))
          (rmNdummy (3 * d))).1.start d (rmNrows (3 * d)) (rmNdummy (3 * d))).1 := by
  have hsys := scanned_gentableSystematic hd
  let b := rmSubBlock d hd
  have hlen : b.len = d := rmSubBlock_len hd
  have hkp : rmNrows (3 * d) * ncols = b.size := Nat.mul_comm _ _
  rw [gentableParity, hkp]
  refine (foldl_nested (n := rmNrows (3 * d))
    (P := fun m (s : Gentable × ℕ × ℕ) =>
      Scanned b.slot b.parity (rmK0 (rmNrows (3 * d))) b.size d (2 * m) s.1 ∧ s.2.1 = m ∧ s.2.2 = m)
    ?_ ?_).1
  · rintro ⟨g, buffIdx0, buffIdx1⟩ j hj i hi ⟨hscan, hidx0, hidx1⟩
    have hk0 : ∀ k < 4, rmK0 (rmNrows (3 * d)) k < 3 * b.size := fun k hk => rmK0_lt_size hd hk
    dsimp only at hscan hidx0 hidx1 ⊢
    generalize hm : j * rmNrows (3 * d) + i = m at *
    have heven : rmEntry (rmNdummy (3 * d)) (i * ncols + rmPermTc j) = b.parity (2 * m) := by
      rw [rmEntry_read hd hi, b.parity_even, hm]
    have hodd : (rmEntry (rmNdummy (3 * d)) ((rmPermTc (m / rmNrows (3 * d)) +
        ncols * (m % rmNrows (3 * d)) + 1) % b.size)).map (· + d) = b.parity (2 * m + 1) := by
      rw [b.parity_odd, hlen, Nat.add_comm (rmPermTc _), Nat.mul_comm ncols]
      rfl
    have hfirst := hscan.cell (3 * b.size) (b.isNone_slot_parity (2 * m)) hk0
    have hsecond := hfirst.cell (3 * b.size) (b.isNone_slot_parity (2 * m + 1)) hk0
    have hpos0 : 2 * m + b.size = b.size + 2 * m := Nat.add_comm _ _
    have hpos1 : 2 * m + 1 + b.size = b.size + (2 * m + 1) := Nat.add_comm _ _
    refine ⟨?_, by rw [hidx0], by rw [hidx1]⟩
    rw [hidx0, hidx1, heven, hodd, hpos0, hpos1]
    exact hsecond
  · refine ⟨⟨rfl, ?_, ?_⟩, rfl, rfl⟩
    · have hrank := b.rank_size
      rw [hlen] at hrank
      exact hrank
    · intro k hk
      have hstart := hsys.start k hk
      rw [Nat.zero_add] at hstart
      exact hstart

/-- Behind the start of every redundancy version is a coded bit: the last one of the first parity
stream. -/
theorem rank_k0_lt (hrv : rv < 4) : rank (rmSubBlock d hd).slot (rmK0 (rmNrows (3 * d)) rv) <
      rank (rmSubBlock d hd).slot (3 * (rmSubBlock d hd).size) := by
  let b := rmSubBlock d hd
  have hlen : b.len = d := rmSubBlock_len hd
  obtain ⟨hlt, hslot⟩ := b.slot_slotOf (3 * (d - 1) + 1) (by omega)
  have hplace : b.slotOf (3 * (d - 1) + 1) = b.size + 2 * b.turn (b.size - 1) := by
    have hmod : (3 * (d - 1) + 1) % 3 = 1 := by omega
    have hcell : (3 * (d - 1) + 1) / 3 + b.ndummy = b.size - 1 := by
      have hsum := b.len_add_ndummy
      omega
    rw [SubBlock.slotOf, hmod, hcell]
    rfl
  have hturn : b.turn (b.size - 1) = 31 * rmNrows (3 * d) + (b.size - 1) / 32 := by
    have hcol : (b.size - 1) % 32 = 31 := by
      have hpos := rmNrows_pos (3 * d)
      have hsize : b.size = 32 * rmNrows (3 * d) := rfl
      omega
    rw [SubBlock.turn, Blocks.turn]
    exact congrArg (fun c => rmPermTc c * rmNrows (3 * d) + (b.size - 1) / 32) hcol
  have hk0 : rmK0 (rmNrows (3 * d)) rv ≤ b.slotOf (3 * (d - 1) + 1) := by
    have hle : rmNrows (3 * d) * (24 * rv + 2) ≤ rmNrows (3 * d) * 74 :=
      Nat.mul_le_mul_left _ (by omega)
    have hsize : b.size = 32 * rmNrows (3 * d) := rfl
    rw [rmK0_eq (rmNrows_pos _), hplace, hturn]
    omega
  calc rank b.slot (rmK0 (rmNrows (3 * d)) rv)
      ≤ rank b.slot (b.slotOf (3 * (d - 1) + 1)) := rank_mono _ hk0
    _ < rank b.slot (b.slotOf (3 * (d - 1) + 1) + 1) := by
        rw [rank_succ_of_some hslot]
        omega
    _ ≤ rank b.slot (3 * b.size) := rank_mono _ hlt

/-- The transmitter's tables are the two parts of the circular buffer, and each redundancy version
starts at the first coded bit at or behind its slot. -/
theorem gentables_eq : (gentables (3 * d)).systematicBits =
        compact (rmSubBlock d hd).systematic (rmSubBlock d hd).size ∧
      (gentables (3 * d)).parityBits =
        compact (rmSubBlock d hd).parity (2 * (rmSubBlock d hd).size) ∧
      ∀ rv < 4, (gentables (3 * d)).k0Start rv =
        some (rank (rmSubBlock d hd).slot (rmK0 (rmNrows (3 * d)) rv)) := by
  have hthird : 3 * d / 3 = d := by omega
  have hall : (rmSubBlock d hd).size + 2 * (rmSubBlock d hd).size = 3 * (rmSubBlock d hd).size := by
    omega
  have hparity := scanned_gentableParity hd
  rw [gentables, hthird]
  refine ⟨(scanned_gentableSystematic hd).table, hparity.table, ?_⟩
  intro rv hrv
  have hstart := hparity.start rv hrv
  rw [hall, found, if_pos (rank_k0_lt hd hrv)] at hstart
  exact hstart

/-! ## The table of the receiver -/

theorem rmIsDummy_eq {p : ℕ} (hp : p < 3 * (rmSubBlock d hd).size) :
    rmIsDummy (rmNrows (3 * d)) (rmNdummy (3 * d)) p = ((rmSubBlock d hd).slot p).isNone := by
  let b := rmSubBlock d hd
  have hkp : rmNrows (3 * d) * ncols = b.size := Nat.mul_comm _ _
  have hsize : b.size = 32 * rmNrows (3 * d) := rfl
  have hdirect : ∀ v : ℕ, (if b.ndummy ≤ v then decide ((v : ℤ) - b.ndummy < 0) else true) =
      decide (v < b.ndummy) := by
    intro v
    split
    · rw [decide_eq_decide]
      omega
    · rw [decide_eq_true (by omega)]
  rw [SubBlock.slot, Option.isNone_map, b.isNone_kept, rmIsDummy, hkp]
  dsimp only
  rcases b.slot_cases hp with hlt | ⟨m, hm, rfl⟩ | ⟨m, hm, rfl⟩
  · rw [if_pos (.inl hlt), if_neg (Nat.not_le_of_lt hlt), b.cell_of_lt hlt]
    exact hdirect (b.read p)
  · have hhalf : (b.size + 2 * m - b.size) / 2 = m := by omega
    rw [if_pos (.inr (by omega)), if_pos (Nat.le_add_right b.size (2 * m)), b.cell_even, hhalf]
    exact hdirect (b.read m)
  · have hhalf : (b.size + 2 * m + 1 - b.size - 1) / 2 = m := by omega
    have hkidx : (rmPermTc (m / rmNrows (3 * d)) + ncols * (m % rmNrows (3 * d)) + 1) % b.size =
        b.next (b.read m) := by
      rw [Nat.add_comm (rmPermTc _), Nat.mul_comm ncols]
      rfl
    have hndummy : b.ndummy = rmNdummy (3 * d) := rfl
    rw [if_neg (by omega), hhalf, hkidx, b.cell_odd, decide_eq_decide, ← hndummy]
    omega

theorem toNat_tmod_prev (b : SubBlock) {v : ℕ} (hv : v < b.size) (hsize : 1 < b.size) :
    (if ((v : ℤ) - 1).tmod b.size < 0 then ((v : ℤ) - 1).tmod b.size + b.size
      else ((v : ℤ) - 1).tmod b.size).toNat = b.prev v := by
  rcases Nat.eq_zero_or_pos v with rfl | hpos
  · have hneg : ((0 : ℕ) : ℤ) - 1 = -1 := rfl
    have hone : (1 : ℤ).tmod b.size = 1 := Int.tmod_eq_of_lt (by decide) (by omega)
    rw [hneg, Int.neg_tmod, hone, if_pos (by decide), SubBlock.prev, mod_eq_of_lt (by omega)]
    omega
  · have hback : v + b.size - 1 = v - 1 + b.size := by omega
    rw [Int.tmod_eq_of_lt (by omega) (by omega), if_neg (by omega), SubBlock.prev, hback,
      add_mod_right, mod_eq_of_lt (by omega)]
    omega

theorem receiveSlot_eq {i : ℕ} (hi : i < d) (hj : j < 3) :
    receiveSlot (rmNrows (3 * d)) (rmNdummy (3 * d)) i j =
      (rmSubBlock d hd).slotOf (3 * i + j) := by
  let b := rmSubBlock d hd
  have hkp : rmNrows (3 * d) * ncols = b.size := Nat.mul_comm _ _
  have hndummy : rmNdummy (3 * d) = b.ndummy := rfl
  have hlen : b.len = d := rmSubBlock_len hd
  have hlt : i + b.ndummy < b.size := by
    have hsum := b.len_add_ndummy
    omega
  have hmod : (3 * i + j) % 3 = j := by omega
  have hdiv : (3 * i + j) / 3 = i := by omega
  have hturn : ∀ v, rmPermTc (v % ncols) * rmNrows (3 * d) + v / ncols = b.turn v := fun _ => rfl
  rw [SubBlock.slotOf, hmod, hdiv, receiveSlot, hkp, hndummy]
  dsimp only
  obtain rfl | rfl | rfl : j = 0 ∨ j = 1 ∨ j = 2 := by omega
  · rw [if_pos (by decide), hturn, Nat.mul_zero, Nat.zero_add, Nat.zero_add, Nat.one_mul]
    rfl
  · rw [if_pos (by decide), hturn, Nat.mul_one]
    rfl
  · have hprev := toNat_tmod_prev b hlt (by
      have hpos := rmNrows_pos (3 * d)
      have hsize : b.size = 32 * rmNrows (3 * d) := rfl
      omega)
    rw [Int.natCast_add] at hprev
    have hcol : ∀ v, (v / ncols + rmNrows (3 * d) * rmPermTc (v % ncols)) = b.turn v := by
      intro v
      rw [← hturn, Nat.add_comm, Nat.mul_comm]
    rw [if_neg (by decide), hprev, hcol, mod_eq_of_lt (b.turn_lt (b.prev_lt _)),
      Nat.add_comm (2 * _)]
    rfl

theorem receiveTable2_slotOf (tempTable2 : ℕ → ℕ) {idx : ℕ} (hidx : idx < 3 * d) :
    receiveTable2 (rmNrows (3 * d)) (rmNdummy (3 * d)) (3 * d) tempTable2
      ((rmSubBlock d hd).slotOf idx) = idx := by
  let b := rmSubBlock d hd
  have hlen : b.len = d := rmSubBlock_len hd
  have hthird : 3 * d / 3 = d := by omega
  rw [receiveTable2, hthird]
  refine foldl_nested
    (P := fun m (temp : ℕ → ℕ) => ∀ idx < m, temp (b.slotOf idx) = idx) ?_ ?_ idx (by omega)
  · intro temp i hi j hj hfilled idx hidx
    have hnew : i * 3 + j = 3 * i + j := by omega
    rw [receiveSlot_eq hd hi hj]
    rcases Nat.lt_or_eq_of_le (le_of_lt_succ hidx) with hold | rfl
    · have hne : b.slotOf idx ≠ b.slotOf (3 * i + j) := by
        intro heq
        have hslot := (b.slot_slotOf idx (by omega)).2
        rw [heq, (b.slot_slotOf (3 * i + j) (by omega)).2, some.injEq] at hslot
        omega
      rw [update_of_ne hne]
      exact hfilled idx hold
    · rw [hnew]
      exact update_self _ _ _
  omega

/-- The loop goes at most once around the buffer: by then it has all the coded bits that it looks
for. -/
theorem receiveLoop_eq {ndummy k0 cbLen n : ℕ} (hn : 3 * nrows * ncols = n) (visited : ℕ → Option ℕ)
    (hvisited : ∀ j, visited j = if rmIsDummy nrows ndummy ((k0 + j) % n) then none
      else some ((k0 + j) % n))
    (hcount : rank visited n = cbLen) {fuel : ℕ} (hfuel : j + fuel = n) :
    receiveLoop nrows ndummy k0 cbLen fuel j (compact visited j) = some (compact visited n) := by
  induction fuel generalizing j with
  | zero =>
    have hj : j = n := hfuel
    rw [receiveLoop, hj, ← hcount, rank, if_neg (lt_irrefl _)]
  | succ fuel ih =>
    rw [receiveLoop, hn]
    by_cases hmore : (compact visited j).length < cbLen
    · have hnext : (if rmIsDummy nrows ndummy ((k0 + j) % n) then compact visited j
          else compact visited j ++ [(k0 + j) % n % n]) = compact visited (j + 1) := by
        rw [compact_succ, hvisited, mod_mod]
        split
        · simp
        · rfl
      rw [if_pos hmore]
      dsimp only
      rw [hnext]
      exact ih (by omega)
    · have hmono := rank_mono visited (by omega : j ≤ n)
      have hall : rank visited j = rank visited n := by
        rw [← hcount] at hmore
        exact le_antisymm hmono (Nat.le_of_not_lt hmore)
      rw [if_neg hmore, compact_eq_of_rank_eq visited (by omega) hall]

/-- The receiver's table is the content of the circular buffer, from the first coded bit at or
behind the start of the redundancy version on. -/
theorem gentableReceive_eq (tempTable2 : ℕ → ℕ) (hrv : rv < 4) :
    gentableReceive tempTable2 (3 * d) rv =
      some ((compact (rmSubBlock d hd).slot (3 * (rmSubBlock d hd).size)).rotate
        (rank (rmSubBlock d hd).slot (rmK0 (rmNrows (3 * d)) rv))) := by
  let b := rmSubBlock d hd
  let temp := receiveTable2 (rmNrows (3 * d)) (rmNdummy (3 * d)) (3 * d) tempTable2
  let f : ℕ → Option ℕ := fun p =>
    if rmIsDummy (rmNrows (3 * d)) (rmNdummy (3 * d)) p then none else some p
  have hlen : b.len = d := rmSubBlock_len hd
  have hk0 := rmK0_lt_size hd hrv
  have hcontent : ∀ p < 3 * b.size, (f p).map temp = b.slot p := by
    intro p hp
    dsimp only [f]
    rw [rmIsDummy_eq hd hp]
    cases hslot : b.slot p with
    | none => rfl
    | some idx =>
      obtain ⟨hidx, hplace⟩ := b.slotOf_of_slot hp hslot
      rw [hlen] at hidx
      have hvalue := receiveTable2_slotOf hd tempTable2 hidx
      rw [show (rmSubBlock d hd).slotOf idx = p from hplace] at hvalue
      exact congrArg some hvalue
  have hmap : ∀ n ≤ 3 * b.size, (compact f n).map temp = compact b.slot n := by
    intro n hn
    rw [← compact_map]
    exact compact_congr fun p hp => hcontent p (by omega)
  have hrank : ∀ n ≤ 3 * b.size, rank f n = rank b.slot n := by
    intro n hn
    rw [rank, rank, ← hmap n hn, length_map]
  have hvisited := compact_mod f hk0.le
  have hcount : rank (fun j => f ((rmK0 (rmNrows (3 * d)) rv + j) % (3 * b.size))) (3 * b.size) =
      3 * d := by
    rw [rank, hvisited, length_rotate]
    exact (hrank _ le_rfl).trans (b.rank_slots.trans (by rw [hlen]))
  have hloop := receiveLoop_eq (three_mul_rmSubBlock_size hd) _ (fun _ => rfl) hcount
    (Nat.zero_add _)
  rw [hvisited] at hloop
  rw [gentableReceive, three_mul_rmSubBlock_size hd]
  dsimp only
  rw [show receiveLoop _ _ _ _ _ 0 [] = some _ from hloop, bind_eq_bind, bind_some,
    map_rotate, hmap _ le_rfl, hrank _ hk0.le]

end Tables

end MbmsTx.Phy.Fec
