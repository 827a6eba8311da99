import MbmsTx.Phy.PmchMapping

/-!
# Mapping the PBCH to the resource grid

`srsran_pbch_cp` copies the symbols of the broadcast channel to the 72 subcarriers in the middle of
the first four symbols of slot 1, or back, and leaves out the references of four ports.

The walk over a symbol with references ends behind the 72 subcarriers, or at the last of them if it
is a reference. The caller adds what is missing, so every symbol starts at its place (`PbchUpTo`).
-/

namespace MbmsTx.Phy

open MbmsTx.Blocks MbmsTx.Memory List

/-- `PBCH_RE_CP_NORM` and `PBCH_RE_CP_EXT`. -/
def pbchRe : Cp → ℕ
  | .norm => 240
  | .ext => 216

/-- `SRSRAN_SYMBOL_HAS_REF`, for four ports. -/
def symbolHasRef (l : ℕ) (cp : Cp) : Bool := l = 1 || l = 0 || l = cpNsymb cp - 3

/-- Advance the pointer to the grid. -/
def Copying.advance (c : Copying) (put : Bool) (n : ℕ) : Copying :=
  if put then { c with output := c.output + n } else { c with input := c.input + n }

section

variable (cell : EnbCell)

/-- The calls of `prb_cp_ref`. -/
def pbchCpRef (put : Bool) (c : Copying) : Copying :=
  prbCpRefScs c (cell.id % 3) 4 (4 * 6) put .khz15

/-- `srsran_pbch_cp`. -/
def pbchCp (put : Bool) : Copying :=
  let rest := cell.nofPrb * 12 - 2 * 36
  let refRest := rest + if cell.id % 3 = 2 then 1 else 0
  let c := Copying.advance ⟨0, 0, []⟩ put (cell.nofPrb * 12 / 2 - 36)
  let c := (pbchCpRef cell put c).advance put refRest
  let c := (pbchCpRef cell put c).advance put refRest
  let c := (prbCpScs c 6 .khz15).advance put rest
  match cell.cp with
  | .norm => (prbCpScs c 6 .khz15).advance put rest
  | .ext => pbchCpRef cell put c

/-- `srsran_pbch_put`: the grid of slot 1, and the symbol count. -/
def pbchPut {α : Type} (pbch slot1 : ℕ → α) : (ℕ → α) × ℕ :=
  (copyEach pbch slot1 (pbchCp cell true).copied, (pbchCp cell true).input)

/-- `srsran_pbch_get`: the symbols, and their number. -/
def pbchGet {α : Type} (slot1 pbch : ℕ → α) : (ℕ → α) × ℕ :=
  (copyEach slot1 pbch (pbchCp cell false).copied, (pbchCp cell false).output)

/-- An element of the first four symbols and the 72 subcarriers in the middle that is no reference
of four ports: these are on every third subcarrier. -/
structure PbchElement (p : ℕ) : Prop where
  symbol : p / (cell.nofPrb * 12) < 4
  middle : cell.nofPrb * 6 - 36 ≤ p % (cell.nofPrb * 12) ∧
    p % (cell.nofPrb * 12) < cell.nofPrb * 6 + 36
  not_ref : symbolHasRef (p / (cell.nofPrb * 12)) cell.cp → p % (cell.nofPrb * 12) % 3 ≠ cell.id % 3

/-- The symbols go to different elements of the PBCH, and come back in order. -/
structure PbchMapped (ps : List ℕ) : Prop where
  length : ps.length = pbchRe cell.cp
  nodup : ps.Nodup
  element : ∀ p ∈ ps, PbchElement cell p
  put : ∀ {α : Type} (pbch slot1 : ℕ → α), (pbchPut cell pbch slot1).2 = pbchRe cell.cp ∧
    (∀ i (h : i < ps.length), (pbchPut cell pbch slot1).1 ps[i] = pbch i) ∧
    ∀ p ∉ ps, (pbchPut cell pbch slot1).1 p = slot1 p
  get : ∀ {α : Type} (pbch slot1 out : ℕ → α),
    (pbchGet cell (pbchPut cell pbch slot1).1 out).2 = pbchRe cell.cp ∧
    ∀ i < pbchRe cell.cp, (pbchGet cell (pbchPut cell pbch slot1).1 out).1 i = pbch i

/-- The subcarriers of a symbol with PBCH, as offsets in the 72 in the middle. -/
def pbchOffsets (l : ℕ) : List ℕ :=
  if symbolHasRef l cell.cp then (List.range 72).filter (· % 3 ≠ cell.id % 3) else List.range 72

/-- The elements of the first `n` symbols that carry the PBCH. -/
def pbchPositions (n : ℕ) : List ℕ :=
  laid (cell.nofPrb * 12) (fun l => (pbchOffsets cell l).map (cell.nofPrb * 6 - 36 + ·)) n

/-- The first symbols are done, and the pointer is at the next one. -/
structure PbchUpTo (l : ℕ) (c : Copying) : Prop where
  wrote : Wrote c (pbchPositions cell l)
  output : c.output = l * (cell.nofPrb * 12) + (cell.nofPrb * 6 - 36)

end

variable {cell : EnbCell} {c : Copying} {l : ℕ}

/-- What the walk `d` over a symbol adds, from where the pointers are. -/
theorem PbchUpTo.andThen {d : Copying} (h : PbchUpTo cell l c) (hd : Wrote d (pbchOffsets cell l)) :
    Wrote (c.andThen d) (pbchPositions cell (l + 1)) := by
  have hnext := h.wrote.andThen hd
  rw [h.output, pbchPositions] at hnext
  rw [pbchPositions, laid_succ, map_map]
  simpa [Function.comp_def, Nat.add_assoc] using hnext

theorem wrote_pbchCpRef (hl : symbolHasRef l cell.cp) :
    Wrote (pbchCpRef cell true ⟨0, 0, []⟩) (pbchOffsets cell l) ∧
      (pbchCpRef cell true ⟨0, 0, []⟩).output + (if cell.id % 3 = 2 then 1 else 0) = 72 := by
  have hmod : cell.id % 3 = 0 ∨ cell.id % 3 = 1 ∨ cell.id % 3 = 2 := by omega
  rw [pbchOffsets, if_pos hl, pbchCpRef]
  generalize cell.id % 3 = o at hmod
  obtain rfl | rfl | rfl := hmod
  all_goals exact ⟨⟨by decide +kernel, by decide +kernel⟩, by decide +kernel⟩

theorem PbchUpTo.ref (h : PbchUpTo cell l c) (hl : symbolHasRef l cell.cp) :
    Wrote (pbchCpRef cell true c) (pbchPositions cell (l + 1)) := by
  rw [pbchCpRef, prbCpRefScs_eq_andThen]
  exact h.andThen (wrote_pbchCpRef hl).1

section

variable (hprb : 6 ≤ cell.nofPrb)

include hprb

theorem PbchUpTo.refAdvance (h : PbchUpTo cell l c) (hl : symbolHasRef l cell.cp) :
    PbchUpTo cell (l + 1) ((pbchCpRef cell true c).advance true
      (cell.nofPrb * 12 - 2 * 36 + if cell.id % 3 = 2 then 1 else 0)) := by
  refine ⟨⟨(h.ref hl).input, (h.ref hl).copied⟩, ?_⟩
  have hend := (wrote_pbchCpRef hl).2
  have hout := h.output
  have hrow := Nat.add_one_mul l (cell.nofPrb * 12)
  rw [pbchCpRef, prbCpRefScs_eq_andThen]
  change c.output + (pbchCpRef cell true ⟨0, 0, []⟩).output + (_ + _) = _
  omega

theorem PbchUpTo.full (h : PbchUpTo cell l c) (hl : symbolHasRef l cell.cp = false) :
    PbchUpTo cell (l + 1) ((prbCpScs c 6 .khz15).advance true (cell.nofPrb * 12 - 2 * 36)) := by
  have hwrote : Wrote (prbCpScs c 6 .khz15) (pbchPositions cell (l + 1)) := by
    rw [prbCpScs, ← c.andThen_start, Copying.andThen_run]
    refine h.andThen ?_
    rw [pbchOffsets, if_neg (by simp [hl])]
    exact wrote_run 72
  refine ⟨⟨hwrote.input, hwrote.copied⟩, ?_⟩
  have hout := h.output
  have hrow := Nat.add_one_mul l (cell.nofPrb * 12)
  change c.output + 12 * 6 + (cell.nofPrb * 12 - 2 * 36) = _
  omega

theorem wrote_pbchCp : Wrote (pbchCp cell true) (pbchPositions cell 4) := by
  have hstart : PbchUpTo cell 0 (Copying.advance ⟨0, 0, []⟩ true (cell.nofPrb * 12 / 2 - 36)) := by
    refine ⟨⟨rfl, rfl⟩, ?_⟩
    change 0 + (cell.nofPrb * 12 / 2 - 36) = _
    omega
  have hone := hstart.refAdvance hprb (by simp [symbolHasRef])
  have htwo := hone.refAdvance hprb (by simp [symbolHasRef])
  have hthree := htwo.full hprb (by cases cell.cp <;> rfl)
  unfold pbchCp
  cases hcp : cell.cp with
  | norm => exact (hthree.full hprb (by rw [hcp]; rfl)).wrote
  | ext => exact hthree.ref (by rw [hcp]; rfl)

theorem lt_of_mem_pbchOffsets {q : ℕ}
    (hq : q ∈ (pbchOffsets cell l).map (cell.nofPrb * 6 - 36 + ·)) :
    q < cell.nofPrb * 6 + 36 ∧ q < cell.nofPrb * 12 := by
  obtain ⟨r, hr, rfl⟩ := mem_map.mp hq
  have hlt : r < 72 := by
    unfold pbchOffsets at hr
    split at hr
    · exact mem_range.mp (mem_filter.mp hr).1
    · exact mem_range.mp hr
  omega

end

theorem pbchCp_get (cell : EnbCell) : pbchCp cell false = (pbchCp cell true).swap := by
  have hadvance : ∀ (c : Copying) n, (c.advance true n).swap = c.swap.advance false n :=
    fun _ _ => rfl
  have hstart : Copying.swap ⟨0, 0, []⟩ = ⟨0, 0, []⟩ := rfl
  unfold pbchCp pbchCpRef
  cases cell.cp with
  | norm | ext =>
    simp [prbCpScs, hadvance, swap_prbCpRefScs, Copying.swap_run, hstart]

theorem length_pbchPositions (cell : EnbCell) : (pbchPositions cell 4).length = pbchRe cell.cp := by
  have hlen : ∀ l, (pbchOffsets cell l).length = if symbolHasRef l cell.cp then 48 else 72 := by
    have href : ∀ o < 3, ((List.range 72).filter (· % 3 ≠ o)).length = 48 := by decide +kernel
    intro l
    unfold pbchOffsets
    split
    · exact href _ (Nat.mod_lt _ (by decide))
    · exact length_range
  rw [pbchPositions, laid, length_flatMap]
  simp only [length_map, hlen]
  cases cell.cp with
  | norm | ext => rfl

/-- The PBCH is mapped to what is left of its four symbols. -/
theorem pbchMapped (cell : EnbCell) (hprb : 6 ≤ cell.nofPrb) :
    PbchMapped cell (pbchPositions cell 4) := by
  have hwrote := wrote_pbchCp hprb
  have hlength := length_pbchPositions cell
  have hnodup : (pbchPositions cell 4).Nodup := by
    refine (pairwise_laid (fun l _ q hq => (lt_of_mem_pbchOffsets hprb hq).2) fun l _ => ?_).imp
      Nat.ne_of_lt
    refine Pairwise.map _ (fun a b hab => Nat.add_lt_add_left hab _) ?_
    unfold pbchOffsets
    split
    · exact pairwise_lt_range.filter _
    · exact pairwise_lt_range
  refine ⟨hlength, hnodup, fun p hp => ?_, fun pbch slot1 => ⟨hwrote.input.trans hlength, ?_, ?_⟩,
    fun pbch slot1 out => ⟨?_, fun i hi => ?_⟩⟩
  · obtain ⟨l, hl, hp⟩ := mem_flatMap.mp hp
    obtain ⟨q, hq, rfl⟩ := mem_map.mp hp
    obtain ⟨hmiddle, hrow⟩ := lt_of_mem_pbchOffsets hprb hq
    obtain ⟨r, hr, rfl⟩ := mem_map.mp hq
    constructor
    · rw [mul_add_div hrow]
      exact mem_range.mp hl
    · rw [Nat.mul_add_mod_of_lt hrow]
      exact ⟨Nat.le_add_right _ _, hmiddle⟩
    · rw [mul_add_div hrow, Nat.mul_add_mod_of_lt hrow]
      intro href
      rw [pbchOffsets, if_pos href, mem_filter, decide_eq_true_eq] at hr
      omega
  · intro i hi
    exact copyEach_of_mem (by rw [hwrote.positions]; exact hnodup) (hwrote.mem hi)
  · intro p hp
    exact copyEach_of_not_mem (by rw [hwrote.positions]; exact hp)
  · rw [pbchGet, pbchCp_get]
    exact hwrote.input.trans hlength
  · rw [pbchGet, pbchCp_get]
    exact hwrote.copyBack hnodup pbch slot1 out (by omega)

/-- A cell of 15 resource blocks. -/
theorem pbchMapped_fifteen : ∃ ps, PbchMapped ⟨⟨15, .norm, .r1, false, 0⟩, 2, 1, .ext, 15⟩ ps :=
  ⟨_, pbchMapped ⟨⟨15, .norm, .r1, false, 0⟩, 2, 1, .ext, 15⟩ (by decide)⟩

end MbmsTx.Phy
