import Mathlib.Algebra.BigOperators.Ring.List
import Mathlib.Algebra.Order.BigOperators.Group.List
import MbmsTx.Phy.EnbDl

/-!
# The symbols of the PMCH

The number of symbols of a PMCH is decided three times: by `srsran_ra_dl_compute_nof_re` for the
grant, by `pmch_put` in the encoder and by `pmch_get` in the decoder. The encoder does not leave out
a control region any more, but the decoder does, and for 15 kHz the grant does too and also leaves
out the PBCH and the synchronisation signals. So they agree only without control symbols, which no
CFI from 1 to 3 gives (`symbols_agree_iff`).
-/

namespace MbmsTx.Phy

open MbmsTx.Blocks MbmsTx.Memory List

/-! ## The grant -/

/-- `SRSRAN_NOF_CTRL_SYMBOLS`. -/
def nofCtrlSymbols (nofPrb cfi : ℕ) : ℕ := cfi + if nofPrb < 10 then 1 else 0

/-- The resource blocks in the middle of the band; the first is without sign. -/
def isMiddlePrb (nofPrb prbIdx : ℕ) : Bool :=
  (nofPrb / 2 + 2 ^ 32 - 3) % 2 ^ 32 ≤ prbIdx && prbIdx < nofPrb / 2 + 3 + nofPrb % 2

/-- The two resource blocks that are only half in the middle, when their number is odd. -/
def isEdgePrb (nofPrb prbIdx : ℕ) : Bool :=
  nofPrb % 2 ≠ 0 && (prbIdx = (nofPrb / 2 + 2 ^ 32 - 3) % 2 ^ 32 || prbIdx = nofPrb / 2 + 3)

/-- The elements of a resource block in the middle of the band in subframes 0 and 5, where PBCH, PSS
and SSS are, and whether references are still to be removed; `re` are those of another resource
block. -/
def raReMiddle (cp : Cp) (nofPorts nofCtrl subframe slot : ℕ) (edge : Bool) (re : ℤ) : ℤ × Bool :=
  let nofSymbols : ℤ := cpNsymb cp
  let (re, skipRefs) : ℤ × Bool :=
    if slot = 0 then ((nofSymbols - nofCtrl - 2) * 12, true)
    else if subframe = 0 then
      match cp with
      | .ext => ((nofSymbols - 4) * 12, false)
      | .norm => ((nofSymbols - 4) * 12 + 2 * nofPorts, true)
    else (re, true)
  if edge then
    if slot = 0 then (re + 2 * 12 / 2, skipRefs)
    else if subframe = 0 then
      let re := re + (4 * 12 / 2 - nofPorts)
      match cp with
      | .ext => (re - min nofPorts 2, skipRefs)
      | .norm => (re, skipRefs)
    else (re, skipRefs)
  else (re, skipRefs)

/-- The reference elements of an ordinary subframe. -/
def csRefsPerPrb (nofPorts nofCtrl slot : ℕ) : ℤ :=
  if nofPorts = 1 ∨ nofPorts = 2 then 2 * (slot + 1) * nofPorts
  else if nofPorts = 4 then
    if slot = 1 then 12 else if nofCtrl = 1 then 8 else 4
  else 0

/-- `ra_re_x_prb` of an FDD cell: the elements for data of a resource block in a slot. They are
computed modulo `2 ^ 32`. -/
def raReXPrb (cell : EnbCell) (sf : DlSfCfg) (slot prbIdx : ℕ) : ℕ :=
  let subframe := sf.tti % 10
  let nofCtrl := nofCtrlSymbols cell.nofPrb sf.cfi
  let scs := sf.subcarrierSpacing
  let exact : ℤ :=
    if sf.sfType = .mbsfn ∧ scs ≠ .khz15 then
      nreScs scs * mbsfnNofSymbols scs - refsignalMbsfnRsPerSymbol scs * (slot + 1)
    else
      let cp := if sf.sfType = .mbsfn then .ext else cell.cp
      let nofSymbols : ℤ := cpNsymb cp
      let re : ℤ := if slot = 0 then (nofSymbols - nofCtrl) * 12 else nofSymbols * 12
      let (re, skipRefs) :=
        if (subframe = 0 ∨ subframe = 5) ∧ isMiddlePrb cell.nofPrb prbIdx then
          raReMiddle cp cell.nofPorts nofCtrl subframe slot (isEdgePrb cell.nofPrb prbIdx) re
        else (re, true)
      if skipRefs then
        match sf.sfType with
        | .norm => re - csRefsPerPrb cell.nofPorts nofCtrl slot
        | .mbsfn => re - 6 * (slot + 1)
      else re
  (exact % 2 ^ 32).toNat

/-- `srsran_ra_dl_compute_nof_re` for the grant of `srsran_configure_pmch`, the first `mbsfnPrb`
resource blocks. -/
def pmchNofRe (cell : EnbCell) (sf : DlSfCfg) : ℕ :=
  let nofSlots := if sf.sfType = .mbsfn then mbsfnNofSlots sf.subcarrierSpacing else 2
  ((range nofSlots).map fun s =>
    ((range cell.nofPrb).map fun j =>
      if j < cell.mbsfnPrb then raReXPrb cell sf s j else 0).sum).sum % 2 ^ 32

/-! ## Encoder and decoder -/

section

variable {α : Type} (cell : EnbCell) (sf : DlSfCfg)

/-- `srsran_pmch_encode`: the grid, and the number of symbols. -/
def pmchEncodePut (symbols grid : ℕ → α) : (ℕ → α) × ℕ :=
  let c := pmchCp cell.nofPrb 0 true sf.subcarrierSpacing (sf.tti % 10)
  (copyEach symbols grid c.copied, c.input)

/-- `srsran_pmch_decode`: the symbols, and their number. -/
def pmchDecodeGet (grid symbols : ℕ → α) : (ℕ → α) × ℕ :=
  let lstart := nofCtrlSymbols cell.nofPrb sf.cfi
  let c := pmchCp cell.nofPrb lstart false sf.subcarrierSpacing (sf.tti % 10)
  (copyEach grid symbols c.copied, c.output)

/-- The encoder maps as many symbols as the grant says, and the decoder extracts these. -/
def SymbolsAgree : Prop :=
  ∀ (α : Type) (symbols grid out : ℕ → α),
    let mapped := pmchEncodePut cell sf symbols grid
    let extracted := pmchDecodeGet cell sf mapped.1 out
    mapped.2 = pmchNofRe cell sf ∧ extracted.2 = pmchNofRe cell sf ∧
      ∀ i < pmchNofRe cell sf, extracted.1 i = symbols i

end

/-! ## The numbers of symbols -/

/-- What is mapped with `lstart` symbols of control region. -/
def dataPositions (nofPrb lstart : ℕ) (scs : Scs) (sf : ℕ) : List ℕ :=
  gridPositions nofPrb scs fun l s => prbData lstart l s sf scs

section

variable {nofPrb : ℕ} {scs : Scs} {sf : ℕ}

theorem dataPositions_sublist (nofPrb lstart : ℕ) (scs : Scs) (sf : ℕ) :
    (dataPositions nofPrb lstart scs sf).Sublist (dataPositions nofPrb 0 scs sf) := by
  refine laid_sublist ?_ _
  intro b
  by_cases hmapped : (if b / nofPrb / mbsfnNofSymbols scs = 0 then lstart else 0) ≤
      b / nofPrb % mbsfnNofSymbols scs
  · have hl : b / nofPrb % mbsfnNofSymbols scs < mbsfnNofSymbols scs :=
      Nat.mod_lt _ (mbsfnNofSymbols_pos scs)
    dsimp only
    rw [prbData_zero hl, prbData, if_pos ⟨hmapped, hl⟩]
  · dsimp only
    rw [prbData, if_neg fun h => hmapped h.1]
    simp

theorem one_mem_dataOffsets (sf : ℕ) (scs : Scs) : 1 ∈ dataOffsets 0 0 sf scs := by
  cases scs with
  | khz15 | khz7p5 => exact mem_range.mpr (by decide)
  | khz1p25 =>
    have hone : 1 ≠ refsignalMbsfnOffset 0 0 sf .khz1p25 := by
      rcases refsignalMbsfnOffset_cases 0 0 sf .khz1p25 with h | h
      · omega
      · rw [h]
        decide
    exact mem_filter.mpr ⟨mem_range.mpr (by decide), decide_eq_true hone⟩

theorem dataPositions_length_lt (hprb : 0 < nofPrb) {lstart : ℕ} (hlstart : 0 < lstart) :
    (dataPositions nofPrb lstart scs sf).length < (dataPositions nofPrb 0 scs sf).length := by
  have hsub := dataPositions_sublist nofPrb lstart scs sf
  refine lt_of_le_of_ne hsub.length_le ?_
  intro hlen
  have hblocks : 0 < nofBlocks nofPrb scs := by
    cases scs with
    | khz15 | khz7p5 | khz1p25 =>
      simp only [nofBlocks, mbsfnNofSlots, mbsfnNofSymbols, cpNsymb]
      omega
  have hone : 1 ∈ dataPositions nofPrb 0 scs sf := by
    refine mem_flatMap.mpr ⟨0, mem_range.mpr hblocks, ?_⟩
    refine mem_map.mpr ⟨1, ?_, by rw [zero_mul]⟩
    dsimp only
    rw [Nat.zero_div, Nat.zero_div, Nat.zero_mod, prbData_zero (mbsfnNofSymbols_pos scs)]
    exact one_mem_dataOffsets sf scs
  rw [← hsub.eq_of_length hlen] at hone
  obtain ⟨b, -, hb⟩ := mem_flatMap.mp hone
  obtain ⟨q, hq, hpos⟩ := mem_map.mp hb
  have hnre : 12 ≤ nreScs scs := by
    cases scs with
    | khz15 | khz7p5 | khz1p25 => decide
  rcases eq_zero_or_pos b with rfl | hbpos
  · dsimp only at hq
    rw [Nat.zero_div, Nat.zero_div, Nat.zero_mod, prbData, if_pos rfl, if_neg (by omega)] at hq
    exact absurd hq not_mem_nil
  · have hmul : nreScs scs ≤ b * nreScs scs := Nat.le_mul_of_pos_left _ hbpos
    omega

theorem length_gridPositions (nofPrb : ℕ) (scs : Scs) (of : ℕ → ℕ → List ℕ) :
    (gridPositions nofPrb scs of).length =
      nofPrb * ((range (mbsfnNofSlots scs)).map fun s =>
        ((range (mbsfnNofSymbols scs)).map fun l => (of l s).length).sum).sum := by
  rw [gridPositions_eq]
  simp [sum_map_mul_left]

/-- The symbols that are mapped in each resource block. -/
def symbolsPerPrb : Scs → ℕ
  | .khz1p25 => 120
  | _ => 126

theorem length_dataPositions (nofPrb : ℕ) (scs : Scs) (sf : ℕ) :
    (dataPositions nofPrb 0 scs sf).length = nofPrb * symbolsPerPrb scs := by
  rw [dataPositions, gridPositions_data, length_gridPositions]
  congr 1
  cases scs with
  | khz15 | khz7p5 => rfl
  | khz1p25 =>
    have hall : ∀ offset < 4, offset = 0 ∨ offset = 3 →
        ((range 144).filter fun q => q % 6 ≠ offset).length = 120 := by
      decide +kernel
    have hoffset := refsignalMbsfnOffset_cases 0 0 sf .khz1p25
    have hlt : refsignalMbsfnOffset 0 0 sf .khz1p25 < 4 := by
      rcases hoffset with h | h
      · omega
      · rw [h]
        decide
    exact hall _ hlt hoffset

end

/-! ## The elements of the grant -/

section

variable {cell : EnbCell} {sf : DlSfCfg}

/-- The elements of a resource block in a slot that are neither control nor pilots. -/
def rePerSlot (scs : Scs) (slot : ℕ) : ℕ :=
  if scs = .khz1p25 then 120 else if slot = 0 then 66 else 60

theorem sum_rePerSlot (scs : Scs) (nofPrb : ℕ) :
    ((range (mbsfnNofSlots scs)).map fun s => nofPrb * rePerSlot scs s).sum =
      nofPrb * symbolsPerPrb scs := by
  rw [sum_map_mul_left]
  cases scs with
  | khz15 | khz7p5 | khz1p25 => rfl

theorem raReXPrb_of_scs (hsf : sf.sfType = .mbsfn) (hscs : sf.subcarrierSpacing ≠ .khz15) {slot : ℕ}
    (hslot : slot < mbsfnNofSlots sf.subcarrierSpacing) (prbIdx : ℕ) :
    raReXPrb cell sf slot prbIdx = rePerSlot sf.subcarrierSpacing slot := by
  unfold raReXPrb
  dsimp only
  rw [if_pos ⟨hsf, hscs⟩]
  revert hslot hscs
  generalize sf.subcarrierSpacing = scs
  intro hscs hslot
  cases scs with
  | khz15 => exact absurd rfl hscs
  | khz7p5 | khz1p25 =>
    revert slot
    decide

section

variable (hsf : sf.sfType = .mbsfn) (hscs : sf.subcarrierSpacing = .khz15)
  (hctrl : nofCtrlSymbols cell.nofPrb sf.cfi = 0)

include hsf hscs hctrl

theorem raReXPrb_khz15 {prbIdx : ℕ}
    (h : ¬ ((sf.tti % 10 = 0 ∨ sf.tti % 10 = 5) ∧ isMiddlePrb cell.nofPrb prbIdx)) {slot : ℕ}
    (hslot : slot < 2) : raReXPrb cell sf slot prbIdx = rePerSlot .khz15 slot := by
  unfold raReXPrb
  simp only [hsf, hscs, hctrl, h, ne_eq, not_true_eq_false, and_false, if_false, if_true, cpNsymb]
  revert slot
  decide

theorem raReXPrb_khz15_le {prbIdx : ℕ} (hports : cell.nofPorts ≤ 4) {slot : ℕ} (hslot : slot < 2) :
    raReXPrb cell sf slot prbIdx ≤ rePerSlot .khz15 slot := by
  by_cases h : (sf.tti % 10 = 0 ∨ sf.tti % 10 = 5) ∧ isMiddlePrb cell.nofPrb prbIdx
  · have hall : ∀ (ports : Fin 5) (subframe : Fin 10) (slot : Fin 2) (edge : Bool),
        subframe.val = 0 ∨ subframe.val = 5 →
        let re := raReMiddle .ext ports 0 subframe slot edge
          (if slot.val = 0 then (6 - 0) * 12 else 6 * 12)
        ((if re.2 then re.1 - 6 * (slot.val + 1) else re.1) % 2 ^ 32).toNat ≤
          rePerSlot .khz15 slot := by
      decide +kernel
    have hle := hall ⟨cell.nofPorts, by omega⟩ ⟨sf.tti % 10, by omega⟩ ⟨slot, hslot⟩
      (isEdgePrb cell.nofPrb prbIdx) h.1
    unfold raReXPrb
    simp only [hsf, hscs, hctrl, h, ne_eq, not_true_eq_false, and_false, if_false, if_true, cpNsymb,
      and_self]
    exact hle
  · exact (raReXPrb_khz15 hsf hscs hctrl h hslot).le

theorem raReXPrb_khz15_center (h : sf.tti % 10 = 0 ∨ sf.tti % 10 = 5) (hprb : 10 ≤ cell.nofPrb)
    (hmax : cell.nofPrb ≤ maxPrb) :
    raReXPrb cell sf 0 (cell.nofPrb / 2) < rePerSlot .khz15 0 := by
  have hbound : maxPrb = 110 := rfl
  have hmiddle : isMiddlePrb cell.nofPrb (cell.nofPrb / 2) := by
    simp [isMiddlePrb]
    omega
  have hedge : isEdgePrb cell.nofPrb (cell.nofPrb / 2) = false := by
    have hfirst : cell.nofPrb / 2 ≠ (cell.nofPrb / 2 + 2 ^ 32 - 3) % 2 ^ 32 := by omega
    have hlast : cell.nofPrb / 2 ≠ cell.nofPrb / 2 + 3 := by omega
    simp only [isEdgePrb, hfirst, hlast, decide_false, Bool.or_false, Bool.and_false]
  unfold raReXPrb
  simp only [hsf, hscs, hctrl, h, hmiddle, hedge, ne_eq, not_true_eq_false, and_false, if_false,
    if_true, cpNsymb, and_self]
  have hre : raReMiddle .ext cell.nofPorts 0 (sf.tti % 10) 0 false (((6 : ℕ) - (0 : ℕ)) * 12) =
      (48, true) := rfl
  rw [hre]
  decide

end

theorem pmchNofRe_eq (hsf : sf.sfType = .mbsfn) (hmbsfn : cell.mbsfnPrb = cell.nofPrb) :
    pmchNofRe cell sf =
      ((range (mbsfnNofSlots sf.subcarrierSpacing)).map fun s =>
        ((range cell.nofPrb).map fun j => raReXPrb cell sf s j).sum).sum % 2 ^ 32 := by
  unfold pmchNofRe
  rw [if_pos hsf]
  have hslot : ∀ s, ((range cell.nofPrb).map fun j =>
      if j < cell.mbsfnPrb then raReXPrb cell sf s j else 0) =
      (range cell.nofPrb).map fun j => raReXPrb cell sf s j := by
    intro s
    refine map_congr_left ?_
    intro j hj
    rw [if_pos (hmbsfn ▸ mem_range.mp hj)]
  simp only [hslot]

theorem sum_map_range_const (c n : ℕ) : ((range n).map fun _ => c).sum = n * c := by
  simp

theorem pmchNofRe_of_eq (hsf : sf.sfType = .mbsfn) (hmbsfn : cell.mbsfnPrb = cell.nofPrb)
    (hmax : cell.nofPrb ≤ maxPrb)
    (h : ∀ slot < mbsfnNofSlots sf.subcarrierSpacing, ∀ j,
      raReXPrb cell sf slot j = rePerSlot sf.subcarrierSpacing slot) :
    pmchNofRe cell sf = cell.nofPrb * symbolsPerPrb sf.subcarrierSpacing := by
  have hsum : ((range (mbsfnNofSlots sf.subcarrierSpacing)).map fun s =>
      ((range cell.nofPrb).map fun j => raReXPrb cell sf s j).sum) =
      (range (mbsfnNofSlots sf.subcarrierSpacing)).map fun s =>
        cell.nofPrb * rePerSlot sf.subcarrierSpacing s := by
    refine map_congr_left ?_
    intro s hs
    simp only [h s (mem_range.mp hs), sum_map_range_const]
  have hle : symbolsPerPrb sf.subcarrierSpacing ≤ 126 := by
    cases sf.subcarrierSpacing with
    | khz15 | khz7p5 | khz1p25 => decide
  have hbound : maxPrb = 110 := rfl
  have hmul := Nat.mul_le_mul (hbound ▸ hmax) hle
  rw [pmchNofRe_eq hsf hmbsfn, hsum, sum_rePerSlot, Nat.mod_eq_of_lt (by omega)]

/-- In subframes 0 and 5 the grant leaves out the PBCH and the synchronisation signals. -/
theorem pmchNofRe_lt (hsf : sf.sfType = .mbsfn) (hscs : sf.subcarrierSpacing = .khz15)
    (hctrl : nofCtrlSymbols cell.nofPrb sf.cfi = 0) (hmbsfn : cell.mbsfnPrb = cell.nofPrb)
    (hports : cell.nofPorts ≤ 4) (hprb : 10 ≤ cell.nofPrb) (hmax : cell.nofPrb ≤ maxPrb)
    (hsub : sf.tti % 10 = 0 ∨ sf.tti % 10 = 5) :
    pmchNofRe cell sf < cell.nofPrb * symbolsPerPrb .khz15 := by
  have hslots : range (mbsfnNofSlots .khz15) = [0, 1] := rfl
  have hfirst : ((range cell.nofPrb).map (raReXPrb cell sf 0)).sum <
      cell.nofPrb * rePerSlot .khz15 0 := by
    rw [← sum_map_range_const]
    refine sum_lt_sum _ _ ?_ ?_
    · intro j _
      exact raReXPrb_khz15_le hsf hscs hctrl hports (by decide)
    · exact ⟨cell.nofPrb / 2, mem_range.mpr (by omega),
        raReXPrb_khz15_center hsf hscs hctrl hsub hprb hmax⟩
  have hsecond : ((range cell.nofPrb).map (raReXPrb cell sf 1)).sum ≤
      cell.nofPrb * rePerSlot .khz15 1 := by
    rw [← sum_map_range_const]
    refine sum_le_sum ?_
    intro j _
    exact raReXPrb_khz15_le hsf hscs hctrl hports (by decide)
  rw [pmchNofRe_eq hsf hmbsfn, hscs, hslots, ← sum_rePerSlot, hslots]
  exact lt_of_le_of_lt (Nat.mod_le _ _) (Nat.add_lt_add_of_lt_of_le hfirst hsecond)

end

/-! ## Agreement -/

section

variable {cell : EnbCell} {sf : DlSfCfg} {α : Type}

theorem pmchEncodePut_count (symbols grid : ℕ → α) :
    (pmchEncodePut cell sf symbols grid).2 = cell.nofPrb * symbolsPerPrb sf.subcarrierSpacing := by
  rw [← length_dataPositions cell.nofPrb sf.subcarrierSpacing (sf.tti % 10)]
  exact (wrote_pmchCp cell.nofPrb 0 sf.subcarrierSpacing (sf.tti % 10)).input

theorem pmchDecodeGet_count (grid symbols : ℕ → α) : (pmchDecodeGet cell sf grid symbols).2 =
      (dataPositions cell.nofPrb (nofCtrlSymbols cell.nofPrb sf.cfi) sf.subcarrierSpacing
        (sf.tti % 10)).length := by
  unfold pmchDecodeGet
  dsimp only
  rw [pmchCp_get]
  exact (wrote_pmchCp cell.nofPrb _ sf.subcarrierSpacing (sf.tti % 10)).input

theorem pmchDecodeGet_put (hctrl : nofCtrlSymbols cell.nofPrb sf.cfi = 0) (symbols grid out : ℕ → α)
    {i : ℕ} (hi : i < cell.nofPrb * symbolsPerPrb sf.subcarrierSpacing) :
    (pmchDecodeGet cell sf (pmchEncodePut cell sf symbols grid).1 out).1 i = symbols i := by
  have hwrote := wrote_pmchCp cell.nofPrb 0 sf.subcarrierSpacing (sf.tti % 10)
  rw [← length_dataPositions cell.nofPrb sf.subcarrierSpacing (sf.tti % 10)] at hi
  unfold pmchDecodeGet pmchEncodePut
  dsimp only
  rw [hctrl, pmchCp_get]
  refine hwrote.copyBack ?_ symbols grid out hi
  rw [gridPositions_data]
  exact (pairwise_dataPositions cell.nofPrb (sf.tti % 10) sf.subcarrierSpacing).imp ne_of_lt

/-- Encoder, decoder and grant agree exactly without control symbols and, for 15 kHz, outside of the
subframes 0 and 5. -/
theorem symbols_agree_iff (hvalid : cell.isvalid = true) (hmbsfn : cell.mbsfnPrb = cell.nofPrb)
    (hsf : sf.sfType = .mbsfn) :
    SymbolsAgree cell sf ↔
      nofCtrlSymbols cell.nofPrb sf.cfi = 0 ∧
        (sf.subcarrierSpacing = .khz15 → sf.tti % 10 ≠ 0 ∧ sf.tti % 10 ≠ 5) := by
  simp only [EnbCell.isvalid, nofprbIsvalid, portidIsvalid, Bool.and_eq_true, Bool.or_eq_true,
    decide_eq_true_eq] at hvalid
  obtain ⟨⟨-, hports⟩, hprb⟩ := hvalid
  have hbound : maxPrb = 110 := rfl
  have hmax : cell.nofPrb ≤ maxPrb := by omega
  constructor
  · intro hagree
    obtain ⟨hput, hget, -⟩ := hagree ℕ id id id
    rw [pmchEncodePut_count] at hput
    rw [pmchDecodeGet_count] at hget
    have hctrl : nofCtrlSymbols cell.nofPrb sf.cfi = 0 := by
      by_contra hne
      have hlt := @dataPositions_length_lt _ sf.subcarrierSpacing (sf.tti % 10)
        (show 0 < cell.nofPrb by omega) _ (Nat.pos_of_ne_zero hne)
      rw [length_dataPositions] at hlt
      omega
    refine ⟨hctrl, ?_⟩
    intro hscs
    have hten : 10 ≤ cell.nofPrb := by
      unfold nofCtrlSymbols at hctrl
      split at hctrl
      · omega
      · omega
    by_contra hsub
    have hlt := pmchNofRe_lt hsf hscs hctrl hmbsfn hports hten hmax (by omega)
    rw [hscs] at hput
    omega
  · rintro ⟨hctrl, hsub⟩ α symbols grid out
    have hnofRe : pmchNofRe cell sf = cell.nofPrb * symbolsPerPrb sf.subcarrierSpacing := by
      refine pmchNofRe_of_eq hsf hmbsfn hmax ?_
      intro slot hslot j
      by_cases hscs : sf.subcarrierSpacing = .khz15
      · have hout : ¬ ((sf.tti % 10 = 0 ∨ sf.tti % 10 = 5) ∧ isMiddlePrb cell.nofPrb j) := by
          have hsub := hsub hscs
          omega
        rw [hscs] at hslot ⊢
        exact raReXPrb_khz15 hsf hscs hctrl hout hslot
      · exact raReXPrb_of_scs hsf hscs hslot j
    dsimp only
    rw [hnofRe, pmchEncodePut_count, pmchDecodeGet_count, hctrl, length_dataPositions]
    exact ⟨rfl, rfl, fun i hi => pmchDecodeGet_put hctrl symbols grid out hi⟩

end

theorem symbols_agree_cfi_zero : SymbolsAgree (mbmsCell 25) ⟨1, 0, .mbsfn, 0, .khz7p5⟩ :=
  (symbols_agree_iff (by decide) rfl rfl).mpr (by decide)

/-- With CFI 1 the decoder extracts nothing of a subframe of 1.25 kHz, and for 15 kHz more is mapped
than granted. -/
theorem not_symbols_agree_cfi_one : ¬ SymbolsAgree (mbmsCell 25) ⟨1, 1, .mbsfn, 0, .khz1p25⟩ ∧
      ¬ SymbolsAgree (mbmsCell 6) ⟨1, 1, .mbsfn, 0, .khz15⟩ := by
  constructor
  · intro h
    exact absurd (h ℕ id id id).2.1 (by decide +kernel)
  · intro h
    exact absurd (h ℕ id id id).1 (by decide +kernel)

end MbmsTx.Phy
