import MbmsTx.Lib.Blocks
import MbmsTx.Lib.Memory
import MbmsTx.Phy.Common

/-!
# Mapping the PMCH to the resource grid

`pmch_cp` copies symbols to the data elements of an MBSFN subframe, or back, and
`srsran_refsignal_mbsfn_put_sf` writes the pilots. The first walks two pointers through the resource
blocks and leaves out one element at each pilot; the second computes the index of each pilot from
tables of its own.

A resource block of one symbol is a block of the grid. `pmch_cp` copies the offsets of each block
that are not pilots (`dataOffsets`), in the order of the grid. For 1.25 kHz and 7.5 kHz the data and
the pilots are a partition of the grid (`pmch_partition`).
-/

namespace MbmsTx.Phy

open MbmsTx.Blocks MbmsTx.Memory List

/-! ## Tables -/

/-- `srsran_refsignal_mbsfn_rs_per_symbol`, for each resource block. -/
def refsignalMbsfnRsPerSymbol : Scs → ℕ
  | .khz1p25 => 24
  | _ => 6

/-- `srsran_refsignal_mbsfn_nof_symbols`. -/
def refsignalMbsfnNofSymbols : Scs → ℕ
  | .khz1p25 => 1
  | _ => 3

/-- `srsran_refsignal_mbsfn_fidx`. -/
def refsignalMbsfnFidx (l : ℕ) : Scs → ℕ
  | .khz15 => if l = 1 then 1 else 0
  | .khz7p5 => if l = 1 then 2 else 0
  | .khz1p25 => 0

/-- `srsran_refsignal_mbsfn_offset`. -/
def refsignalMbsfnOffset (l s sf : ℕ) : Scs → ℕ
  | .khz15 => if s = 1 ∧ l = 0 then 1 else 0
  | .khz7p5 => if s = 1 ∧ l = 0 then 2 else 0
  | .khz1p25 => if sf % 2 ≠ 0 then 3 else 0

/-- `srsran_refsignal_mbsfn_nsymbol`. -/
def refsignalMbsfnNsymbol (l : ℕ) : Scs → ℕ
  | .khz15 => if l = 0 then 2 else if l = 1 then 6 else if l = 2 then 10 else 0
  | .khz7p5 => if l = 0 then 1 else if l = 1 then 3 else if l = 2 then 5 else 0
  | .khz1p25 => 0

/-- `SRSRAN_SYMBOL_HAS_REF_MBSFN_SCS`. -/
def symbolHasRefMbsfn (l s : ℕ) : Scs → Bool
  | .khz15 => (l = 2 && s = 0) || (l = 0 && s = 1) || (l = 4 && s = 1)
  | .khz7p5 => (l = 1 && s = 0) || (l = 0 && s = 1) || (l = 2 && s = 1)
  | .khz1p25 => true

/-! ## Copying -/

/-- The two pointers, as indices, and the elements copied so far as pairs of an index of the input
and one of the output. -/
structure Copying where
  input : ℕ
  output : ℕ
  copied : List (ℕ × ℕ)
  deriving DecidableEq

namespace Copying

/-- A `memcpy` of `len` elements, with both pointers. -/
def run (c : Copying) (len : ℕ) : Copying where
  input := c.input + len
  output := c.output + len
  copied := c.copied ++ (range len).map fun i => (c.input + i, c.output + i)

/-- Set the pointer to the grid, the output of `pmch_put` and the input of `pmch_get`. -/
def seek (c : Copying) (put : Bool) (ptr : ℕ) : Copying :=
  if put then { c with output := ptr } else { c with input := ptr }

/-- Leave out a reference element. -/
def skip (c : Copying) (advanceOutput : Bool) : Copying :=
  if advanceOutput then { c with output := c.output + 1 } else { c with input := c.input + 1 }

end Copying

/-- The loop over the intervals between reference elements. -/
def prbCpIntervals (refInterval : ℕ) (advanceOutput : Bool) : ℕ → Copying → Copying
  | 0, c => c
  | k + 1, c => prbCpIntervals refInterval advanceOutput k ((c.skip advanceOutput).run refInterval)

def prbCpRefScs (c : Copying) (offset nofRefs nofIntervals : ℕ) (advanceOutput : Bool) (scs : Scs) :
    Copying :=
  let refInterval := nreScs scs / nofRefs - 1
  let c := prbCpIntervals refInterval advanceOutput (nofIntervals - 1) (c.run offset)
  if offset < refInterval then (c.skip advanceOutput).run (refInterval - offset) else c

def prbCpScs (c : Copying) (nofPrb : ℕ) (scs : Scs) : Copying := c.run (nreScs scs * nofPrb)

section

variable (nofPrb lstartGrant : ℕ) (put : Bool) (scs : Scs) (sf : ℕ)

/-- The body of `pmch_cp`: resource block `n` of symbol `l` of slot `s`. -/
def pmchCpPrb (s l n : ℕ) (c : Copying) : Copying :=
  let lstart := if s = 0 then lstartGrant else 0
  let lend := mbsfnNofSymbols scs
  let lp := l + s * mbsfnNofSymbols scs
  let ptr := (lp * nofPrb + n) * nreScs scs
  let c := c.seek put ptr
  if lstart ≤ l ∧ l < lend then
    if symbolHasRefMbsfn l s scs then
      let nofRefs := refsignalMbsfnRsPerSymbol scs
      prbCpRefScs c (refsignalMbsfnOffset l s sf scs) nofRefs nofRefs put scs
    else prbCpScs c 1 scs
  else c

/-- `pmch_cp`: the copied elements, and both pointers at the end. -/
def pmchCp : Copying :=
  (range (mbsfnNofSlots scs)).foldl (fun c s =>
    (range (mbsfnNofSymbols scs)).foldl (fun c l =>
      (range nofPrb).foldl (fun c n => pmchCpPrb nofPrb lstartGrant put scs sf s l n c) c) c)
    ⟨0, 0, []⟩

end

/-- `SRSRAN_RE_IDX_MBSFN`. -/
def reIdxMbsfn (nofPrb symbolIdx sampleIdx : ℕ) (scs : Scs) : ℕ :=
  symbolIdx * nofPrb * nreScs scs + sampleIdx

/-- Pilots that are `step` elements apart: the indices. -/
def pilotLoop (idx : ℕ → ℕ) (step : ℕ) : (count fidx : ℕ) → List ℕ
  | 0, _ => []
  | count + 1, fidx => idx fidx :: pilotLoop idx step count (fidx + step)

/-- `srsran_refsignal_mbsfn_put_sf`: the indices of the pilots in the order of writing; `none` for
invalid inputs. The offset of the cell-specific reference signal of port 0 in its first symbol is
zero. -/
def refsignalMbsfnPutSf (cell : EnbCell) (scs : Scs) (sfIdx : ℕ) : Option (List ℕ) :=
  if cell.isvalid then
    let cs :=
      if scs = .khz15 then
        pilotLoop (fun fidx => fidx) (nreScs .khz15 / 2) (2 * cell.nofPrb) (cell.id % 6 % 6)
      else []
    let step := nreScs scs / refsignalMbsfnRsPerSymbol scs
    some <| cs ++ (range (refsignalMbsfnNofSymbols scs)).flatMap fun l =>
      let fidx :=
        if scs = .khz1p25 then if sfIdx % 2 = 0 then 0 else 3 else refsignalMbsfnFidx l scs
      pilotLoop (fun fidx => reIdxMbsfn cell.nofPrb (refsignalMbsfnNsymbol l scs) fidx scs) step
        (refsignalMbsfnRsPerSymbol scs * cell.nofPrb) fidx
  else none

/-! ## Both directions copy between the same elements -/

namespace Copying

/-- Exchange the input and the output. -/
def swap (c : Copying) : Copying := ⟨c.output, c.input, c.copied.map Prod.swap⟩

theorem swap_run (c : Copying) (len : ℕ) : (c.run len).swap = c.swap.run len := by
  simp only [swap, run, map_append, map_map]
  rfl

theorem swap_seek (c : Copying) (put : Bool) (ptr : ℕ) :
    (c.seek put ptr).swap = c.swap.seek (!put) ptr := by
  cases put with
  | true => rfl
  | false => rfl

theorem swap_skip (c : Copying) (advanceOutput : Bool) :
    (c.skip advanceOutput).swap = c.swap.skip (!advanceOutput) := by
  cases advanceOutput with
  | true => rfl
  | false => rfl

end Copying

theorem swap_prbCpIntervals (refInterval k : ℕ) (advanceOutput : Bool) (c : Copying) :
    (prbCpIntervals refInterval advanceOutput k c).swap =
      prbCpIntervals refInterval (!advanceOutput) k c.swap := by
  induction k generalizing c with
  | zero => rfl
  | succ k ih =>
    rw [prbCpIntervals, prbCpIntervals, ih, Copying.swap_run, Copying.swap_skip]

theorem swap_prbCpRefScs (c : Copying) (offset nofRefs nofIntervals : ℕ) (advanceOutput : Bool)
    (scs : Scs) :
    (prbCpRefScs c offset nofRefs nofIntervals advanceOutput scs).swap =
      prbCpRefScs c.swap offset nofRefs nofIntervals (!advanceOutput) scs := by
  unfold prbCpRefScs
  dsimp only
  split
  · rw [Copying.swap_run, Copying.swap_skip, swap_prbCpIntervals, Copying.swap_run]
  · rw [swap_prbCpIntervals, Copying.swap_run]

theorem swap_pmchCpPrb (nofPrb lstartGrant : ℕ) (put : Bool) (scs : Scs) (sf s l n : ℕ)
    (c : Copying) :
    (pmchCpPrb nofPrb lstartGrant put scs sf s l n c).swap =
      pmchCpPrb nofPrb lstartGrant (!put) scs sf s l n c.swap := by
  unfold pmchCpPrb
  by_cases hmapped : (if s = 0 then lstartGrant else 0) ≤ l ∧ l < mbsfnNofSymbols scs
  · rw [if_pos hmapped, if_pos hmapped]
    split
    · rw [swap_prbCpRefScs, Copying.swap_seek]
    · rw [prbCpScs, prbCpScs, Copying.swap_run, Copying.swap_seek]
  · rw [if_neg hmapped, if_neg hmapped, Copying.swap_seek]

theorem pmchCp_get (nofPrb lstartGrant : ℕ) (scs : Scs) (sf : ℕ) :
    pmchCp nofPrb lstartGrant false scs sf = (pmchCp nofPrb lstartGrant true scs sf).swap := by
  have hstart : (⟨0, 0, []⟩ : Copying) = Copying.swap ⟨0, 0, []⟩ := rfl
  unfold pmchCp
  rw [hstart]
  refine foldl_hom Copying.swap ?_
  intro c s
  refine foldl_hom Copying.swap ?_
  intro c l
  refine foldl_hom Copying.swap ?_
  intro c n
  exact (swap_pmchCpPrb nofPrb lstartGrant true scs sf s l n c).symm

/-! ## The elements of a resource block -/

/-- The distance of the pilots of a symbol that has some. -/
def pilotStep (scs : Scs) : ℕ := nreScs scs / refsignalMbsfnRsPerSymbol scs

/-- The pilots of a symbol, as offsets in a resource block. -/
def pilotOffsets (l s sf : ℕ) (scs : Scs) : List ℕ :=
  if symbolHasRefMbsfn l s scs then
    (range (nreScs scs)).filter fun q => q % pilotStep scs = refsignalMbsfnOffset l s sf scs
  else []

/-- The other elements. -/
def dataOffsets (l s sf : ℕ) (scs : Scs) : List ℕ :=
  if symbolHasRefMbsfn l s scs then
    (range (nreScs scs)).filter fun q => q % pilotStep scs ≠ refsignalMbsfnOffset l s sf scs
  else range (nreScs scs)

theorem data_append_pilots_perm (l s sf : ℕ) (scs : Scs) :
    (dataOffsets l s sf scs ++ pilotOffsets l s sf scs).Perm (range (nreScs scs)) := by
  unfold dataOffsets pilotOffsets
  split
  · have hsplit := filter_append_perm
      (fun q => decide (q % pilotStep scs ≠ refsignalMbsfnOffset l s sf scs))
      (range (nreScs scs))
    simpa using hsplit
  simp

variable {scs : Scs}

theorem lt_of_mem_dataOffsets {l s sf q : ℕ} (hq : q ∈ dataOffsets l s sf scs) :
    q < nreScs scs := by
  apply mem_range.mp
  exact (data_append_pilots_perm l s sf scs).subset (mem_append_left _ hq)

theorem pairwise_dataOffsets (l s sf : ℕ) (scs : Scs) :
    (dataOffsets l s sf scs).Pairwise (· < ·) := by
  unfold dataOffsets
  split
  · exact pairwise_lt_range.filter _
  · exact pairwise_lt_range

/-! ## What is copied -/

namespace Copying

/-- Copy, from where the pointers are, what is copied from the start of the arrays otherwise. -/
def andThen (c d : Copying) : Copying where
  input := c.input + d.input
  output := c.output + d.output
  copied := c.copied ++ d.copied.map fun x => (c.input + x.1, c.output + x.2)

theorem andThen_start (c : Copying) : c.andThen ⟨0, 0, []⟩ = c := by
  simp [andThen]

theorem andThen_run (c d : Copying) (len : ℕ) : (c.andThen d).run len = c.andThen (d.run len) := by
  simp only [andThen, run, map_append, map_map, append_assoc, Nat.add_assoc]
  rfl

theorem andThen_skip (c d : Copying) (advanceOutput : Bool) :
    (c.andThen d).skip advanceOutput = c.andThen (d.skip advanceOutput) := by
  cases advanceOutput with
  | true => rfl
  | false => rfl

end Copying

theorem andThen_prbCpIntervals (c d : Copying) (refInterval k : ℕ) (advanceOutput : Bool) :
    prbCpIntervals refInterval advanceOutput k (c.andThen d) =
      c.andThen (prbCpIntervals refInterval advanceOutput k d) := by
  induction k generalizing d with
  | zero => rfl
  | succ k ih => rw [prbCpIntervals, prbCpIntervals, Copying.andThen_skip, Copying.andThen_run, ih]

theorem prbCpRefScs_eq_andThen (c : Copying) (offset nofRefs nofIntervals : ℕ)
    (advanceOutput : Bool) (scs : Scs) :
    prbCpRefScs c offset nofRefs nofIntervals advanceOutput scs =
      c.andThen (prbCpRefScs ⟨0, 0, []⟩ offset nofRefs nofIntervals advanceOutput scs) := by
  have hstart := c.andThen_start
  unfold prbCpRefScs
  dsimp only
  split
  · rw [← Copying.andThen_run, ← Copying.andThen_skip, ← andThen_prbCpIntervals,
      ← Copying.andThen_run, hstart]
  · rw [← andThen_prbCpIntervals, ← Copying.andThen_run, hstart]

/-- Symbols are copied in order to the positions `ps`. -/
structure Wrote (c : Copying) (ps : List ℕ) : Prop where
  input : c.input = ps.length
  copied : c.copied = ps.zipIdx.map Prod.swap

theorem Wrote.start : Wrote ⟨0, 0, []⟩ [] := ⟨rfl, rfl⟩

variable {ps : List ℕ} {c : Copying}

theorem Wrote.positions (h : Wrote c ps) : c.copied.map Prod.snd = ps := by
  rw [h.copied, map_map]
  exact zipIdx_map_fst 0 ps

theorem Wrote.symbols (h : Wrote c ps) : c.copied.map Prod.fst = range ps.length := by
  rw [h.copied, map_map]
  refine ext_getElem (by simp) ?_
  simp

theorem Wrote.mem (h : Wrote c ps) {i : ℕ} (hi : i < ps.length) : (i, ps[i]) ∈ c.copied := by
  rw [h.copied]
  exact mem_map.mpr ⟨(ps[i], i), mem_zipIdx_iff_getElem?.mpr (by simp), rfl⟩

theorem Wrote.seek (h : Wrote c ps) (ptr : ℕ) : Wrote (c.seek true ptr) ps := ⟨h.input, h.copied⟩

theorem Wrote.andThen {d : Copying} {qs : List ℕ} (h : Wrote c ps) (h' : Wrote d qs) :
    Wrote (c.andThen d) (ps ++ qs.map fun q => c.output + q) := by
  constructor
  · rw [length_append, length_map, ← h.input, ← h'.input]
    rfl
  · change c.copied ++ d.copied.map _ = _
    rw [h.copied, h'.copied, h.input, zipIdx_append, map_append, Nat.zero_add]
    congr 1
    refine ext_getElem (by simp) ?_
    simp

/-- Symbols put to different positions are found there. -/
theorem Wrote.copyBack {α : Type*} (h : Wrote c ps) (hps : ps.Nodup) (symbols grid out : ℕ → α)
    {i : ℕ} (hi : i < ps.length) :
    copyEach (copyEach symbols grid c.copied) out c.swap.copied i = symbols i := by
  have hget : (c.swap.copied.map Prod.snd).Nodup := by
    have hsymbols : c.swap.copied.map Prod.snd = c.copied.map Prod.fst := by
      rw [Copying.swap, map_map]
      rfl
    rw [hsymbols, h.symbols]
    exact nodup_range
  rw [copyEach_of_mem hget (mem_map_of_mem (h.mem hi)),
    copyEach_of_mem (by rw [h.positions]; exact hps) (h.mem hi)]

/-- The offsets copied in a resource block: none in the control region. -/
def prbData (lstartGrant l s sf : ℕ) (scs : Scs) : List ℕ :=
  if (if s = 0 then lstartGrant else 0) ≤ l ∧ l < mbsfnNofSymbols scs then dataOffsets l s sf scs
  else []

theorem wrote_run (len : ℕ) : Wrote (Copying.run ⟨0, 0, []⟩ len) (range len) := by
  refine ⟨by simp [Copying.run], ?_⟩
  refine ext_getElem (by simp [Copying.run]) ?_
  intro i _ _
  simp [Copying.run]

/-- The offset of the pilots is zero or this one. -/
def pilotShift : Scs → ℕ
  | .khz15 => 1
  | .khz7p5 => 2
  | .khz1p25 => 3

theorem refsignalMbsfnOffset_cases (l s sf : ℕ) (scs : Scs) :
    refsignalMbsfnOffset l s sf scs = 0 ∨ refsignalMbsfnOffset l s sf scs = pilotShift scs := by
  cases scs with
  | khz15 | khz7p5 | khz1p25 =>
    unfold refsignalMbsfnOffset pilotShift
    dsimp only
    split
    · exact .inr rfl
    · exact .inl rfl

theorem wrote_prbCpRefScs (scs : Scs) {offset : ℕ}
    (hoffset : offset = 0 ∨ offset = pilotShift scs) :
    Wrote
      (prbCpRefScs ⟨0, 0, []⟩ offset (refsignalMbsfnRsPerSymbol scs) (refsignalMbsfnRsPerSymbol scs)
        true scs)
      ((range (nreScs scs)).filter fun q => q % pilotStep scs ≠ offset) := by
  cases scs with
  | khz15 | khz7p5 | khz1p25 =>
    rcases hoffset with rfl | rfl
    · exact ⟨by decide +kernel, by decide +kernel⟩
    · exact ⟨by decide +kernel, by decide +kernel⟩

theorem wrote_pmchCpPrb (h : Wrote c ps) (nofPrb lstartGrant : ℕ) (scs : Scs) (sf s l n : ℕ) :
    Wrote (pmchCpPrb nofPrb lstartGrant true scs sf s l n c)
      (ps ++ (prbData lstartGrant l s sf scs).map fun q =>
        ((l + s * mbsfnNofSymbols scs) * nofPrb + n) * nreScs scs + q) := by
  have hseek := h.seek (((l + s * mbsfnNofSymbols scs) * nofPrb + n) * nreScs scs)
  unfold pmchCpPrb prbData
  by_cases hmapped : (if s = 0 then lstartGrant else 0) ≤ l ∧ l < mbsfnNofSymbols scs
  · rw [if_pos hmapped, if_pos hmapped]
    unfold dataOffsets
    split
    · rw [prbCpRefScs_eq_andThen]
      exact hseek.andThen (wrote_prbCpRefScs scs (refsignalMbsfnOffset_cases l s sf scs))
    · rw [prbCpScs, Nat.mul_one, ← Copying.andThen_start (c.seek _ _), Copying.andThen_run]
      exact hseek.andThen (wrote_run (nreScs scs))
  · rw [if_neg hmapped, if_neg hmapped, map_nil, append_nil]
    exact hseek

/-- The blocks of the grid: resource blocks of a symbol. -/
def nofBlocks (nofPrb : ℕ) (scs : Scs) : ℕ := mbsfnNofSlots scs * mbsfnNofSymbols scs * nofPrb

/-- The positions of `of l s`, for symbol `l` of slot `s`, in all resource blocks. -/
def gridPositions (nofPrb : ℕ) (scs : Scs) (of : ℕ → ℕ → List ℕ) : List ℕ :=
  laid (nreScs scs)
    (fun b => of (b / nofPrb % mbsfnNofSymbols scs) (b / nofPrb / mbsfnNofSymbols scs))
    (nofBlocks nofPrb scs)

theorem gridPositions_eq (nofPrb : ℕ) (scs : Scs) (of : ℕ → ℕ → List ℕ) :
    gridPositions nofPrb scs of =
      (range (mbsfnNofSlots scs)).flatMap fun s =>
        (range (mbsfnNofSymbols scs)).flatMap fun l =>
          (range nofPrb).flatMap fun n =>
            (of l s).map fun q =>
              ((l + s * mbsfnNofSymbols scs) * nofPrb + n) * nreScs scs + q := by
  unfold gridPositions laid nofBlocks
  rw [flatMap_range_mul, flatMap_range_mul]
  refine flatMap_congr ?_
  intro s _
  refine flatMap_congr ?_
  intro l hl
  refine flatMap_congr ?_
  intro n hn
  rw [mem_range] at hl hn
  have hblock : ((s * mbsfnNofSymbols scs + l) * nofPrb + n) / nofPrb =
      s * mbsfnNofSymbols scs + l := by
    rw [Nat.add_comm, Nat.add_mul_div_right _ _ (by omega), Nat.div_eq_of_lt hn, Nat.zero_add]
  have hslot : (s * mbsfnNofSymbols scs + l) / mbsfnNofSymbols scs = s := by
    rw [Nat.add_comm, Nat.add_mul_div_right _ _ (by omega), Nat.div_eq_of_lt hl, Nat.zero_add]
  have hsymbol : (s * mbsfnNofSymbols scs + l) % mbsfnNofSymbols scs = l := by
    rw [Nat.add_comm, Nat.add_mul_mod_self_right, Nat.mod_eq_of_lt hl]
  dsimp only
  rw [hblock, hslot, hsymbol, Nat.add_comm l]

/-- `pmch_put` copies the symbols in order to the elements of the grid that are neither pilots nor
in the control region. -/
theorem wrote_pmchCp (nofPrb lstartGrant : ℕ) (scs : Scs) (sf : ℕ) :
    Wrote (pmchCp nofPrb lstartGrant true scs sf)
      (gridPositions nofPrb scs fun l s => prbData lstartGrant l s sf scs) := by
  rw [gridPositions_eq]
  refine foldl_flatMap ?_ (range (mbsfnNofSlots scs)) Wrote.start
  intro c ps s h
  refine foldl_flatMap ?_ (range (mbsfnNofSymbols scs)) h
  intro c ps l h
  refine foldl_flatMap ?_ (range nofPrb) h
  intro c ps n h
  exact wrote_pmchCpPrb h nofPrb lstartGrant scs sf s l n

/-! ## The pilots -/

theorem pilotLoop_eq (idx : ℕ → ℕ) (step count fidx : ℕ) :
    pilotLoop idx step count fidx = (range count).map fun i => idx (fidx + i * step) := by
  induction count generalizing fidx with
  | zero => rfl
  | succ count ih =>
    rw [pilotLoop, ih, range_succ_eq_map, map_cons, map_map, Nat.zero_mul, Nat.add_zero]
    congr 1
    refine map_congr_left ?_
    intro i _
    rw [Function.comp_apply, Nat.succ_mul, Nat.add_assoc, Nat.add_comm step]

theorem pilotLoop_symbol (nofPrb nsymbol fidx : ℕ) (scs : Scs) :
    pilotLoop (fun fidx => reIdxMbsfn nofPrb nsymbol fidx scs) (pilotStep scs)
        (refsignalMbsfnRsPerSymbol scs * nofPrb) fidx =
      (range nofPrb).flatMap fun n =>
        ((range (refsignalMbsfnRsPerSymbol scs)).map fun j => fidx + j * pilotStep scs).map
          fun q => (nsymbol * nofPrb + n) * nreScs scs + q := by
  have hblock : refsignalMbsfnRsPerSymbol scs * pilotStep scs = nreScs scs := by
    cases scs with
    | khz15 | khz7p5 | khz1p25 => rfl
  rw [pilotLoop_eq, Nat.mul_comm, map_range_mul]
  refine flatMap_congr ?_
  intro n _
  rw [map_map]
  refine map_congr_left ?_
  intro j _
  calc nsymbol * nofPrb * nreScs scs +
        (fidx + (n * refsignalMbsfnRsPerSymbol scs + j) * pilotStep scs)
      = nsymbol * nofPrb * nreScs scs + n * (refsignalMbsfnRsPerSymbol scs * pilotStep scs) +
          (fidx + j * pilotStep scs) := by
        rw [Nat.add_mul, Nat.mul_assoc n]
        omega
    _ = (nsymbol * nofPrb + n) * nreScs scs + (fidx + j * pilotStep scs) := by
        rw [hblock, Nat.add_mul (nsymbol * nofPrb)]

theorem refsignalMbsfnPutSf_eq {cell : EnbCell} (hvalid : cell.isvalid) (hscs : scs ≠ .khz15)
    (sf : ℕ) :
    refsignalMbsfnPutSf cell scs sf =
      some (gridPositions cell.nofPrb scs fun l s => pilotOffsets l s sf scs) := by
  rw [refsignalMbsfnPutSf, if_pos hvalid, gridPositions_eq]
  dsimp only
  rw [if_neg hscs, nil_append]
  congr 1
  have hsymbol := pilotLoop_symbol cell.nofPrb
  unfold pilotStep at hsymbol
  simp only [hsymbol]
  have hnone : ∀ f : ℕ → ℕ → ℕ, ((range cell.nofPrb).flatMap fun n => [].map (f n)) = [] := by
    simp
  cases scs with
  | khz15 => exact absurd rfl hscs
  | khz7p5 =>
    have hslots : range (mbsfnNofSlots .khz7p5) = [0, 1] := rfl
    have hsymbols : range (mbsfnNofSymbols .khz7p5) = [0, 1, 2] := rfl
    have hrefs : range (refsignalMbsfnNofSymbols .khz7p5) = [0, 1, 2] := rfl
    have h00 : pilotOffsets 0 0 sf .khz7p5 = [] := rfl
    have h20 : pilotOffsets 2 0 sf .khz7p5 = [] := rfl
    have h11 : pilotOffsets 1 1 sf .khz7p5 = [] := rfl
    simp only [hslots, hsymbols, hrefs, flatMap_cons, flatMap_nil, h00, h20, h11, hnone,
      append_nil, nil_append]
    rfl
  | khz1p25 =>
    have hsymbols : range (mbsfnNofSymbols .khz1p25) = [0] := rfl
    have hslots : range (mbsfnNofSlots .khz1p25) = [0] := rfl
    have hrefs : range (refsignalMbsfnNofSymbols .khz1p25) = [0] := rfl
    have hpilots : pilotOffsets 0 0 sf .khz1p25 =
        (range (refsignalMbsfnRsPerSymbol .khz1p25)).map fun j =>
          (if sf % 2 = 0 then 0 else 3) +
            j * (nreScs .khz1p25 / refsignalMbsfnRsPerSymbol .khz1p25) := by
      have hoffset : refsignalMbsfnOffset 0 0 sf .khz1p25 = if sf % 2 = 0 then 0 else 3 := by
        simp only [refsignalMbsfnOffset, ne_eq, ite_not]
      unfold pilotOffsets
      rw [hoffset]
      by_cases heven : sf % 2 = 0
      · rw [if_pos heven]
        rfl
      · rw [if_neg heven]
        rfl
    simp only [hslots, hsymbols, hrefs, flatMap_cons, flatMap_nil, append_nil, hpilots]
    rfl

/-! ## The partition -/

theorem prbData_zero {l s sf : ℕ} (hl : l < mbsfnNofSymbols scs) :
    prbData 0 l s sf scs = dataOffsets l s sf scs := by
  have hstart : (if s = 0 then 0 else 0) ≤ l := by
    simp
  rw [prbData, if_pos ⟨hstart, hl⟩]

theorem mbsfnNofSymbols_pos (scs : Scs) : 0 < mbsfnNofSymbols scs := by
  cases scs with
  | khz15 | khz7p5 | khz1p25 => decide

theorem gridPositions_data (nofPrb sf : ℕ) (scs : Scs) :
    (gridPositions nofPrb scs fun l s => prbData 0 l s sf scs) =
      gridPositions nofPrb scs fun l s => dataOffsets l s sf scs := by
  refine flatMap_congr ?_
  intro b _
  dsimp only
  rw [prbData_zero (Nat.mod_lt _ (mbsfnNofSymbols_pos scs))]

theorem pairwise_dataPositions (nofPrb sf : ℕ) (scs : Scs) :
    (gridPositions nofPrb scs fun l s => dataOffsets l s sf scs).Pairwise (· < ·) :=
  pairwise_laid (fun _ _ _ hq => lt_of_mem_dataOffsets hq)
    fun _ _ => pairwise_dataOffsets _ _ sf scs

/-- What the reference signal writes: nothing, after an error. -/
def pilotsWritten (cell : EnbCell) (scs : Scs) (sf : ℕ) : List ℕ :=
  (refsignalMbsfnPutSf cell scs sf).getD []

/-- `pmch_put` and the reference signal write each element of an MBSFN subframe exactly once, and
`pmch_put` takes the symbols in order to increasing positions. -/
def Partition (cell : EnbCell) (scs : Scs) (sf : ℕ) : Prop :=
  ((pmchCp cell.nofPrb 0 true scs sf).copied.map Prod.snd ++ pilotsWritten cell scs sf).Perm
      (range (mbsfnNofSlots scs * mbsfnNofSymbols scs * cell.nofPrb * nreScs scs)) ∧
    ((pmchCp cell.nofPrb 0 true scs sf).copied.map Prod.snd).Pairwise (· < ·) ∧
    (pmchCp cell.nofPrb 0 true scs sf).copied.map Prod.fst =
      range (pmchCp cell.nofPrb 0 true scs sf).copied.length

/-- The grid is partitioned for 1.25 kHz and 7.5 kHz, in every valid cell: for others the reference
signal is not written. -/
theorem pmch_partition {cell : EnbCell} (hvalid : cell.isvalid = true) {scs : Scs}
    (hscs : scs ≠ .khz15) (sf : ℕ) : Partition cell scs sf := by
  have hwrote := wrote_pmchCp cell.nofPrb 0 scs sf
  rw [gridPositions_data] at hwrote
  have hpositions := hwrote.positions
  refine ⟨?_, ?_, ?_⟩
  · rw [hpositions, pilotsWritten, refsignalMbsfnPutSf_eq hvalid hscs sf, Option.getD_some]
    exact perm_laid fun b _ => data_append_pilots_perm _ _ sf scs
  · rw [hpositions]
    exact pairwise_dataPositions cell.nofPrb sf scs
  · rw [hwrote.symbols, hwrote.copied, length_map, length_zipIdx]

/-- A dedicated MBMS cell with so many resource blocks. -/
def mbmsCell (nofPrb : ℕ) : EnbCell where
  nofPrb := nofPrb
  phichLength := .norm
  phichResources := .r1
  mbmsDedicated := true
  additionalNonMbmsFrames := 0
  id := 1
  nofPorts := 1
  cp := .ext
  mbsfnPrb := nofPrb

theorem pmch_partition_25_prb : Partition (mbmsCell 25) .khz7p5 1 :=
  pmch_partition (by decide) (by decide) 1

/-- No pilots are written with two resource blocks. -/
theorem not_partition_2_prb : ¬ Partition (mbmsCell 2) .khz1p25 0 := by
  rintro ⟨hperm, -⟩
  exact absurd hperm.length_eq (by decide +kernel)

end MbmsTx.Phy
