import MbmsTx.Phy.Ofdm

/-!
# Symbol positions of the OFDM demodulator

Modulator and demodulator of an MBSFN subframe walk over the rows of the resource grid and the
samples of the subframe at the same time. Both walks are listed as rows with the start of their
useful part (`ofdmTxRows`, `ofdmRxSf`).

The two agree at 1.25 kHz only. At 7.5 kHz the modulator sends three symbols and the demodulator
reads six. At 15 kHz the demodulator skips a guard that the modulator does not leave.
-/

namespace MbmsTx.Phy

/-- A row of the resource grid, and where the useful part of its symbol starts. -/
structure RowStart where
  row : ℕ
  sample : ℕ
  deriving DecidableEq

/-! ## The modulator -/

/-- The rows that a symbol loop of the modulator reads, from `row` on: one for each symbol, a useful
part followed by its cyclic prefix. -/
def sentRows (row : ℕ) : List Span → List RowStart
  | useful :: _ :: spans => ⟨row, useful.start⟩ :: sentRows (row + 1) spans
  | _ => []

/-- `srsran_ofdm_tx_sf`: the rows of an MBSFN subframe. -/
def ofdmTxRows (q : Ofdm) : List RowStart :=
  sentRows 0 (ofdmTxSlotMbsfn q) ++
    (if q.cfg.subcarrierSpacing = .khz15 then sentRows q.nofSymbols (ofdmTxSlot q 1) else [])

/-! ## The demodulator -/

/-- `srsran_ofdm_set_non_mbsfn_region`. -/
def ofdmSetNonMbsfnRegion (q : Ofdm) (nonMbsfnRegion : ℕ) : Ofdm :=
  { q with nonMbsfnRegion := nonMbsfnRegion }

/-- `SRSRAN_NON_MBSFN_REGION_GUARD_LENGTH`. -/
def nonMbsfnRegionGuardLength (nonMbsfnRegion : ℤ) (symbolSz : ℕ) : ℕ :=
  if nonMbsfnRegion = 1 then cpLenExt symbolSz - cpLenNorm 0 symbolSz
  else 2 * cpLenExt symbolSz - cpLenNorm 0 symbolSz - cpLenNorm 1 symbolSz

/-- The loop of `srsran_ofdm_rx_slot_ng` and `ofdm_rx_slot_mbsfn` over `n` symbols from symbol `i`
on, which passes over `skip i` samples in front of the useful part. -/
def rxLoop (q : Ofdm) (skip : ℕ → ℕ) : (n i row input : ℕ) → List RowStart
  | 0, _, _, _ => []
  | n + 1, i, row, input =>
    ⟨row, input + skip i⟩ :: rxLoop q skip n (i + 1) (row + 1) (input + skip i + q.cfg.symbolSz)

/-- `ofdm_rx_slot`. The window offset is 0, as without the Guru DFT. -/
def ofdmRxSlot (q : Ofdm) (slotInSf : ℕ) : List RowStart :=
  let cpLen i :=
    match q.cfg.cp with
    | .norm => cpLenNorm i q.cfg.symbolSz
    | .ext => cpLenExt q.cfg.symbolSz
  rxLoop q cpLen q.nofSymbols 0 (slotInSf * q.nofSymbols) (slotInSf * q.slotSz)

/-- The samples passed over by `ofdm_rx_slot_mbsfn` in front of symbol `i`. -/
def mbsfnSkip (q : Ofdm) (i : ℕ) : ℕ :=
  (if i = q.nonMbsfnRegion then nonMbsfnRegionGuardLength q.nonMbsfnRegion q.cfg.symbolSz else 0) +
    match q.cfg.subcarrierSpacing with
    | .khz15 =>
      match q.cfg.cp with
      | .norm =>
        -- the comparison is unsigned
        if 0 ≤ q.nonMbsfnRegion ∧ q.nonMbsfnRegion ≤ i then cpLenExt q.cfg.symbolSz
        else cpLenNorm i q.cfg.symbolSz
      | .ext => cpLenExt q.cfg.symbolSz
    | _ => q.cfg.symbolSz / 4

def ofdmRxSlotMbsfn (q : Ofdm) : List RowStart :=
  rxLoop q (mbsfnSkip q) (q.nofSymbolsMbsfn * mbsfnNofSlots q.cfg.subcarrierSpacing) 0 0 0

/-- `srsran_ofdm_rx_sf` for an MBSFN subframe: the rows, in order. -/
def ofdmRxSf (q : Ofdm) : List RowStart :=
  ofdmRxSlotMbsfn q ++ (if q.nonMbsfnRegion ≠ -1 then ofdmRxSlot q 1 else [])

/-- The window of the last symbol for a row. -/
def lastWindow (rows : List RowStart) (row : ℕ) : Option ℕ :=
  (rows.reverse.find? fun r => r.row = row).map RowStart.sample

/-! ## Agreement -/

/-- Every row that the demodulator fills is sent, with its useful part where the demodulator last
took it from. -/
def PositionsAgree (tx rx : Ofdm) : Prop :=
  ∀ row window, lastWindow (ofdmRxSf rx) row = some window →
    (∃ r ∈ ofdmTxRows tx, r.row = row) ∧ ∀ r ∈ ofdmTxRows tx, r.row = row → r.sample = window

/-- All cyclic prefixes have a whole number of samples. -/
def PrefixesIntegral (symbolSz : ℕ) : Prop :=
  2048 ∣ 160 * symbolSz ∧ 2048 ∣ 144 * symbolSz ∧ 2048 ∣ 512 * symbolSz

/-- An object for MBSFN subframes, with the non-MBSFN region set for 15 kHz. -/
def mbsfnObject (standard : Bool) (nofPrb symbolSz : ℕ) (cp : Cp) (scs : Scs) (region : ℕ) :
    Option Ofdm := do
  let q ← ofdmInitMbsfn standard zeroedOfdm
    { nofPrb := nofPrb
      cp := cp
      sfType := .mbsfn
      freqShift := false
      symbolSz := symbolSz
      subcarrierSpacing := scs }
  if scs = .khz15 then some (ofdmSetNonMbsfnRegion q region) else some q

/-- What decides the positions in an object for MBSFN subframes. -/
structure MbsfnFields (symbolSz : ℕ) (cp : Cp) (scs : Scs) (region : ℕ) (q : Ofdm) : Prop where
  symbolSz_eq : q.cfg.symbolSz = symbolSz
  cp_eq : q.cfg.cp = cp
  scs_eq : q.cfg.subcarrierSpacing = scs
  nofSymbols_eq : q.nofSymbols = cpNsymb cp
  nofSymbolsMbsfn_eq : q.nofSymbolsMbsfn = mbsfnNofSymbols scs
  slotSz_eq : q.slotSz = slotLen symbolSz
  region_eq : q.nonMbsfnRegion = if scs = .khz15 then (region : ℤ) else -1

section Positions

variable {standard : Bool} {nofPrb symbolSz region : ℕ} {cp : Cp} {scs : Scs} {q : Ofdm}

theorem mbsfnFields_of_mbsfnObject (hpos : 0 < symbolSz)
    (hq : mbsfnObject standard nofPrb symbolSz cp scs region = some q) :
    MbsfnFields symbolSz cp scs region q := by
  obtain ⟨q', hinit, hq⟩ := Option.bind_eq_some_iff.1 hq
  simp [ofdmInitMbsfn, hpos.ne', zeroedOfdm, dftPlan] at hinit
  cases scs <;> simp at hq <;> subst hq <;> subst hinit <;>
    exact ⟨rfl, rfl, rfl, rfl, rfl, rfl, rfl⟩

theorem positionsAgree_khz1p25 (hq : MbsfnFields symbolSz cp .khz1p25 region q) :
    PositionsAgree q q := by
  have hsent : ofdmTxRows q = [⟨0, symbolSz / 4⟩] := by
    simp [ofdmTxRows, ofdmTxSlotMbsfn, hq.scs_eq, hq.nofSymbolsMbsfn_eq, mbsfnNofSymbols,
      symbolLoop, sentRows, mbsfnCpLen, hq.symbolSz_eq]
  have hread : ofdmRxSf q = [⟨0, symbolSz / 4⟩] := by
    simp [ofdmRxSf, ofdmRxSlotMbsfn, hq.scs_eq, hq.nofSymbolsMbsfn_eq, mbsfnNofSymbols,
      mbsfnNofSlots, rxLoop, mbsfnSkip, hq.region_eq, hq.symbolSz_eq]
  intro row window hwindow
  rw [hread] at hwindow
  simp only [lastWindow, List.reverse_singleton, Option.map_eq_some_iff,
    List.find?_eq_some_iff_append, decide_eq_true_eq] at hwindow
  obtain ⟨r, ⟨hrow, before, after, heq, _⟩, hsample⟩ := hwindow
  have hr : r ∈ [(⟨0, symbolSz / 4⟩ : RowStart)] := by simp [heq]
  rw [List.mem_singleton] at hr
  simp [hsent, ← hrow, ← hsample, hr]

theorem not_positionsAgree_khz7p5 (hq : MbsfnFields symbolSz cp .khz7p5 region q) :
    ¬ PositionsAgree q q := by
  intro hagree
  obtain ⟨⟨r, hr, hrow⟩, -⟩ := hagree 3 _ (by
    simp [ofdmRxSf, ofdmRxSlotMbsfn, hq.scs_eq, hq.nofSymbolsMbsfn_eq, mbsfnNofSymbols,
      mbsfnNofSlots, rxLoop, hq.region_eq, lastWindow]
    rfl)
  simp only [ofdmTxRows, ofdmTxSlotMbsfn, hq.scs_eq, hq.nofSymbolsMbsfn_eq, mbsfnNofSymbols,
    symbolLoop, sentRows, reduceCtorEq, if_false, List.append_nil, List.mem_cons,
    List.not_mem_nil] at hr
  rcases hr with rfl | rfl | rfl | hr
  · exact absurd hrow (by decide : 0 ≠ 3)
  · exact absurd hrow (by decide : 1 ≠ 3)
  · exact absurd hrow (by decide : 2 ≠ 3)
  · exact hr

theorem cpLen_eq {c u : ℕ} (hc : 16 ∣ c) : cpLen (128 * u) c = c / 16 * u := by
  obtain ⟨k, rfl⟩ := hc
  have hmul : 16 * k * (128 * u) = 2048 * (k * u) := by
    rw [Nat.mul_mul_mul_comm]
  rw [cpLen, Nat.mul_div_cancel_left k (by decide), hmul]
  omega

/-- The rows 1 and 2: the second slot writes to later rows. -/
theorem lastWindow_khz15 (hq : MbsfnFields symbolSz cp .khz15 region q) :
    lastWindow (ofdmRxSf q) 1 = some (mbsfnSkip q 0 + symbolSz + mbsfnSkip q 1) ∧
      lastWindow (ofdmRxSf q) 2 =
        some (mbsfnSkip q 0 + symbolSz + mbsfnSkip q 1 + symbolSz + mbsfnSkip q 2) := by
  cases cp <;>
    simp [ofdmRxSf, ofdmRxSlotMbsfn, ofdmRxSlot, hq.scs_eq, hq.nofSymbolsMbsfn_eq,
      mbsfnNofSymbols, mbsfnNofSlots, rxLoop, hq.region_eq, lastWindow, hq.nofSymbols_eq, cpNsymb,
      hq.symbolSz_eq]

theorem mem_ofdmTxRows_khz15 (hq : MbsfnFields symbolSz cp .khz15 region q) :
    ⟨1, mbsfnCpLen q 0 + symbolSz + mbsfnCpLen q 1⟩ ∈ ofdmTxRows q ∧
      ⟨2, mbsfnCpLen q 0 + symbolSz + mbsfnCpLen q 1 + symbolSz + mbsfnCpLen q 2⟩ ∈
        ofdmTxRows q := by
  simp [ofdmTxRows, ofdmTxSlotMbsfn, hq.scs_eq, hq.nofSymbolsMbsfn_eq, mbsfnNofSymbols, cpNsymb,
    symbolLoop, sentRows, hq.symbolSz_eq]
  omega

theorem not_positionsAgree_khz15 (hpos : 0 < symbolSz) (hsz : PrefixesIntegral symbolSz)
    (hregion : region = 1 ∨ region = 2) (hq : MbsfnFields symbolSz cp .khz15 region q) :
    ¬ PositionsAgree q q := by
  obtain ⟨u, rfl⟩ : 128 ∣ symbolSz := by
    have h := hsz.2.1
    omega
  have hcp0 : cpLen (128 * u) 160 = 10 * u := cpLen_eq (by decide)
  have hcp : cpLen (128 * u) 144 = 9 * u := cpLen_eq (by decide)
  have hext : cpLen (128 * u) 512 = 32 * u := cpLen_eq (by decide)
  obtain ⟨hread1, hread2⟩ := lastWindow_khz15 hq
  obtain ⟨hsent1, hsent2⟩ := mem_ofdmTxRows_khz15 hq
  intro hagree
  rcases hregion with rfl | rfl
  on_goal 1 => have hsample := (hagree 1 _ hread1).2 _ hsent1 rfl
  on_goal 2 => have hsample := (hagree 2 _ hread2).2 _ hsent2 rfl
  all_goals
    cases cp <;>
      simp [mbsfnCpLen, mbsfnSkip, hq.scs_eq, hq.cp_eq, hq.region_eq, hq.symbolSz_eq,
        nonMbsfnRegionGuardLength, cpLenExt, cpLenNorm, hcp0, hcp, hext] at hsample <;>
      omega

/-- The transmitter and the receiver of one configuration, for a symbol size with prefixes of a
whole number of samples, have their symbols at the same positions exactly if the subcarrier spacing
is 1.25 kHz. -/
theorem positionsAgree_iff (hpos : 0 < symbolSz) (hsz : PrefixesIntegral symbolSz)
    (hregion : region = 1 ∨ region = 2)
    (hq : mbsfnObject standard nofPrb symbolSz cp scs region = some q) :
    PositionsAgree q q ↔ scs = .khz1p25 := by
  have hfields := mbsfnFields_of_mbsfnObject hpos hq
  cases scs with
  | khz15 => simp [not_positionsAgree_khz15 hpos hsz hregion hfields]
  | khz7p5 => simp [not_positionsAgree_khz7p5 hfields]
  | khz1p25 => simp [positionsAgree_khz1p25 hfields]

end Positions

theorem positionsAgree_12288 :
    ∃ q, mbsfnObject true 25 12288 .ext .khz1p25 1 = some q ∧ PositionsAgree q q := by
  have hq := (Option.some_get (x := mbsfnObject true 25 12288 .ext .khz1p25 1) (by decide)).symm
  exact ⟨_, hq, (positionsAgree_iff (by decide) ⟨by decide, by decide, by decide⟩ (.inl rfl)
    hq).2 rfl⟩

/-- With six resource blocks at 15 kHz the row 1 is sent 22 samples before its window; at 7.5 kHz
the row 3 is read, but not sent. -/
theorem not_positionsAgree_khz15_khz7p5 :
    (∃ q, mbsfnObject true 6 128 .ext .khz15 1 = some q ∧ ¬ PositionsAgree q q ∧
      lastWindow (ofdmRxSf q) 1 = some 214 ∧ ⟨1, 192⟩ ∈ ofdmTxRows q) ∧
      ∃ q, mbsfnObject true 6 256 .ext .khz7p5 1 = some q ∧ ¬ PositionsAgree q q ∧
        lastWindow (ofdmRxSf q) 3 = some 1024 ∧ ∀ r ∈ ofdmTxRows q, r.row ≠ 3 := by
  have hread : lastWindow (ofdmRxSf ((mbsfnObject true 6 128 .ext .khz15 1).get rfl)) 1 =
      some 214 := by
    decide
  have hsent : ⟨1, 192⟩ ∈ ofdmTxRows ((mbsfnObject true 6 128 .ext .khz15 1).get rfl) := by
    decide
  have hread' : lastWindow (ofdmRxSf ((mbsfnObject true 6 256 .ext .khz7p5 1).get rfl)) 3 =
      some 1024 := by
    decide
  have hsent' : ∀ r ∈ ofdmTxRows ((mbsfnObject true 6 256 .ext .khz7p5 1).get rfl), r.row ≠ 3 := by
    decide
  refine ⟨⟨_, (Option.some_get rfl).symm, ?_, hread, hsent⟩,
    _, (Option.some_get rfl).symm, ?_, hread', hsent'⟩
  · intro hagree
    exact absurd ((hagree 1 214 hread).2 _ hsent rfl) (by decide)
  · intro hagree
    obtain ⟨⟨r, hr, hrow⟩, -⟩ := hagree 3 1024 hread'
    exact hsent' r hr hrow

end MbmsTx.Phy
