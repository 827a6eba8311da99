import Mathlib.Algebra.BigOperators.Intervals
import Mathlib.Algebra.Group.Action.Defs
import MbmsTx.Phy.Common

/-!
# Samples written by the OFDM modulator

`ofdmTxSf` turns the resource grid of a subframe into samples. What matters here is which samples it
writes, so a run is the list of the spans written.

The symbol loop advances by a symbol and its cyclic prefix and writes an interval without gaps
(`written_symbolLoop`). Its length follows from the symbol size of the MBSFN subcarrier spacing,
whereas the radio takes `sfLenPrb` samples, by the 15 kHz symbol size of the rate mode. They agree
for 1.25 kHz up to 75 resource blocks at standard rates, and up to 15 at reduced ones; for 7.5 kHz
the loop runs over the three symbols of one slot only.
-/

namespace MbmsTx.Phy

open Option

/-! ## The modulator object -/

/-- The fields of `srsran_ofdm_cfg_t` that decide what is written. `freqShift` says that
`freq_shift_f` is a normal number. -/
structure OfdmCfg where
  nofPrb : ℕ
  cp : Cp
  sfType : SfType
  freqShift : Bool
  symbolSz : ℕ
  subcarrierSpacing : Scs
  deriving DecidableEq

/-- The fields of `srsran_ofdm_t` that the transmitter uses. The DFT plan is its size and the size
it was created with. -/
structure Ofdm where
  cfg : OfdmCfg
  fftSize : ℕ
  fftInitSize : ℕ
  maxPrb : ℕ
  nofSymbols : ℕ
  nofGuards : ℕ
  nofRe : ℕ
  slotSz : ℕ
  sfSz : ℕ
  mbsfnSubframe : Bool
  nofSymbolsMbsfn : ℕ
  nonMbsfnRegion : ℤ
  deriving DecidableEq

/-- `srsran_dft_replan`, or without a plan `srsran_dft_plan_c`: the new size of the plan and the
size it was created with. -/
def dftPlan (fftSize fftInitSize newSize : ℕ) : Option (ℕ × ℕ) :=
  if fftSize ≠ 0 then
    if newSize ≤ fftInitSize then some (newSize, fftInitSize) else none
  else some (newSize, newSize)

def ofdmInitMbsfn (standard : Bool) (q : Ofdm) (cfg : OfdmCfg) : Option Ofdm := do
  let symbolSz ←
    if cfg.symbolSz = 0 then symbolSzScs standard cfg.nofPrb cfg.subcarrierSpacing
    else some cfg.symbolSz
  let cfg := { cfg with symbolSz := symbolSz }
  if q.cfg = cfg then some q
  else
    -- an object that is already initialised only takes over the resizing parameters
    let qcfg :=
      if q.maxPrb > 0 then
        { q.cfg with
            cp := cfg.cp
            nofPrb := cfg.nofPrb
            symbolSz := cfg.symbolSz
            subcarrierSpacing := cfg.subcarrierSpacing }
      else cfg
    let nofRe := cfg.nofPrb * nreScs qcfg.subcarrierSpacing
    let (fftSize, fftInitSize) ← dftPlan q.fftSize q.fftInitSize qcfg.symbolSz
    some
      { cfg := qcfg
        fftSize := fftSize
        fftInitSize := fftInitSize
        maxPrb := if qcfg.nofPrb > q.maxPrb then cfg.nofPrb else q.maxPrb
        nofSymbols := cpNsymb qcfg.cp
        nofGuards := (qcfg.symbolSz + 2 ^ 32 - nofRe) % 2 ^ 32 / 2
        nofRe := nofRe
        slotSz := slotLen qcfg.symbolSz
        sfSz := sfLen qcfg.symbolSz
        mbsfnSubframe := qcfg.sfType = .mbsfn
        nofSymbolsMbsfn := mbsfnNofSymbols qcfg.subcarrierSpacing
        nonMbsfnRegion := if qcfg.subcarrierSpacing = .khz15 then 1 else -1 }

/-- `srsran_ofdm_tx_set_prb_scs`. -/
def ofdmTxSetPrbScs (standard : Bool) (q : Ofdm) (cp : Cp) (nofPrb : ℕ) (scs : Scs) :
    Option Ofdm :=
  ofdmInitMbsfn standard q
    { nofPrb := nofPrb
      cp := cp
      sfType := .norm
      freqShift := false
      symbolSz := 0
      subcarrierSpacing := scs }

/-- An object before its initialisation. -/
def zeroedOfdm : Ofdm where
  cfg :=
    { nofPrb := 0
      cp := .norm
      sfType := .norm
      freqShift := false
      symbolSz := 0
      subcarrierSpacing := .khz15 }
  fftSize := 0
  fftInitSize := 0
  maxPrb := 0
  nofSymbols := 0
  nofGuards := 0
  nofRe := 0
  slotSz := 0
  sfSz := 0
  mbsfnSubframe := false
  nofSymbolsMbsfn := 0
  nonMbsfnRegion := 0

/-- The MBSFN object of `srsran_enb_dl_init`, for the largest symbol size. -/
def enbDlInitIfftMbsfn (standard : Bool) (maxPrb : ℕ) : Option Ofdm := do
  let symbolSz ← symbolSzScs standard maxPrb .khz1p25
  ofdmInitMbsfn standard zeroedOfdm
    { nofPrb := maxPrb
      cp := .ext
      sfType := .mbsfn
      freqShift := false
      symbolSz := symbolSz
      subcarrierSpacing := .khz1p25 }

/-! ## The symbol loops -/

/-- Samples of the output buffer, from `start` on. -/
structure Span where
  start : ℕ
  length : ℕ
  deriving DecidableEq

/-- The loop of `ofdm_tx_slot` and `ofdm_tx_slot_mbsfn` over `n` symbols from symbol `i` on: the
inverse DFT writes the useful part behind the room for the cyclic prefix, which is then copied
there. -/
def symbolLoop (q : Ofdm) (cpLen : ℕ → ℕ) : (n i output : ℕ) → List Span
  | 0, _, _ => []
  | n + 1, i, output =>
    ⟨output + cpLen i, q.fftSize⟩ :: ⟨output, cpLen i⟩ ::
      symbolLoop q cpLen n (i + 1) (output + (q.cfg.symbolSz + cpLen i))

def ofdmTxSlot (q : Ofdm) (slotInSf : ℕ) : List Span :=
  let cpLen i :=
    match q.cfg.cp with
    | .norm => cpLenNorm i q.cfg.symbolSz
    | .ext => cpLenExt q.cfg.symbolSz
  symbolLoop q cpLen q.nofSymbols 0 (slotInSf * q.slotSz)

/-- The cyclic prefix of symbol `i` in `ofdm_tx_slot_mbsfn`. -/
def mbsfnCpLen (q : Ofdm) (i : ℕ) : ℕ :=
  match q.cfg.subcarrierSpacing with
  | .khz15 =>
    match q.cfg.cp with
    | .norm =>
      -- the comparison is unsigned, so no symbol exceeds a region below 1
      if 0 ≤ q.nonMbsfnRegion - 1 ∧ q.nonMbsfnRegion - 1 < i then cpLenExt q.cfg.symbolSz
      else cpLenNorm i q.cfg.symbolSz
    | .ext => cpLenExt q.cfg.symbolSz
  | _ => q.cfg.symbolSz / 4

/-- `ofdm_tx_slot_mbsfn`, to the start of the output buffer. -/
def ofdmTxSlotMbsfn (q : Ofdm) : List Span :=
  symbolLoop q (mbsfnCpLen q) q.nofSymbolsMbsfn 0 0

/-- `srsran_ofdm_tx_sf`: the spans it writes. -/
def ofdmTxSf (q : Ofdm) : List Span :=
  (if q.mbsfnSubframe then
    ofdmTxSlotMbsfn q ++ (if q.cfg.subcarrierSpacing = .khz15 then ofdmTxSlot q 1 else [])
  else ofdmTxSlot q 0 ++ ofdmTxSlot q 1) ++ (if q.cfg.freqShift then [⟨0, q.sfSz⟩] else [])

/-- Sample `n` is written by one of the spans. -/
def Written (spans : List Span) (n : ℕ) : Prop :=
  ∃ span ∈ spans, span.start ≤ n ∧ n < span.start + span.length

instance (spans : List Span) (n : ℕ) : Decidable (Written spans n) :=
  inferInstanceAs (Decidable (∃ span ∈ spans, _))

/-! ## The interval written -/

@[simp] theorem not_written_nil (n : ℕ) : ¬ Written [] n := by
  simp [Written]

@[simp] theorem written_cons (span : Span) (spans : List Span) (n : ℕ) : Written (span :: spans) n ↔
      (span.start ≤ n ∧ n < span.start + span.length) ∨ Written spans n := by
  simp [Written]

@[simp] theorem written_append (spans spans' : List Span) (n : ℕ) :
    Written (spans ++ spans') n ↔ Written spans n ∨ Written spans' n := by
  simp [Written, or_and_right, exists_or]

/-- The symbol loop writes an interval: a useful part and a cyclic prefix for each symbol. -/
theorem written_symbolLoop (q : Ofdm) (cpLen : ℕ → ℕ) (hfft : q.fftSize = q.cfg.symbolSz)
    (n i output sample : ℕ) :
    Written (symbolLoop q cpLen n i output) sample ↔
      output ≤ sample ∧
        sample < output + ∑ j ∈ Finset.range n, (q.cfg.symbolSz + cpLen (i + j)) := by
  induction n generalizing i output with
  | zero => simp [symbolLoop]
  | succ n ih =>
    have hsum : ∑ j ∈ Finset.range (n + 1), (q.cfg.symbolSz + cpLen (i + j)) =
        (q.cfg.symbolSz + cpLen i) +
          ∑ j ∈ Finset.range n, (q.cfg.symbolSz + cpLen (i + 1 + j)) := by
      rw [Finset.sum_range_succ', add_comm]
      simp [add_comm, add_left_comm]
    rw [symbolLoop, written_cons, written_cons, ih, hsum, hfft]
    simp only
    omega

theorem ofdmTxSetPrbScs_eq_some {standard : Bool} {q q' : Ofdm} {cp : Cp} {nofPrb : ℕ} {scs : Scs}
    (hq : q.cfg.sfType = .mbsfn) (hmax : 0 < q.maxPrb)
    (hset : ofdmTxSetPrbScs standard q cp nofPrb scs = some q') :
    symbolSzScs standard nofPrb scs = some q'.cfg.symbolSz ∧
      q'.fftSize = q'.cfg.symbolSz ∧ q'.sfSz = sfLen q'.cfg.symbolSz ∧
      q'.cfg.subcarrierSpacing = scs ∧ q'.cfg.freqShift = q.cfg.freqShift ∧
      q'.mbsfnSubframe ∧ q'.nofSymbolsMbsfn = mbsfnNofSymbols scs := by
  simp only [ofdmTxSetPrbScs, ofdmInitMbsfn, if_true, bind_eq_bind, bind_eq_some_iff] at hset
  obtain ⟨symbolSz, hsymbolSz, hset⟩ := hset
  -- the configuration passed in has the ordinary subframe type, so it is never the stored one
  rw [if_neg (by rintro heq; simp [heq] at hq), if_pos hmax] at hset
  simp only [bind_eq_some_iff, some.injEq, Prod.exists] at hset
  obtain ⟨fftSize, fftInitSize, hplan, rfl⟩ := hset
  have hfft : fftSize = symbolSz := by
    unfold dftPlan at hplan
    grind
  exact ⟨hsymbolSz, hfft, rfl, rfl, rfl, by simp [hq], rfl⟩

theorem written_ofdmTxSf_mbsfn {q : Ofdm} (hmbsfn : q.mbsfnSubframe)
    (hscs : q.cfg.subcarrierSpacing ≠ .khz15) (hfft : q.fftSize = q.cfg.symbolSz) (sample : ℕ) :
    Written (ofdmTxSf q) sample ↔
      sample < q.nofSymbolsMbsfn * (q.cfg.symbolSz + q.cfg.symbolSz / 4) ∨
        (q.cfg.freqShift ∧ sample < q.sfSz) := by
  have hcp : ∀ i, mbsfnCpLen q i = q.cfg.symbolSz / 4 := by
    intro i
    unfold mbsfnCpLen
    simp
  have hloop := written_symbolLoop q (mbsfnCpLen q) hfft q.nofSymbolsMbsfn 0 0 sample
  simp only [hcp, Finset.sum_const, Finset.card_range, smul_eq_mul, zero_add,
    zero_le, true_and] at hloop
  rw [ofdmTxSf, if_pos hmbsfn, if_neg hscs, List.append_nil, written_append, ofdmTxSlotMbsfn, hloop]
  cases q.cfg.freqShift <;> simp

/-- The MBSFN symbols fill the subframe of the radio only at 1.25 kHz, up to 75 resource blocks at
standard rates and up to 15 at reduced ones. -/
theorem mbsfn_symbols_eq_sfLen_iff {standard : Bool} {nofPrb sz len : ℕ} {scs : Scs}
    (hscs : scs ≠ .khz15) (hsz : symbolSzScs standard nofPrb scs = some sz)
    (hlen : sfLenPrb standard nofPrb = some len) :
    len < sfLen sz ∧ (mbsfnNofSymbols scs * (sz + sz / 4) = len ↔
      scs = .khz1p25 ∧ nofPrb ≤ if standard then 75 else 15) := by
  have hpos : ¬ nofPrb ≤ 0 := by
    intro h
    simp [symbolSzScs, h] at hsz
  simp only [sfLenPrb, symbolSz, symbolSzScs, if_neg hpos, map_eq_some_iff] at hsz hlen
  obtain ⟨sz15, hsz15, rfl⟩ := hlen
  cases scs with
  | khz15 => exact absurd rfl hscs
  | khz7p5 =>
    cases standard <;>
      simp only [symbolSzPower2, symbolSzTable, mbsfnNofSymbols, sfLen, if_true,
        Bool.false_eq_true, if_false, reduceCtorEq, false_and, iff_false] at hsz hsz15 ⊢ <;>
      grind
  | khz1p25 =>
    cases standard <;>
      simp only [symbolSzPower2, symbolSzTable, mbsfnNofSymbols, sfLen, if_true,
        Bool.false_eq_true, if_false, true_and] at hsz hsz15 ⊢ <;>
      grind

/-- An MBSFN object configured for a FeMBMS subcarrier spacing writes exactly the samples of the
subframe that the radio takes, no more and no fewer, exactly when the spacing is 1.25 kHz, the two
symbol sizes of the bandwidth fit together, and no frequency shift is applied. -/
theorem ofdmTxSf_fills_subframe_iff (standard : Bool) (q q' : Ofdm) (cp : Cp) (nofPrb : ℕ)
    (scs : Scs) (hscs : scs ≠ .khz15) (hprb : 1 ≤ nofPrb ∧ nofPrb ≤ maxPrb)
    (hq : q.cfg.sfType = .mbsfn) (hmax : 0 < q.maxPrb)
    (hset : ofdmTxSetPrbScs standard q cp nofPrb scs = some q') :
    (∃ len, sfLenPrb standard nofPrb = some len ∧
        ∀ sample, Written (ofdmTxSf q') sample ↔ sample < len) ↔
      q.cfg.freqShift = false ∧ scs = .khz1p25 ∧ nofPrb ≤ if standard then 75 else 15 := by
  obtain ⟨hsz, hfft, hsfSz, hspacing, hshift, hmbsfn, hnsymb⟩ :=
    ofdmTxSetPrbScs_eq_some hq hmax hset
  obtain ⟨len, hlen⟩ : ∃ len, sfLenPrb standard nofPrb = some len := by
    have hle : nofPrb ≤ 110 := hprb.2
    unfold sfLenPrb symbolSz symbolSzScs symbolSzPower2 symbolSzTable
    rw [if_neg (by omega)]
    cases standard <;> grind
  obtain ⟨hlt, hfits⟩ := mbsfn_symbols_eq_sfLen_iff hscs hsz hlen
  have hwritten := written_ofdmTxSf_mbsfn hmbsfn (hspacing ▸ hscs) hfft
  simp only [hlen, some.injEq, exists_eq_left', hwritten, hnsymb, hsfSz, hshift]
  cases hshift' : q.cfg.freqShift with
  | false =>
    have hinterval : (∀ sample, sample < mbsfnNofSymbols scs *
        (q'.cfg.symbolSz + q'.cfg.symbolSz / 4) ↔ sample < len) ↔ _ :=
      ⟨eq_of_forall_lt_iff, fun h => by simp [h]⟩
    simpa using hinterval.trans hfits
  | true =>
    -- the frequency shift multiplies fifteen MBSFN symbols in place, beyond the subframe
    simp only [true_and, Bool.true_eq_false, false_and, iff_false, not_forall]
    exact ⟨len, by omega⟩

theorem ofdmTxSf_fills_subframe_50_prb : ∃ q q', enbDlInitIfftMbsfn true 50 = some q ∧
      ofdmTxSetPrbScs true q .ext 50 .khz1p25 = some q' ∧
      ∃ len, sfLenPrb true 50 = some len ∧
        ∀ sample, Written (ofdmTxSf q') sample ↔ sample < len := by
  let q := (enbDlInitIfftMbsfn true 50).get (by decide)
  let q' := (ofdmTxSetPrbScs true q .ext 50 .khz1p25).get (by decide)
  have hset : ofdmTxSetPrbScs true q .ext 50 .khz1p25 = some q' := (some_get _).symm
  refine ⟨q, q', (some_get _).symm, hset, ?_⟩
  exact (ofdmTxSf_fills_subframe_iff true q q' .ext 50 .khz1p25 (by decide) (by decide)
    (by decide) (by decide) hset).2 (by decide)

/-- At 100 resource blocks the table entry `24567` is nine short of a 1.25 kHz symbol, so the last
samples of the subframe keep their content. -/
theorem ofdmTxSf_100_prb_last_sample_not_written : ∃ q q', enbDlInitIfftMbsfn true 100 = some q ∧
      ofdmTxSetPrbScs true q .ext 100 .khz1p25 = some q' ∧
      sfLenPrb true 100 = some 30720 ∧ ¬ Written (ofdmTxSf q') 30719 := by
  let q := (enbDlInitIfftMbsfn true 100).get (by decide)
  let q' := (ofdmTxSetPrbScs true q .ext 100 .khz1p25).get (by decide)
  exact ⟨q, q', (some_get _).symm, (some_get _).symm, by decide, by decide⟩

end MbmsTx.Phy
