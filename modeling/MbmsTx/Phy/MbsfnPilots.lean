import Mathlib.Data.Int.Notation
import MbmsTx.Phy.PmchMapping

/-!
# The MBSFN reference sequence

`srsran_refsignal_mbsfn_gen_seq` takes the pilots from a sequence for the largest bandwidth, so that
the middles agree. It leaves out three references for each missing resource block, which is half of
the references of a symbol for 15 kHz and 7.5 kHz, but not for 1.25 kHz.
-/

namespace MbmsTx.Phy

/-- `srsran_symbols_per_mbsfn_subframe`. -/
def symbolsPerMbsfnSubframe : Scs → ℕ
  | .khz15 => 6
  | .khz7p5 => 3
  | .khz1p25 => 1

/-- `SRSRAN_REFSIGNAL_NUM_SF_MBSFN`. -/
def refsignalNumSfMbsfn (nofPrb : ℕ) (scs : Scs) : ℕ :=
  ((if scs = .khz15 then 2 else 0) +
    refsignalMbsfnNofSymbols scs * refsignalMbsfnRsPerSymbol scs) * nofPrb

/-- Where a pilot is stored, and what it is made of: the bits `2 * mp` and `2 * mp + 1` of the
sequence of a seed. -/
structure MbsfnPilot where
  idx : ℕ
  cInit : BitVec 32
  mp : ℕ

/-- The body of the loops of `srsran_refsignal_mbsfn_gen_seq`. -/
def refsignalMbsfnGenSeq (nofPrb nMbsfnId : ℕ) (scs : Scs) (ns l i : ℕ) : MbsfnPilot :=
  let lp := refsignalMbsfnNsymbol l scs % symbolsPerMbsfnSubframe scs
  let slot := if l ≠ 0 then ns * 2 + 1 else ns * 2
  { idx := refsignalMbsfnRsPerSymbol scs * nofPrb * l + i
    cInit := BitVec.ofNat 32 (512 * (7 * ((if scs = .khz1p25 then ns else slot) + 1) +
      (if scs = .khz1p25 then l else lp) + 1) * (2 * nMbsfnId + 1) + nMbsfnId)
    mp := i + 3 * (maxPrb - nofPrb) }

/-- A reference at the same offset from the middle of two bandwidths is made of the same bits, and
these are in the generated part of the sequence. -/
structure Centred (scs : Scs) (n₁ n₂ : ℕ) : Prop where
  same : ∀ nMbsfnId ns l i₁ i₂, l < refsignalMbsfnNofSymbols scs →
    i₁ < refsignalMbsfnRsPerSymbol scs * n₁ → i₂ < refsignalMbsfnRsPerSymbol scs * n₂ →
    (i₁ - (refsignalMbsfnRsPerSymbol scs * n₁ / 2 : ℕ) : ℤ) =
      i₂ - (refsignalMbsfnRsPerSymbol scs * n₂ / 2 : ℕ) →
    (refsignalMbsfnGenSeq n₁ nMbsfnId scs ns l i₁).cInit =
      (refsignalMbsfnGenSeq n₂ nMbsfnId scs ns l i₂).cInit ∧
    (refsignalMbsfnGenSeq n₁ nMbsfnId scs ns l i₁).mp =
      (refsignalMbsfnGenSeq n₂ nMbsfnId scs ns l i₂).mp
  generated : ∀ n ∈ [n₁, n₂], ∀ nMbsfnId ns l, ∀ i < refsignalMbsfnRsPerSymbol scs * n,
    2 * (refsignalMbsfnGenSeq n nMbsfnId scs ns l i).mp + 1 < 10 * refsignalNumSfMbsfn maxPrb scs

theorem mp_generated (scs : Scs) {n i : ℕ} (hn : n ≤ maxPrb)
    (hi : i < refsignalMbsfnRsPerSymbol scs * n) :
    2 * (i + 3 * (maxPrb - n)) + 1 < 10 * refsignalNumSfMbsfn maxPrb scs := by
  cases scs <;>
    simp only [refsignalMbsfnRsPerSymbol, refsignalNumSfMbsfn, refsignalMbsfnNofSymbols, maxPrb,
      reduceCtorEq, if_true, if_false] at * <;> omega

/-- The sequence is centred except for 1.25 kHz. -/
theorem centred_iff (scs : Scs) {n₁ n₂ : ℕ} (hle : n₁ ≤ n₂) (hmax : n₂ ≤ maxPrb) :
    Centred scs n₁ n₂ ↔ scs ≠ .khz1p25 ∨ n₁ = n₂ ∨ n₁ = 0 := by
  have hgenerated : ∀ n ∈ [n₁, n₂], n ≤ maxPrb := by
    intro n hn
    simp at hn
    omega
  simp only [maxPrb] at hmax
  constructor
  · intro h
    by_contra hnot
    simp only [not_or, not_not] at hnot
    obtain ⟨rfl, hne, hpos⟩ := hnot
    have hsame := (h.same 0 0 0 0 (12 * (n₂ - n₁)) (by decide)
      (by simp only [refsignalMbsfnRsPerSymbol]; omega)
      (by simp only [refsignalMbsfnRsPerSymbol]; omega)
      (by simp only [refsignalMbsfnRsPerSymbol]; omega)).2
    simp only [refsignalMbsfnGenSeq, maxPrb] at hsame
    omega
  · refine fun hcond => ⟨fun nMbsfnId ns l i₁ i₂ hl hi₁ hi₂ hoffset => ⟨rfl, ?_⟩, ?_⟩
    · simp only [refsignalMbsfnGenSeq, maxPrb]
      cases scs <;> simp only [refsignalMbsfnRsPerSymbol] at hi₁ hi₂ hoffset
      · omega
      · omega
      · have hsame : n₁ = n₂ ∨ n₁ = 0 := hcond.resolve_left fun h => h rfl
        omega
    · exact fun n hn nMbsfnId ns l i hi => mp_generated scs (hgenerated n hn) hi

/-- Six and fifty resource blocks at 15 kHz. -/
theorem centred_six_fifty : Centred .khz15 6 50 :=
  (centred_iff .khz15 (by decide) (by decide)).mpr (.inl (by decide))

/-- At 1.25 kHz the first reference of 25 and of 50 resource blocks differ. -/
theorem not_centred : ¬ Centred .khz1p25 25 50 := by
  intro h
  have hsame := (h.same 0 0 0 0 300 (by decide) (by decide) (by decide) (by decide)).2
  exact absurd hsame (by decide)

end MbmsTx.Phy
