import MbmsTx.Lib.Transition
import MbmsTx.Phy.Ofdm

/-!
# The buffers of the OFDM object

`ofdm_init_mbsfn_` configures an object, also again for another bandwidth, subcarrier spacing or
symbol size. The buffers are allocated, for the symbol size of the call, when the number of resource
blocks exceeds all before, and kept otherwise. So they are large enough exactly if the call
allocates them or its symbol fits into what is there (`buffersFit_iff`).
-/

namespace MbmsTx.Phy

open Transition Option

/-- What decides where the symbol loops write: the lengths of `tmp` and `shift_buffer`, and whether
the last call returned `SRSRAN_SUCCESS`. -/
structure OfdmBuffers where
  cfg : OfdmCfg := zeroedOfdm.cfg
  fftSize : ℕ := 0
  fftInitSize : ℕ := 0
  maxPrb : ℕ := 0
  nofRe : ℕ := 0
  nofGuards : ℕ := 0
  sfSz : ℕ := 0
  tmp : ℕ := 0
  shiftBuffer : ℕ := 0
  success : Bool := false
  deriving DecidableEq

/-- A call of `ofdm_init_mbsfn_` with what it finds: whether the object was cleared before, as by
`srsran_ofdm_tx_init`, the rate mode, whether the other fields of `cfg` are those of the object,
whether the DFT is planned, and how many of the three allocations succeed. -/
structure OfdmCall where
  cleared : Bool
  standard : Bool
  sameRest : Bool
  planned : Bool
  allocated : ℕ
  cfg : OfdmCfg

/-- `srsran_vec_cf_malloc`: the elements of eight bytes in the 32-bit size. -/
def vecCfMalloc (n : ℕ) : ℕ := n * 8 % 2 ^ 32 / 8

namespace OfdmCall

variable (call : OfdmCall) (q : OfdmBuffers)

/-- The object that the call starts with. -/
def start : OfdmBuffers := if call.cleared then {} else q

/-- The symbol size of the call. -/
def symbolSz? : Option ℕ :=
  if call.cfg.symbolSz = 0 then
    symbolSzScs call.standard call.cfg.nofPrb call.cfg.subcarrierSpacing
  else some call.cfg.symbolSz

/-- There is nothing to configure. -/
def Unchanged (symbolSz : ℕ) (q : OfdmBuffers) : Prop :=
  q.cfg = { call.cfg with symbolSz := symbolSz } ∧ call.sameRest

instance (symbolSz : ℕ) (q : OfdmBuffers) : Decidable (call.Unchanged symbolSz q) :=
  inferInstanceAs (Decidable (_ ∧ _))

/-- The configuration and the sizes that follow from it. -/
def configure (symbolSz : ℕ) (q : OfdmBuffers) : OfdmBuffers :=
  let cfg := { call.cfg with symbolSz := symbolSz }
  let nofRe := cfg.nofPrb * nreScs cfg.subcarrierSpacing
  { q with
      cfg := if q.maxPrb > 0 then { cfg with sfType := q.cfg.sfType, freqShift := q.cfg.freqShift }
        else cfg
      nofRe := nofRe
      nofGuards := (symbolSz + 2 ^ 32 - nofRe) % 2 ^ 32 / 2
      sfSz := sfLen symbolSz % 2 ^ 32 }

/-- `tmp`, `shift_buffer` and `window_offset_buffer` are allocated. -/
def allocate (symbolSz : ℕ) (q : OfdmBuffers) : OfdmBuffers :=
  { q with
      tmp := if 1 ≤ call.allocated then vecCfMalloc symbolSz else 0
      shiftBuffer := if 2 ≤ call.allocated then vecCfMalloc q.sfSz else 0
      maxPrb := if 3 ≤ call.allocated then call.cfg.nofPrb else q.maxPrb
      success := decide (3 ≤ call.allocated) }

/-- `ofdm_init_mbsfn_`. -/
def init : OfdmBuffers :=
  let old := call.start q
  match call.symbolSz? with
  | none => { old with success := false }
  | some symbolSz =>
    if call.Unchanged symbolSz old then { old with success := true }
    else
      let q := call.configure symbolSz old
      match if call.planned then dftPlan q.fftSize q.fftInitSize symbolSz else none with
      | none => { q with success := false }
      | some (fftSize, fftInitSize) =>
        let q := { q with fftSize := fftSize, fftInitSize := fftInitSize }
        if call.cfg.nofPrb > old.maxPrb then call.allocate symbolSz q
        else { q with success := true }

/-- A symbol size that is given has room for the subcarriers. -/
def Valid : Prop :=
  1 ≤ call.cfg.nofPrb ∧ call.cfg.nofPrb ≤ 110 ∧ call.cfg.symbolSz < 2 ^ 32 ∧
    (call.cfg.symbolSz ≠ 0 →
      call.cfg.nofPrb * nreScs call.cfg.subcarrierSpacing ≤ call.cfg.symbolSz)

instance : Decidable call.Valid := inferInstanceAs (Decidable (_ ∧ _))

/-- The call allocates the buffers, and their sizes in bytes do not wrap, or keeps buffers that are
large enough. -/
def Fits : Prop :=
  ∀ symbolSz ∈ call.symbolSz?,
    if call.Unchanged symbolSz (call.start q) ∨ call.cfg.nofPrb ≤ (call.start q).maxPrb then
      symbolSz ≤ (call.start q).tmp ∧ sfLen symbolSz % 2 ^ 32 ≤ (call.start q).shiftBuffer
    else symbolSz < 2 ^ 29 ∧ sfLen symbolSz % 2 ^ 32 < 2 ^ 29

end OfdmCall

/-- Objects under any calls. -/
def ofdmSystem : System OfdmBuffers OfdmCall where
  Init q := q = {}
  step q call := if call.Valid then some (call.init q) else none

/-- Zeroing `tmp` and copying symbols stay inside. -/
structure BuffersFit (q : OfdmBuffers) : Prop where
  tmp : q.cfg.symbolSz ≤ q.tmp
  shiftBuffer : q.sfSz ≤ q.shiftBuffer
  guards : q.nofGuards + q.nofRe ≤ q.cfg.symbolSz

/-- The sizes of a configured object follow from its symbol size. -/
def Sized (q : OfdmBuffers) : Prop :=
  q.cfg.symbolSz ≠ 0 →
    q.sfSz = sfLen q.cfg.symbolSz % 2 ^ 32 ∧ q.nofGuards + q.nofRe ≤ q.cfg.symbolSz

variable {call : OfdmCall} {q q' : OfdmBuffers} {s : ℕ}

theorem OfdmCall.Valid.symbolSz (h : call.Valid) (hs : call.symbolSz? = some s) :
    0 < s ∧ s < 2 ^ 32 ∧ call.cfg.nofPrb * nreScs call.cfg.subcarrierSpacing ≤ s := by
  obtain ⟨hone, hmax, hlt, hroom⟩ := h
  unfold OfdmCall.symbolSz? at hs
  split at hs
  · unfold symbolSzScs symbolSzPower2 symbolSzTable at hs
    cases hscs : call.cfg.subcarrierSpacing with
    | khz15 | khz7p5 | khz1p25 =>
      simp only [hscs, nreScs] at hs ⊢
      grind
  · next hne =>
    cases hs
    exact ⟨Nat.pos_of_ne_zero hne, hlt, hroom hne⟩

theorem Sized.start (h : Sized q) : Sized (call.start q) := by
  unfold OfdmCall.start
  split
  · exact (absurd rfl)
  · exact h

theorem OfdmCall.symbolSz_configure : (call.configure s q).cfg.symbolSz = s := by
  unfold OfdmCall.configure
  dsimp only
  split <;> rfl

theorem sized_configure (h : call.Valid) (hs : call.symbolSz? = some s) :
    Sized (call.configure s q) := by
  obtain ⟨hpos, hlt, hroom⟩ := h.symbolSz hs
  intro _
  rw [OfdmCall.symbolSz_configure]
  refine ⟨rfl, ?_⟩
  dsimp only [OfdmCall.configure]
  omega

theorem Sized.init (hq : Sized q) (h : call.Valid) : Sized (call.init q) := by
  unfold OfdmCall.init
  split
  · exact hq.start
  · next s hs =>
    have hnew := @sized_configure call (call.start q) s h hs
    dsimp only
    split
    · exact hq.start
    split
    · exact hnew
    split <;> exact hnew

/-- The symbol size and the buffers after a successful call. -/
theorem OfdmCall.init_success (hok : (call.init q).success) :
    ∃ s, call.symbolSz? = some s ∧ (call.init q).cfg.symbolSz = s ∧
      ((call.init q).tmp, (call.init q).shiftBuffer) =
        if call.Unchanged s (call.start q) ∨ call.cfg.nofPrb ≤ (call.start q).maxPrb then
          ((call.start q).tmp, (call.start q).shiftBuffer)
        else (vecCfMalloc s, vecCfMalloc (sfLen s % 2 ^ 32)) := by
  revert hok
  unfold OfdmCall.init
  split
  · exact fun hok => nomatch hok
  next s hs =>
  dsimp only
  split
  · next hsame => exact fun _ => ⟨s, hs, by rw [hsame.1], by rw [if_pos (.inl hsame)]⟩
  next hnot =>
  split
  · exact fun hok => nomatch hok
  split
  · next hmore =>
    intro hok
    have hall : 3 ≤ call.allocated := of_decide_eq_true hok
    refine ⟨s, hs, symbolSz_configure, ?_⟩
    rw [if_neg (not_or.mpr ⟨hnot, Nat.not_le.mpr hmore⟩)]
    exact Prod.ext (if_pos (by omega)) (if_pos (by omega))
  · next hless =>
    exact fun _ => ⟨s, hs, symbolSz_configure, by rw [if_pos (.inr (Nat.not_lt.mp hless))]; rfl⟩

theorem sized (hq : ofdmSystem.Reachable q) : Sized q := by
  refine hq.invariant Sized ?_ ?_
  · rintro q rfl hne
    exact absurd rfl hne
  · intro q call q' hq hstep
    obtain ⟨hvalid, heq⟩ := ite_none_right_eq_some.mp hstep
    rw [← some.inj heq]
    exact hq.init hvalid

/-- After a successful call the buffers are large enough exactly if it allocates them or finds them
so. -/
theorem buffersFit_iff (hq : ofdmSystem.Reachable q) (hstep : ofdmSystem.step q call = some q')
    (hok : q'.success) : BuffersFit q' ↔ call.Fits q := by
  have hsized := sized (hq.step hstep)
  obtain ⟨hvalid, heq⟩ := ite_none_right_eq_some.mp hstep
  obtain rfl := some.inj heq
  obtain ⟨s, hs, hcfg, hbuf⟩ := OfdmCall.init_success hok
  obtain ⟨hsf, hguards⟩ := hsized (by rw [hcfg]; exact (hvalid.symbolSz hs).1.ne')
  have hfit : BuffersFit (call.init q) ↔
      s ≤ (call.init q).tmp ∧ sfLen s % 2 ^ 32 ≤ (call.init q).shiftBuffer := by
    rw [← hcfg, ← hsf]
    exact ⟨fun h => ⟨h.tmp, h.shiftBuffer⟩, fun h => ⟨h.1, h.2, hguards⟩⟩
  rw [hfit, OfdmCall.Fits, hs]
  simp only [mem_def, some.injEq, forall_eq']
  split at hbuf
  · next hkept =>
    obtain ⟨htmp, hshift⟩ := Prod.mk.inj hbuf
    rw [if_pos hkept, htmp, hshift]
  · next hnew =>
    obtain ⟨htmp, hshift⟩ := Prod.mk.inj hbuf
    rw [if_neg hnew, htmp, hshift]
    unfold vecCfMalloc
    omega

/-- A call of `srsran_ofdm_tx_init_cfg` for which nothing fails. -/
def setPrbScs (nofPrb : ℕ) (scs : Scs) : OfdmCall :=
  ⟨false, true, false, true, 3, { zeroedOfdm.cfg with nofPrb := nofPrb, subcarrierSpacing := scs }⟩

/-- A smaller bandwidth and shorter symbols keep the buffers. -/
theorem buffersFit_second :
    BuffersFit ((setPrbScs 6 .khz15).init ((setPrbScs 25 .khz1p25).init {})) := by
  have hfirst : ofdmSystem.Reachable ((setPrbScs 25 .khz1p25).init {}) :=
    .step (.init rfl) (show ofdmSystem.step {} (setPrbScs 25 .khz1p25) = _ from rfl)
  refine (@buffersFit_iff (setPrbScs 6 .khz15) _ _ hfirst rfl rfl).mpr ?_
  rintro _ ⟨⟩
  decide

/-- The symbols of 1.25 kHz are longer than those of a larger bandwidth of 15 kHz. -/
theorem not_buffersFit : ∃ q, ofdmSystem.Reachable q ∧ q.success ∧ ¬ BuffersFit q := by
  have hrun : ∃ q, ofdmSystem.Reachable q ∧ q.success ∧ q.tmp < q.cfg.symbolSz :=
    System.exists_reachable_of_run rfl
      [setPrbScs 6 .khz1p25, setPrbScs 50 .khz15, setPrbScs 6 .khz1p25] (by decide)
  obtain ⟨q, hq, hok, hlt⟩ := hrun
  exact ⟨q, hq, hok, fun h => absurd h.tmp (Nat.not_le.mpr hlt)⟩

end MbmsTx.Phy
