import MbmsTx.Phy.Mbsfn
import MbmsTx.Phy.Pbch
import MbmsTx.Phy.PmchMapping

/-!
# The base signals of a subframe

`srsran_enb_dl_put_base` clears the resource grid of a subframe and puts the synchronisation and
reference signals, the MIB and the PCFICH into it. The cell acquisition subframe (CAS) is the
subframe 0 of every fourth frame. `put_mib`, `put_pcfich` and `is_mch_subframe` find it by the frame
number, `put_sync` by the TTI, where it finds another subframe in between (`cas_consistent_iff`).

The grid is allocated for the extended cyclic prefix. An MBSFN subframe has as many resource
elements whatever its spacing, but an ordinary subframe with the normal prefix has more
(`grid_bounded_iff`).
-/

namespace MbmsTx.Phy

open List

/-- `srsran_dl_sf_cfg_t`. -/
structure DlSfCfg where
  tti : ℕ
  cfi : ℕ
  sfType : SfType
  nonMbsfnRegion : ℕ
  subcarrierSpacing : Scs
  deriving DecidableEq

/-- What is put into the grid of a port. -/
inductive Signal
  | pss
  | sss
  | csRefs
  | mbsfnRefs (scs : Scs)
  | pbch (block : PbchBlock)
  | pcfich (cfi : ℕ)
  deriving DecidableEq

/-- A signal in the grid of each port. -/
def onPorts (cell : EnbCell) (signal : Signal) : List (ℕ × Signal) :=
  (List.range cell.nofPorts).map fun p => (p, signal)

def putSync (cell : EnbCell) (tti : ℕ) : List (ℕ × Signal) :=
  let sfIdx := tti % 10
  if tti % 4 = 0 ∧ sfIdx = 0 then onPorts cell .pss ++ onPorts cell .sss else []

def putRefs (cell : EnbCell) (dlSf : DlSfCfg) : List (ℕ × Signal) :=
  match dlSf.sfType with
  | .mbsfn => [(0, .mbsfnRefs dlSf.subcarrierSpacing)]
  | .norm => onPorts cell .csRefs

def putPcfich (cell : EnbCell) (dlSf : DlSfCfg) : List (ℕ × Signal) :=
  let sfIdx := dlSf.tti % 10
  let sfn := dlSf.tti / 10
  if sfn % 4 = 0 ∧ sfIdx = 0 then onPorts cell (.pcfich dlSf.cfi) else []

/-- The PBCH that `put_mib` encodes. -/
def putPbch (cell : EnbCell) (tti : ℕ) : List (ℕ × Signal) :=
  match putMib cell.toCell tti with
  | some block => onPorts cell (.pbch block)
  | none => []

/-- `srsran_enb_dl_put_base`: the signals in the grid after it was cleared. -/
def enbDlPutBase (cell : EnbCell) (dlSf : DlSfCfg) : List (ℕ × Signal) :=
  putSync cell dlSf.tti ++ putRefs cell dlSf ++ putPbch cell dlSf.tti ++ putPcfich cell dlSf

/-- `sf_worker::work_imp` and `cc_worker::work_dl`: the configuration of the subframe, for the CFI
of the grant. `none` if deciding its type traps. -/
def workDlSf (phy : PhyCommon) (ttiTxDl cfi : ℕ) : Option DlSfCfg :=
  (isMbsfnSf phy ttiTxDl).map fun (mbsfnCfg, isMbsfn) =>
    { tti := ttiTxDl
      cfi := min (max cfi 1) 3
      sfType := if isMbsfn then .mbsfn else .norm
      nonMbsfnRegion := mbsfnCfg.nonMbsfnRegionLength
      subcarrierSpacing := .khz1p25 }

/-! ## The cell acquisition subframe -/

section

variable {cell : EnbCell} {dlSf : DlSfCfg} {p : ℕ} {signal : Signal}

@[simp] theorem mem_onPorts {signal' : Signal} :
    (p, signal) ∈ onPorts cell signal' ↔ p < cell.nofPorts ∧ signal = signal' := by
  simp only [onPorts, mem_map, mem_range, Prod.mk.injEq]
  constructor
  · rintro ⟨p', hp', rfl, rfl⟩
    exact ⟨hp', rfl⟩
  · rintro ⟨hp, rfl⟩
    exact ⟨p, hp, rfl, rfl⟩

theorem mem_putSync {tti : ℕ} : (p, signal) ∈ putSync cell tti ↔
      p < cell.nofPorts ∧ (signal = .pss ∨ signal = .sss) ∧ tti % 20 = 0 := by
  have htti : (tti % 4 = 0 ∧ tti % 10 = 0) ↔ tti % 20 = 0 := by omega
  unfold putSync
  simp only [htti]
  split
  · next h => simp only [mem_append, mem_onPorts, ← and_or_left, h, and_true]
  · next h => simp only [not_mem_nil, h, and_false]

theorem mem_putRefs (h : (p, signal) ∈ putRefs cell dlSf) :
    signal = .csRefs ∨ ∃ scs, signal = .mbsfnRefs scs := by
  unfold putRefs at h
  split at h
  · exact .inr ⟨_, (Prod.mk.inj (mem_singleton.mp h)).2⟩
  · exact .inl (mem_onPorts.mp h).2

theorem mem_putPbch {tti : ℕ} : (p, signal) ∈ putPbch cell tti ↔
      p < cell.nofPorts ∧ ∃ block, putMib cell.toCell tti = some block ∧ signal = .pbch block := by
  unfold putPbch
  split
  · next block h => simp only [mem_onPorts, h, Option.some.injEq, exists_eq_left']
  · next h => simp only [not_mem_nil, h, reduceCtorEq, false_and, exists_false, and_false]

theorem mem_putPcfich : (p, signal) ∈ putPcfich cell dlSf ↔
      p < cell.nofPorts ∧ signal = .pcfich dlSf.cfi ∧ dlSf.tti % 40 = 0 := by
  have htti : (dlSf.tti / 10 % 4 = 0 ∧ dlSf.tti % 10 = 0) ↔ dlSf.tti % 40 = 0 := by omega
  unfold putPcfich
  simp only [htti]
  split
  · next h => simp only [mem_onPorts, h, and_true]
  · next h => simp only [not_mem_nil, h, and_false]

theorem putMib_isSome (cell : Cell) (tti : ℕ) :
    (∃ block, putMib cell tti = some block) ↔ tti % 40 = 0 := by
  have htti : (tti / 10 % 4 = 0 ∧ tti % 10 = 0) ↔ tti % 40 = 0 := by omega
  unfold putMib
  simp only [htti]
  simp

theorem sync_mem_iff (hp : p < cell.nofPorts) (hsync : signal = .pss ∨ signal = .sss) :
    (p, signal) ∈ enbDlPutBase cell dlSf ↔ dlSf.tti % 20 = 0 := by
  have hrefs : (p, signal) ∉ putRefs cell dlSf := by
    intro h
    rcases mem_putRefs h with rfl | ⟨scs, rfl⟩
    · simp at hsync
    · simp at hsync
  have hpbch : (p, signal) ∉ putPbch cell dlSf.tti := by
    intro h
    obtain ⟨-, block, -, rfl⟩ := mem_putPbch.mp h
    simp at hsync
  have hpcfich : (p, signal) ∉ putPcfich cell dlSf := by
    intro h
    obtain ⟨-, rfl, -⟩ := mem_putPcfich.mp h
    simp at hsync
  simp [enbDlPutBase, hrefs, hpbch, hpcfich, mem_putSync, hp, hsync]

theorem mib_mem_iff (hp : p < cell.nofPorts) :
    (∃ block, (p, Signal.pbch block) ∈ enbDlPutBase cell dlSf) ↔ dlSf.tti % 40 = 0 := by
  have hmem : ∀ block, (p, Signal.pbch block) ∈ enbDlPutBase cell dlSf ↔
      putMib cell.toCell dlSf.tti = some block := by
    intro block
    have hrefs : (p, Signal.pbch block) ∉ putRefs cell dlSf := by
      intro h
      simpa using mem_putRefs h
    simp [enbDlPutBase, hrefs, mem_putSync, mem_putPbch, mem_putPcfich, hp]
  simp only [hmem, putMib_isSome]

theorem pcfich_mem_iff (hp : p < cell.nofPorts) :
    (∃ cfi, (p, Signal.pcfich cfi) ∈ enbDlPutBase cell dlSf) ↔ dlSf.tti % 40 = 0 := by
  have hmem : ∀ cfi, (p, Signal.pcfich cfi) ∈ enbDlPutBase cell dlSf ↔
      cfi = dlSf.cfi ∧ dlSf.tti % 40 = 0 := by
    intro cfi
    have hrefs : (p, Signal.pcfich cfi) ∉ putRefs cell dlSf := by
      intro h
      simpa using mem_putRefs h
    simp [enbDlPutBase, hrefs, mem_putSync, mem_putPbch, mem_putPcfich, hp]
  simp [hmem]

/-- The synchronisation signals, the MIB and the PCFICH are in the grid of every port, or none of
them is, according to whether this is a CAS subframe; no synchronisation signal is in an MBSFN
subframe. -/
structure CasConsistent (cell : EnbCell) (dlSf : DlSfCfg) (p : ℕ) : Prop where
  pss : (p, .pss) ∈ enbDlPutBase cell dlSf ↔ isCasSubframe dlSf.tti = true
  sss : (p, .sss) ∈ enbDlPutBase cell dlSf ↔ isCasSubframe dlSf.tti = true
  mib : (∃ block, (p, .pbch block) ∈ enbDlPutBase cell dlSf) ↔ isCasSubframe dlSf.tti = true
  pcfich : (∃ cfi, (p, .pcfich cfi) ∈ enbDlPutBase cell dlSf) ↔ isCasSubframe dlSf.tti = true
  mbsfn : dlSf.sfType = .mbsfn →
    (p, .pss) ∉ enbDlPutBase cell dlSf ∧ (p, .sss) ∉ enbDlPutBase cell dlSf

theorem not_cas_of_mbsfn {phy : PhyCommon} {tti cfi : ℕ} (hwork : workDlSf phy tti cfi = some dlSf)
    (hmbsfn : dlSf.sfType = .mbsfn) : isCasSubframe tti = false := by
  by_contra hcas
  rw [Bool.not_eq_false] at hcas
  simp only [workDlSf, isMbsfnSf, isMchSubframe, hcas, if_true, Option.map_some,
    Option.some.injEq] at hwork
  rw [← hwork] at hmbsfn
  cases hmbsfn

/-- The subframes of all TTIs are consistent but those in the middle between two CAS subframes,
where `put_sync` puts synchronisation signals. -/
theorem cas_consistent_iff (cell : EnbCell) (phy : PhyCommon) (tti cfi : ℕ) {dlSf : DlSfCfg}
    (hwork : workDlSf phy tti cfi = some dlSf) :
    (∀ p < cell.nofPorts, CasConsistent cell dlSf p) ↔ cell.nofPorts = 0 ∨ tti % 40 ≠ 20 := by
  have htti : dlSf.tti = tti := by
    obtain ⟨_, -, hdlSf⟩ := Option.map_eq_some_iff.mp hwork
    rw [← hdlSf]
  constructor
  · intro hall
    rcases eq_zero_or_pos cell.nofPorts with hzero | hpos
    · omega
    · have hpss := (hall 0 hpos).pss
      rw [sync_mem_iff hpos (.inl rfl), isCasSubframe_iff, htti] at hpss
      omega
  · rintro hcond p hp
    have hne : tti % 40 ≠ 20 := hcond.resolve_left (by omega)
    have hcas : dlSf.tti % 20 = 0 ↔ isCasSubframe dlSf.tti := by
      rw [isCasSubframe_iff, htti]
      omega
    refine ⟨(sync_mem_iff hp (.inl rfl)).trans hcas, (sync_mem_iff hp (.inr rfl)).trans hcas,
      ?_, ?_, ?_⟩
    · rw [mib_mem_iff hp, isCasSubframe_iff]
    · rw [pcfich_mem_iff hp, isCasSubframe_iff]
    · intro hmbsfn
      have hnot := not_cas_of_mbsfn hwork hmbsfn
      rw [sync_mem_iff hp (.inl rfl), sync_mem_iff hp (.inr rfl), hcas, htti, hnot]
      decide

end

/-- A PHY with an MCCH in subframe 1 of every 32nd frame. -/
def mbsfnPhy : PhyCommon := .configured ⟨1, .s1, .khz1dot25, ⟨.rf32, 0, 32, .n2⟩⟩ []

theorem cas_consistent_tti_40 : ∃ dlSf, workDlSf mbsfnPhy 40 1 = some dlSf ∧
      ∀ p < (mbmsCell 25).nofPorts, CasConsistent (mbmsCell 25) dlSf p :=
  ⟨_, rfl, (cas_consistent_iff (mbmsCell 25) mbsfnPhy 40 1 rfl).mpr (by decide)⟩

/-- Subframe 0 of frame 2, an MBSFN subframe, has synchronisation signals and no MIB. -/
theorem pss_in_mbsfn_subframe_tti_20 :
    ∃ dlSf, workDlSf mbsfnPhy 20 1 = some dlSf ∧ dlSf.sfType = .mbsfn ∧
      (0, .pss) ∈ enbDlPutBase (mbmsCell 25) dlSf ∧
      (0, .sss) ∈ enbDlPutBase (mbmsCell 25) dlSf ∧
      putMib (mbmsCell 25).toCell dlSf.tti = none :=
  ⟨_, rfl, by decide, by decide, by decide, by decide⟩

/-! ## The size of the grid -/

/-- `SRSRAN_SF_LEN_RE`. -/
def sfLenRe (nofPrb : ℕ) (cp : Cp) : ℕ := 2 * (nofPrb * nreScs .khz15 * cpNsymb cp)

/-- The elements that `srsran_enb_dl_init` allocates for each port. -/
def sfSymbolsLen (maxPrb : ℕ) : ℕ := sfLenRe maxPrb .ext

/-- `clear_sf`: the elements that are written, with their port. -/
def clearSf (cell : EnbCell) : List (ℕ × ℕ) :=
  (List.range cell.nofPorts).flatMap fun p =>
    (List.range (sfLenRe cell.nofPrb cell.cp)).map fun i => (p, i)

/-- What the reference signal and the PMCH of an MBSFN subframe write. -/
def mbsfnWritten (cell : EnbCell) (scs : Scs) (sf : ℕ) : List (ℕ × ℕ) :=
  (pilotsWritten cell scs sf).map (fun i => (0, i)) ++
    (List.range cell.nofPorts).flatMap fun p =>
      (pmchCp cell.nofPrb 0 true scs sf).copied.map fun x => (p, x.2)

/-- What is written is inside of what was allocated for the bandwidth of the cell. -/
structure GridBounded (cell : EnbCell) : Prop where
  clear : ∀ x ∈ clearSf cell, x.2 < sfSymbolsLen cell.nofPrb
  mbsfn : ∀ scs sf, ∀ x ∈ mbsfnWritten cell scs sf, x.2 < sfSymbolsLen cell.nofPrb

theorem nofBlocks_mul_nre (nofPrb : ℕ) (scs : Scs) :
    nofBlocks nofPrb scs * nreScs scs = sfSymbolsLen nofPrb := by
  cases scs with
  | khz15 | khz7p5 | khz1p25 =>
    simp only [nofBlocks, nreScs, sfSymbolsLen, sfLenRe, mbsfnNofSlots, mbsfnNofSymbols, cpNsymb]
    omega

variable {scs : Scs}

theorem pmchCp_lt {nofPrb sf : ℕ} {x : ℕ × ℕ} (hx : x ∈ (pmchCp nofPrb 0 true scs sf).copied) :
    x.2 < sfSymbolsLen nofPrb := by
  have hwrote := wrote_pmchCp nofPrb 0 scs sf
  rw [gridPositions_data] at hwrote
  have hmem : x.2 ∈ (pmchCp nofPrb 0 true scs sf).copied.map Prod.snd := mem_map_of_mem hx
  rw [hwrote.positions] at hmem
  rw [← nofBlocks_mul_nre nofPrb scs]
  exact Blocks.lt_of_mem_laid (fun _ _ _ hq => lt_of_mem_dataOffsets hq) hmem

theorem pilotLoop_lt {nofPrb nsymbol fidx i : ℕ}
    (hsymbol : nsymbol < mbsfnNofSlots scs * mbsfnNofSymbols scs) (hfidx : fidx < pilotStep scs)
    (hi : i ∈ pilotLoop (fun fidx => reIdxMbsfn nofPrb nsymbol fidx scs) (pilotStep scs)
      (refsignalMbsfnRsPerSymbol scs * nofPrb) fidx) : i < sfSymbolsLen nofPrb := by
  have hblock : refsignalMbsfnRsPerSymbol scs * pilotStep scs = nreScs scs := by
    cases scs with
    | khz15 | khz7p5 | khz1p25 => rfl
  rw [pilotLoop_symbol, mem_flatMap] at hi
  obtain ⟨n, hn, hi⟩ := hi
  rw [List.map_map, mem_map] at hi
  obtain ⟨j, hj, rfl⟩ := hi
  rw [mem_range] at hn hj
  have hoffset : fidx + j * pilotStep scs < nreScs scs := by
    calc fidx + j * pilotStep scs < (j + 1) * pilotStep scs := by
          rw [Nat.succ_mul]
          omega
      _ ≤ refsignalMbsfnRsPerSymbol scs * pilotStep scs := Nat.mul_le_mul_right _ hj
      _ = nreScs scs := hblock
  calc (nsymbol * nofPrb + n) * nreScs scs + (fidx + j * pilotStep scs)
      < (nsymbol * nofPrb + n + 1) * nreScs scs := by
        rw [Nat.succ_mul]
        omega
    _ ≤ (nsymbol + 1) * nofPrb * nreScs scs := by
        refine Nat.mul_le_mul_right _ ?_
        rw [Nat.succ_mul]
        omega
    _ ≤ nofBlocks nofPrb scs * nreScs scs :=
        Nat.mul_le_mul_right _ (Nat.mul_le_mul_right _ hsymbol)
    _ = sfSymbolsLen nofPrb := nofBlocks_mul_nre nofPrb scs

theorem nsymbol_lt {l : ℕ} (hl : l < refsignalMbsfnNofSymbols scs) :
    refsignalMbsfnNsymbol l scs < mbsfnNofSlots scs * mbsfnNofSymbols scs := by
  have hall : ∀ l < refsignalMbsfnNofSymbols scs,
      refsignalMbsfnNsymbol l scs < mbsfnNofSlots scs * mbsfnNofSymbols scs := by
    cases scs with
    | khz15 | khz7p5 | khz1p25 => decide
  exact hall l hl

theorem fidx_lt (l sf : ℕ) (scs : Scs) :
    (if scs = .khz1p25 then if sf % 2 = 0 then 0 else 3 else refsignalMbsfnFidx l scs) <
      pilotStep scs := by
  cases scs with
  | khz15 | khz7p5 | khz1p25 =>
    simp only [reduceCtorEq, if_true, if_false, refsignalMbsfnFidx]
    split
    · decide
    · decide

theorem pilotsWritten_lt {cell : EnbCell} {sf i : ℕ} (hi : i ∈ pilotsWritten cell scs sf) :
    i < sfSymbolsLen cell.nofPrb := by
  unfold pilotsWritten refsignalMbsfnPutSf at hi
  split at hi
  · rw [Option.getD_some, mem_append] at hi
    rcases hi with hcs | hmbsfn
    · split at hcs
      · rw [pilotLoop_eq, mem_map] at hcs
        obtain ⟨j, hj, rfl⟩ := hcs
        rw [mem_range] at hj
        simp only [sfSymbolsLen, sfLenRe, nreScs, cpNsymb]
        omega
      · exact absurd hcs not_mem_nil
    · obtain ⟨l, hl, hi⟩ := mem_flatMap.mp hmbsfn
      exact pilotLoop_lt (nsymbol_lt (mem_range.mp hl)) (fidx_lt l sf scs) hi
  · exact absurd hi not_mem_nil

/-- The grid is large enough exactly for the extended cyclic prefix. -/
theorem grid_bounded_iff {cell : EnbCell} (hvalid : cell.isvalid = true) :
    GridBounded cell ↔ cell.cp = .ext ∨ cell.nofPorts = 0 := by
  have hprb : 0 < cell.nofPrb := by
    simp [EnbCell.isvalid, nofprbIsvalid] at hvalid
    omega
  constructor
  · intro hbounded
    rcases eq_zero_or_pos cell.nofPorts with hzero | hpos
    · omega
    · cases hcp : cell.cp with
      | ext => simp
      | norm =>
        -- the first element of the last symbol of the normal prefix
        have hmem : (0, sfSymbolsLen cell.nofPrb) ∈ clearSf cell := by
          refine mem_flatMap.mpr ⟨0, mem_range.mpr hpos, ?_⟩
          refine mem_map.mpr ⟨_, mem_range.mpr ?_, rfl⟩
          rw [hcp]
          simp only [sfSymbolsLen, sfLenRe, nreScs, cpNsymb]
          omega
        exact absurd (hbounded.clear _ hmem) (lt_irrefl _)
  · intro hcond
    constructor
    · intro x hx
      obtain ⟨p, hp, hx⟩ := mem_flatMap.mp hx
      obtain ⟨i, hi, rfl⟩ := mem_map.mp hx
      rw [mem_range] at hp hi
      have hext : cell.cp = .ext := hcond.resolve_right (by omega)
      rw [hext] at hi
      exact hi
    · intro scs sf x hx
      rcases mem_append.mp hx with hpilot | hdata
      · obtain ⟨i, hi, rfl⟩ := mem_map.mp hpilot
        exact pilotsWritten_lt hi
      obtain ⟨p, -, hx⟩ := mem_flatMap.mp hdata
      obtain ⟨y, hy, rfl⟩ := mem_map.mp hx
      have hlt := pmchCp_lt hy
      exact hlt

theorem grid_bounded_25_prb : GridBounded (mbmsCell 25) :=
  (grid_bounded_iff (by decide)).mpr (by decide)

/-- In a cell of six resource blocks with the normal prefix, `clear_sf` writes 1008 elements where
864 are allocated. -/
theorem not_grid_bounded_normal_prefix : ¬ GridBounded { mbmsCell 6 with cp := .norm } := by
  intro hbounded
  have hmem : (0, 864) ∈ clearSf { mbmsCell 6 with cp := .norm } := by decide +kernel
  exact absurd (hbounded.clear _ hmem) (by decide)

end MbmsTx.Phy
