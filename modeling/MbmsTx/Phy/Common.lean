import Mathlib.Data.Nat.Notation

/-!
# Common definitions of the physical layer

The cell, the subframe types and the tables of OFDM symbol sizes that the downlink functions share.
A function that reports an error by a negative value returns an `Option` here.
-/

namespace MbmsTx.Phy

/-- `SRSRAN_MAX_PRB`. -/
def maxPrb : ℕ := 110

/-- `srsran_cp_t`. -/
inductive Cp
  | norm
  | ext
  deriving DecidableEq

/-- `srsran_sf_t`. -/
inductive SfType
  | norm
  | mbsfn
  deriving DecidableEq

/-- `srsran_scs_t`. -/
inductive Scs
  | khz15
  | khz7p5
  | khz1p25
  deriving DecidableEq

/-- `srsran_phich_length_t`. -/
inductive PhichLength
  | norm
  | ext
  deriving DecidableEq

/-- `srsran_phich_r_t`. -/
inductive PhichR
  | r1over6
  | r1over2
  | r1
  | r2
  deriving DecidableEq

/-- What the modelled functions read of `srsran_cell_t`. -/
structure Cell where
  nofPrb : ℕ
  phichLength : PhichLength
  phichResources : PhichR
  mbmsDedicated : Bool
  additionalNonMbmsFrames : ℕ
  deriving DecidableEq

/-- What else the downlink of the base station reads; the frame type is FDD. -/
structure EnbCell extends Cell where
  id : ℕ
  nofPorts : ℕ
  cp : Cp
  mbsfnPrb : ℕ
  deriving DecidableEq

/-- `SRSRAN_MAX_PORTS`. -/
def maxPorts : ℕ := 4

/-- `srsran_nofprb_isvalid`. -/
def nofprbIsvalid (nofPrb : ℕ) : Bool := nofPrb = 1 || (6 ≤ nofPrb && nofPrb ≤ maxPrb)

/-- `srsran_portid_isvalid`. -/
def portidIsvalid (portId : ℕ) : Bool := portId ≤ maxPorts

/-- `srsran_cell_isvalid`. -/
def EnbCell.isvalid (cell : EnbCell) : Bool :=
  cell.id < 504 && portidIsvalid cell.nofPorts && nofprbIsvalid cell.nofPrb

/-- The transmission bandwidths of LTE, in resource blocks. -/
def standardBandwidths : List ℕ := [6, 15, 25, 50, 75, 100]

/-! ## Symbol sizes -/

/-- The symbol size tables have one entry for each range of bandwidths. -/
def symbolSzTable (s6 s15 s25 s50 s75 s110 : ℕ) (nofPrb : ℕ) : Option ℕ :=
  if nofPrb ≤ 6 then some s6
  else if nofPrb ≤ 15 then some s15
  else if nofPrb ≤ 25 then some s25
  else if nofPrb ≤ 50 then some s50
  else if nofPrb ≤ 75 then some s75
  else if nofPrb ≤ 110 then some s110
  else none

/-- `srsran_symbol_sz_power2`. -/
def symbolSzPower2 : ℕ → Option ℕ :=
  symbolSzTable 128 256 512 1024 1536 2048

/-- `srsran_symbol_sz_scs`; `standard` is the global `use_standard_rates`. -/
def symbolSzScs (standard : Bool) (nofPrb : ℕ) (scs : Scs) : Option ℕ :=
  if nofPrb ≤ 0 then none
  else
    match scs with
    | .khz1p25 => symbolSzTable 1536 3072 6144 12288 18432 24567 nofPrb
    | .khz7p5 => symbolSzTable 256 512 1024 2048 3072 4096 nofPrb
    | .khz15 =>
      if standard then symbolSzPower2 nofPrb
      else symbolSzTable 128 256 384 768 1024 1536 nofPrb

/-- `srsran_symbol_sz`. -/
def symbolSz (standard : Bool) (nofPrb : ℕ) : Option ℕ :=
  symbolSzScs standard nofPrb .khz15

/-- `SRSRAN_SF_LEN`: samples of a subframe of 1 ms. -/
def sfLen (symbolSz : ℕ) : ℕ := symbolSz * 15

/-- `SRSRAN_SLOT_LEN`. -/
def slotLen (symbolSz : ℕ) : ℕ := symbolSz * 15 / 2

/-- `SRSRAN_SF_LEN_PRB`: the subframe length of the workers and the radio. -/
def sfLenPrb (standard : Bool) (nofPrb : ℕ) : Option ℕ :=
  (symbolSz standard nofPrb).map sfLen

/-! ## Cyclic prefixes -/

/-- `SRSRAN_CP_NSYMB`. -/
def cpNsymb : Cp → ℕ
  | .norm => 7
  | .ext => 6

/-- `SRSRAN_CP_LEN`: `c * symbol_sz / 2048`, rounded up. -/
def cpLen (symbolSz c : ℕ) : ℕ := (c * symbolSz + 2047) / 2048

/-- `SRSRAN_CP_LEN_NORM`. -/
def cpLenNorm (symbol symbolSz : ℕ) : ℕ :=
  if symbol = 0 then cpLen symbolSz 160 else cpLen symbolSz 144

/-- `SRSRAN_CP_LEN_EXT`. -/
def cpLenExt (symbolSz : ℕ) : ℕ := cpLen symbolSz 512

/-! ## Resource elements and symbols -/

/-- `SRSRAN_NRE_SCS`: resource elements of one resource block. -/
def nreScs : Scs → ℕ
  | .khz15 => 12
  | .khz7p5 => 24
  | .khz1p25 => 144

/-- `SRSRAN_MBSFN_NOF_SYMBOLS`: the symbols of one pass of the MBSFN symbol loop. -/
def mbsfnNofSymbols : Scs → ℕ
  | .khz15 => cpNsymb .ext
  | .khz7p5 => 3
  | .khz1p25 => 1

/-- `SRSRAN_MBSFN_NOF_SLOTS`. -/
def mbsfnNofSlots : Scs → ℕ
  | .khz1p25 => 1
  | _ => 2

end MbmsTx.Phy
