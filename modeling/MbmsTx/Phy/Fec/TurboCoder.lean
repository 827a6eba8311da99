import MbmsTx.Phy.Fec.Bit
import MbmsTx.Phy.Fec.BitInterleaver
import MbmsTx.Phy.Fec.CbSegm
import MbmsTx.Phy.Fec.Crc

/-!
# The turbo coder

`srsran_tcod_encode` works on single bits and interlaces the three streams in its output.
`srsran_tcod_encode_lut` works on bytes: it appends the checksums to the block, runs the two
constituent encoders from a table, puts the second parity stream behind the first one at an offset
of half a byte, and spreads the tail bits over the ends of the three streams.
-/

namespace MbmsTx.Phy.Fec

open Function

/-! ## The interleaver -/

def f1List : List ℕ :=
  [3,7,19,7,7,11,5,11,7,41,103,15,9,17,9,21,101,21,57,23,13,27,11,27,85,29,33,15,17,33,103,19,19,37,
    19,21,21,115,193,21,133,81,45,23,243,151,155,25,51,47,91,29,29,247,29,89,91,157,55,31,17,35,227,
    65,19,37,41,39,185,43,21,155,79,139,23,217,25,17,127,25,239,17,137,215,29,15,147,29,59,65,55,31,
    17,171,67,35,19,39,19,199,21,211,21,43,149,45,49,71,13,17,25,183,55,127,27,29,29,57,45,31,59,
    185,113,31,17,171,209,253,367,265,181,39,27,127,143,43,29,45,157,47,13,111,443,51,51,451,257,57,
    313,271,179,331,363,375,127,31,33,43,33,477,35,233,357,337,37,71,71,37,39,127,39,39,31,113,41,
    251,43,21,43,45,45,161,89,323,47,23,47,263]

def f2List : List ℕ :=
  [10,12,42,16,18,20,22,24,26,84,90,32,34,108,38,120,84,44,46,48,50,52,36,56,58,60,62,32,198,68,210,
    36,74,76,78,120,82,84,86,44,90,46,94,48,98,40,102,52,106,72,110,168,114,58,118,180,122,62,84,64,
    66,68,420,96,74,76,234,80,82,252,86,44,120,92,94,48,98,80,102,52,106,48,110,112,114,58,118,60,
    122,124,84,64,66,204,140,72,74,76,78,240,82,252,86,88,60,92,846,48,28,80,102,104,954,96,110,112,
    114,116,354,120,610,124,420,64,66,136,420,216,444,456,468,80,164,504,172,88,300,92,188,96,28,
    240,204,104,212,192,220,336,228,232,236,120,244,248,168,64,130,264,134,408,138,280,142,480,146,
    444,120,152,462,234,158,80,96,902,166,336,170,86,174,176,178,120,182,184,186,94,190,480]

/-- The permutation that `srsran_tc_interl_LTE_gen` computes. -/
def tcInterlForward (cbTableIdx longCb i : ℕ) : ℕ :=
  (f1List.getD cbTableIdx 0 * i + f2List.getD cbTableIdx 0 * i * i) % longCb

/-- `tcod_per_fw`, as `srsran_tcod_gentable` fills it. -/
def tcodPerFw (len i : ℕ) : ℕ :=
  match cbsize len with
  | some longCb => if i < longCb then tcInterlForward len longCb i else 0
  | none => 0

def tcodInterleavers (len : ℕ) : BitInterleaver :=
  .init (tcodPerFw len) ((cbsize len).getD 0)

/-! ## One bit at a time -/

/-- `SRSRAN_TX_NULL`, the value of a filler bit. -/
def txNull : BitVec 8 := 100

/-- The registers of a constituent encoder. -/
structure Regs where
  reg0 : BitVec 8
  reg1 : BitVec 8
  reg2 : BitVec 8
deriving DecidableEq

namespace Regs

/-- A constituent encoder takes in a bit and gives a parity bit. -/
def step (r : Regs) (bit : BitVec 8) : Regs × BitVec 8 :=
  let in_ := bit ^^^ (r.reg2 ^^^ r.reg1)
  let out := r.reg2 ^^^ (r.reg0 ^^^ in_)
  (⟨in_, r.reg0, r.reg1⟩, out)

/-- The rounds that clear an encoder; each gives a systematic and a parity bit. -/
def tailing : ℕ → Regs → List (BitVec 8)
  | 0, _ => []
  | j + 1, r =>
    let bit := r.reg2 ^^^ r.reg1
    bit :: (r.step bit).2 :: tailing j (r.step bit).1

end Regs

def nofRegs : ℕ := 3

/-- The output so far and the registers of the two encoders. -/
structure EncodeState where
  output : List (BitVec 8)
  coder1 : Regs
  coder2 : Regs

/-- The body of the loop over the bits of the block. -/
def encodeBit (per : ℕ → ℕ) (input : ℕ → BitVec 8) (s : EncodeState) (i : ℕ) : EncodeState :=
  let bit := if input i = txNull then 0 else input i
  let (coder1, out1) := s.coder1.step bit
  let parity1 := if input i = txNull then txNull else out1
  let bit := if input (per i) = txNull then 0 else input (per i)
  let (coder2, out2) := s.coder2.step bit
  ⟨s.output ++ [input i, parity1, out2], coder1, coder2⟩

/-- `srsran_tcod_encode`; the output is the list of the values as they are written. -/
def tcodEncode (maxLongCb : ℕ) (input : ℕ → BitVec 8) (longCb : ℕ) : Option (List (BitVec 8)) :=
  if maxLongCb < longCb then none
  else do
    let longcbIdx ← cbindex longCb
    let s := (List.range longCb).foldl (encodeBit (tcodPerFw longcbIdx) input)
      ⟨[], ⟨0, 0, 0⟩, ⟨0, 0, 0⟩⟩
    some (s.output ++ s.coder1.tailing nofRegs ++ s.coder2.tailing nofRegs)

/-! ## The table of whole bytes -/

/-- `tcod_lut_t`. -/
structure TcodLut where
  nextState : Fin 8
  output : BitVec 8

/-- The registers of a state of the table. -/
def stateRegs (state : Fin 8) : Regs :=
  let state : BitVec 8 := BitVec.ofNat 8 state
  ⟨(state &&& 4) >>> 2, (state &&& 2) >>> 1, state &&& 1⟩

/-- The state of the table that the registers make up. -/
def Regs.state (r : Regs) : Fin 8 :=
  ⟨(r.reg0 <<< 2 ||| r.reg1 <<< 1 ||| r.reg2).toNat % 8, Nat.mod_lt _ (by decide)⟩

/-- `tcod_lut`, as `srsran_tcod_gentable` fills it. -/
def tcodLut (state : Fin 8) (data : BitVec 8) : TcodLut :=
  let (r, output) := (List.range 8).foldl (fun (r, output) i =>
      let bit : BitVec 8 := if data &&& (1 <<< (7 - i)) ≠ 0 then 1 else 0
      ((r.step bit).1, output ||| ((r.step bit).2 <<< (7 - i)))) (stateRegs state, 0#8)
  { nextState := r.state, output := output }

/-! ## One byte at a time -/

/-- What the first encoder and the checksums have done so far; without a code block checksum its
pointer is null. -/
structure Coder where
  input : ℕ → BitVec 8
  parity : ℕ → BitVec 8
  crcTb : Crc
  crcCb : Option Crc
  state0 : Fin 8

namespace Coder

/-- The first encoder takes in a byte. -/
def encodeByte (c : Coder) (idx : ℕ) (byte : BitVec 8) : Coder :=
  let l := tcodLut c.state0 byte
  { c with parity := update c.parity idx l.output, state0 := l.nextState }

/-- A byte of the block, for both checksums and the encoder. -/
def dataByte (c : Coder) (i : ℕ) : Coder :=
  let byte := c.input i
  { c with
    crcTb := c.crcTb.putByte byte
    crcCb := c.crcCb.map fun h => Crc.putByte h byte }.encodeByte i byte

/-- A byte of a checksum is written behind the block and encoded. -/
def checksumByte (base : ℕ) (checksum : BitVec 32) (order : ℕ) (c : Coder) (i : ℕ) : Coder :=
  let byte := Crc.checksumByte checksum order i
  { c with input := update c.input (base + i) byte }.encodeByte (base + i) byte

/-- A byte of the transport block checksum, which that of the code block covers. -/
def tbChecksumByte (base : ℕ) (checksum : BitVec 32) (order : ℕ) (c : Coder) (i : ℕ) : Coder :=
  let byte := Crc.checksumByte checksum order i
  { c with crcCb := c.crcCb.map fun h => Crc.putByte h byte }.checksumByte base checksum order i

/-- Appending the checksum of the transport block. -/
def appendTb (c : Coder) (base : ℕ) : Coder :=
  (List.range (c.crcTb.order / 8)).foldl
    (tbChecksumByte base (c.crcTb.checksumGet.setWidth 32) c.crcTb.order) c

/-- Appending the checksum of the code block. -/
def appendCb (c : Coder) (crcCb : Crc) (longCb : ℕ) : Coder :=
  (List.range (crcCb.order / 8)).foldl
    (checksumByte ((longCb - crcCb.order) / 8) (crcCb.checksumGet.setWidth 32) crcCb.order) c

end Coder

/-- `block_size_nocrc`, with the subtraction of the 32-bit words. -/
def blockSizeNocrc (longCb : ℕ) (crcTb : Crc) (crcCb : Option Crc) (lastCb : Bool) : ℕ :=
  (BitVec.ofNat 32 longCb - BitVec.ofNat 32 ((crcCb.map Crc.order).getD 0) -
    BitVec.ofNat 32 (if lastCb then crcTb.order else 0)).toNat / 8

/-- The size of `cb_in`, the buffer of the block, in bytes. -/
def cbInLen : ℕ := (tcodMaxLenCb + 8) / 8

/-- The loops of the first encoder. There is no result if the one over the bytes of the block leaves
the buffer. -/
def encodeFirst (c : Coder) (longCb : ℕ) (lastCb : Bool) : Option Coder :=
  let nocrc := blockSizeNocrc longCb c.crcTb c.crcCb lastCb
  if cbInLen < nocrc then none
  else
    let c := (List.range nocrc).foldl Coder.dataByte c
    let c := if lastCb then c.appendTb nocrc else c
    match c.crcCb with
    | some crcCb => some (c.appendCb crcCb longCb)
    | none => some c

/-- The loop body of the second encoder: the parity bits of a byte go to two. -/
def encodeSecondByte (temp : ℕ → BitVec 8) (base : ℕ) (s : (ℕ → BitVec 8) × Fin 8) (i : ℕ) :
    (ℕ → BitVec 8) × Fin 8 :=
  let (parity, state1) := s
  let l := tcodLut state1 (temp i)
  let out := l.output
  let parity := update parity (base + i) (parity (base + i) ||| ((out &&& 0xf0) >>> 4))
  (update parity (base + i + 1) ((out &&& 0xf) <<< 4), l.nextState)

/-- `srsran_tcod_encode_lut`, with the buffer for the interleaved block; it returns the block, the
parity bits and the checksums. -/
def tcodEncodeLut (sse : Bool) (temp : ℕ → BitVec 8) (crcTb : Crc) (crcCb : Option Crc)
    (input parity : ℕ → BitVec 8) (cblenIdx : ℕ) (lastCb : Bool) : Option Coder :=
  if cblenIdx < 188 then do
    let longCb ← cbsize cblenIdx
    if longCb % 8 ≠ 0 then none
    else
      let crcCb := crcCb.map fun h => (h.setInit 0).1
      let c ← encodeFirst ⟨input, parity, crcTb, crcCb, 0⟩ longCb lastCb
      let parity := update c.parity (longCb / 8) 0
      let temp := (tcodInterleavers cblenIdx).run sse c.input temp 0
      let (parity, state1) :=
        (List.range (longCb / 8)).foldl (encodeSecondByte temp (longCb / 8)) (parity, 0)
      let tail := (stateRegs c.state0).tailing nofRegs ++ (stateRegs state1).tailing nofRegs
      let tailv (j i : ℕ) : BitVec 8 := tail.getD (3 * i + j) 0
      let input := update c.input (longCb / 8) ((bitPack (tailv 0) 4 <<< 4).setWidth 8)
      let parity := update parity (longCb / 8)
        (parity (longCb / 8) ||| (bitPack (tailv 1) 4 <<< 4).setWidth 8)
      let parity := update parity (2 * longCb / 8)
        (parity (2 * longCb / 8) ||| (bitPack (tailv 2) 4 &&& 0xf).setWidth 8)
      some { c with input := input, parity := parity }
  else none

end MbmsTx.Phy.Fec
