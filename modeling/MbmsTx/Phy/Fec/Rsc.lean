import MbmsTx.Lib.Mealy
import MbmsTx.Phy.Fec.TurboCoder

/-!
# The constituent encoder of the turbo code

The recursive systematic convolutional encoder, as a machine over bits: three registers, feedback
`1 + D² + D³` and parity `1 + D + D³`. The code runs it on bytes of one bit (`regs_step`), and from
a table on bytes of eight (`run_tcodLut`). The bit-wise coder is the interlaced output of two such
machines (`tcodEncode_eq`).
-/

namespace MbmsTx.Phy.Fec

open ByteBits Mealy List

/-! ## The machine -/

/-- The registers of the encoder. -/
structure Rsc where
  reg0 : Bool
  reg1 : Bool
  reg2 : Bool
deriving DecidableEq

namespace Rsc

/-- A bit goes in, a parity bit comes out. -/
def step (s : Rsc) (b : Bool) : Rsc × Bool :=
  let fed := b ^^ (s.reg2 ^^ s.reg1)
  (⟨fed, s.reg0, s.reg1⟩, s.reg2 ^^ (s.reg0 ^^ fed))

/-- All registers are clear. -/
def zero : Rsc := ⟨false, false, false⟩

/-- The systematic and parity bits that clear the registers. -/
def tail : ℕ → Rsc → List Bool
  | 0, _ => []
  | j + 1, s => (s.reg2 ^^ s.reg1) :: (s.step (s.reg2 ^^ s.reg1)).2 ::
      tail j (s.step (s.reg2 ^^ s.reg1)).1

end Rsc

/-! ## Bytes that hold one bit -/

theorem toBit_ne_txNull (b : Bool) : toBit b ≠ txNull := by
  revert b
  decide

theorem toBit_xor (a b : Bool) : toBit a ^^^ toBit b = toBit (a ^^ b) := by
  revert a b
  decide

namespace Rsc

/-- The registers as the code keeps them. -/
def regs (s : Rsc) : Regs := ⟨toBit s.reg0, toBit s.reg1, toBit s.reg2⟩

theorem regs_step (s : Rsc) (b : Bool) :
    s.regs.step (toBit b) = ((s.step b).1.regs, toBit (s.step b).2) := by
  simp only [Regs.step, regs, step, toBit_xor]

theorem regs_tailing (s : Rsc) (n : ℕ) : s.regs.tailing n = (s.tail n).map toBit := by
  induction n generalizing s with
  | zero => rfl
  | succ n ih =>
    have hbit : s.regs.reg2 ^^^ s.regs.reg1 = toBit (s.reg2 ^^ s.reg1) := toBit_xor _ _
    rw [Regs.tailing, tail, hbit, regs_step, ih, map_cons, map_cons]

end Rsc

/-! ## The table -/

/-- The registers of a state of the table. -/
def Rsc.ofState (state : Fin 8) : Rsc :=
  ⟨state.val.testBit 2, state.val.testBit 1, state.val.testBit 0⟩

theorem stateRegs_eq (state : Fin 8) : stateRegs state = (Rsc.ofState state).regs := by
  revert state
  decide

theorem ofState_state (s : Rsc) : Rsc.ofState s.regs.state = s := by
  have hall : ∀ a b c, Rsc.ofState (Rsc.mk a b c).regs.state = ⟨a, b, c⟩ := by decide
  exact hall s.reg0 s.reg1 s.reg2

theorem and_shift_ne_zero (data : BitVec 8) {i : ℕ} (hi : i < 8) :
    data &&& (1 <<< (7 - i)) ≠ 0 ↔ data.getMsbD i := by
  have hmask : ∀ i : Fin 8, (1 <<< (7 - i.val) : BitVec 8) = mask i := by decide
  rw [hmask ⟨i, hi⟩]
  exact BitInterleaver.and_mask_ne_zero data hi

theorem lutLoop_eq (s : Rsc) (data : BitVec 8) {n : ℕ} (hn : n ≤ 8) :
    let r := (List.range n).foldl (fun (r, output) i =>
      let bit : BitVec 8 := if data &&& (1 <<< (7 - i)) ≠ 0 then 1 else 0
      ((r.step bit).1, output ||| ((r.step bit).2 <<< (7 - i)))) (s.regs, 0#8)
    r.1 = (stateAt Rsc.step s data.getMsbD n).regs ∧
      ∀ j < 8, r.2.getMsbD j = (decide (j < n) && outAt Rsc.step s data.getMsbD j) := by
  induction n with
  | zero => simp
  | succ n ih =>
    obtain ⟨hregs, hout⟩ := ih (by omega)
    have hbit : (if data &&& (1 <<< (7 - n)) ≠ 0 then (1 : BitVec 8) else 0) =
        toBit (data.getMsbD n) := by
      simp only [and_shift_ne_zero data (by omega : n < 8), toBit]
    rw [range_succ, foldl_append, foldl_cons, foldl_nil]
    dsimp only at hregs hout ⊢
    rw [hbit, hregs, Rsc.regs_step]
    refine ⟨by rw [stateAt_succ], ?_⟩
    intro j hj
    rw [BitVec.getMsbD_or, hout j hj, getMsbD_toBit_shiftLeft _ (by omega) hj, ← or_decide_eq]
    rfl

/-- The table as a machine over bytes. -/
def lutStep (state : Fin 8) (data : BitVec 8) : Fin 8 × BitVec 8 :=
  ((tcodLut state data).nextState, (tcodLut state data).output)

theorem run_tcodLut (state : Fin 8) (data : BitVec 8) :
    run Rsc.step (Rsc.ofState state) (bitsOf data) =
      (Rsc.ofState (lutStep state data).1, bitsOf (lutStep state data).2) := by
  obtain ⟨hregs, hout⟩ := lutLoop_eq (Rsc.ofState state) data (le_refl 8)
  rw [← stateRegs_eq] at hregs hout
  have hnext : Rsc.ofState (lutStep state data).1 =
      stateAt Rsc.step (Rsc.ofState state) data.getMsbD 8 := by
    refine (congrArg (fun r => Rsc.ofState (Regs.state r)) hregs).trans ?_
    exact ofState_state _
  have hbits : bitsOf (lutStep state data).2 =
      (List.range 8).map (outAt Rsc.step (Rsc.ofState state) data.getMsbD) := by
    refine map_congr_left ?_
    intro j hj
    have hj := mem_range.mp hj
    refine (hout j hj).trans ?_
    rw [decide_eq_true hj, Bool.true_and]
  rw [hnext, hbits, bitsOf, run_map_range]

/-! ## The bit-wise coder -/

/-- The parity bits of a stream. -/
def parityAt (f : ℕ → Bool) (n : ℕ) : Bool := outAt Rsc.step Rsc.zero f n

/-- The tail bits of the two encoders after a block of `longCb` bits. -/
def tailBits (f : ℕ → Bool) (per : ℕ → ℕ) (longCb : ℕ) : List Bool :=
  (stateAt Rsc.step Rsc.zero f longCb).tail nofRegs ++
    (stateAt Rsc.step Rsc.zero (f ∘ per) longCb).tail nofRegs

/-- The block, its parity bits and those of the interleaved block, bit by bit, and the tail bits. -/
def interlaced (f : ℕ → Bool) (per : ℕ → ℕ) (longCb : ℕ) : List Bool :=
  (List.range longCb).flatMap (fun i => [f i, parityAt f i, parityAt (f ∘ per) i]) ++
    tailBits f per longCb

variable (f : ℕ → Bool) (per : ℕ → ℕ)

theorem foldl_encodeBit (n : ℕ) :
    (List.range n).foldl (encodeBit per fun i => toBit (f i)) ⟨[], ⟨0, 0, 0⟩, ⟨0, 0, 0⟩⟩ =
      ⟨((List.range n).flatMap fun i => [f i, parityAt f i, parityAt (f ∘ per) i]).map toBit,
        (stateAt Rsc.step Rsc.zero f n).regs, (stateAt Rsc.step Rsc.zero (f ∘ per) n).regs⟩ := by
  induction n with
  | zero => rfl
  | succ n ih =>
    rw [range_succ, foldl_append, ih, foldl_cons, foldl_nil, encodeBit]
    simp only [toBit_ne_txNull, if_false, Rsc.regs_step, stateAt_succ, flatMap_append,
      map_append, flatMap_singleton]
    rfl

theorem tcodEncode_eq {cblenIdx longCb : ℕ} (hsize : cbsize cblenIdx = some longCb) (f : ℕ → Bool) :
    tcodEncode tcodMaxLenCb (fun i => toBit (f i)) longCb =
      some ((interlaced f (tcodPerFw cblenIdx) longCb).map toBit) := by
  have hle : ¬ tcodMaxLenCb < longCb := Nat.not_lt.mpr (size_of_mem (mem_of_cbsize hsize)).2.2
  rw [tcodEncode, if_neg hle, cbindex_cbsize hsize]
  simp only [Option.bind_eq_bind, Option.bind_some, foldl_encodeBit, Rsc.regs_tailing, interlaced,
    tailBits, map_append, append_assoc]

theorem length_triples {α : Type*} (f g h : ℕ → α) (n : ℕ) :
    ((List.range n).flatMap fun i => [f i, g i, h i]).length = 3 * n := by
  simp [mul_comm]

theorem getElem?_interlaced {longCb n j : ℕ} (hn : n < longCb) (hj : j < 3) :
    (interlaced f per longCb)[3 * n + j]? = [f n, parityAt f n, parityAt (f ∘ per) n][j]? := by
  rw [interlaced, List.getElem?_append_left (by rw [length_triples]; omega)]
  exact Blocks.getElem?_flatMap_range (fun _ _ => rfl) hn hj

theorem getElem?_interlaced_tail (longCb k : ℕ) :
    (interlaced f per longCb)[3 * longCb + k]? = (tailBits f per longCb)[k]? := by
  rw [interlaced, List.getElem?_append_right (by rw [length_triples]; omega), length_triples,
    Nat.add_sub_cancel_left]

end MbmsTx.Phy.Fec
