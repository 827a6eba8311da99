import MbmsTx.Phy.Fec.BitCopy
import MbmsTx.Phy.Fec.BitInterleaver
import MbmsTx.Phy.Fec.CbSegm
import MbmsTx.Phy.Fec.RmTurbo

/-!
# Turbo rate matching

`srsran_rm_turbo_tx_lut` of `rm_turbo.c` fills the soft buffer of a code block in redundancy version
0, and sends what the soft buffer holds, around it as often as needed. The coded bits that it sends
are those of the receiver's table, if the soft buffer was filled with the block
(`sendsCodedBits_of_loaded`); for the other redundancy versions the coded bits given in the call are
not read.
-/

namespace MbmsTx.Phy.Fec

open Blocks ByteBits Gaps Memory List Option Nat

/-! ## The functions of the source -/

/-- The arguments of a call, apart from the soft buffer. The sums of the function are of type `int`.
-/
structure TxCall where
  systematic : ℕ → BitVec 8
  parity : ℕ → BitVec 8
  output : ℕ → BitVec 8
  cbIdx : ℕ
  outLen : ℕ
  wOffset : ℕ
  rvIdx : ℕ
  small : wOffset + outLen + (3 * tcodMaxLenCb + 12) ≤ 2 ^ 31

/-- Sub-block interleaver and bit collection: the systematic bits and, from the middle of a byte on,
the parity bits. -/
def fillSoftBuffer (sse : Bool) (cbLen : ℕ) (wBuff systematic parity : ℕ → BitVec 8) :
    ℕ → BitVec 8 :=
  let inLen := 3 * cbLen + 12
  let tables := gentables inLen
  let wBuff := BitInterleaver.run sse
    (BitInterleaver.init (fun i => tables.systematicBits.getD i 0) (cbLen + 4)) systematic wBuff 0
  let behind := BitInterleaver.run sse
    (BitInterleaver.init (fun i => tables.parityBits.getD i 0) ((cbLen + 4) * 2)) parity
    (fun k => wBuff (inLen / 24 + k)) 4
  fun k => if k < inLen / 24 then wBuff k else behind (k - inLen / 24)

/-- The loop of the bit selection; `none` also for a sum of type `int` that overflows. -/
def txLoop (wBuff : ℕ → BitVec 8) (inLen outLen wOffset : ℕ) :
    ℕ → (ℕ → BitVec 8) → ℕ → ℕ → Option (ℕ → BitVec 8)
  | 0, output, _, wLen => if wLen < outLen then none else some output
  | fuel + 1, output, rPtr, wLen =>
    if wLen < outLen then
      let cpLen := outLen - wLen
      if 2 ^ 31 ≤ cpLen + rPtr then none
      else do
        let cpLen := if inLen ≤ cpLen + rPtr then inLen - rPtr else cpLen
        let output ← bitCopy32 output (.ofNat (wLen + wOffset)) wBuff (.ofNat rPtr) (.ofNat cpLen)
        let rPtr := rPtr + cpLen
        let rPtr := if inLen ≤ rPtr then rPtr - inLen else rPtr
        txLoop wBuff inLen outLen wOffset fuel output rPtr (wLen + cpLen)
    else some output

/-- `srsran_rm_turbo_tx_lut`: the soft buffer and the output. -/
def rmTurboTxLut (sse : Bool) (wBuff : ℕ → BitVec 8) (c : TxCall) :
    Option ((ℕ → BitVec 8) × (ℕ → BitVec 8)) :=
  if c.rvIdx < 4 ∧ c.cbIdx < nofTcCbSizes then do
    let cbLen ← cbsize c.cbIdx
    let inLen := 3 * cbLen + 12
    let wBuff := if c.rvIdx = 0 then fillSoftBuffer sse cbLen wBuff c.systematic c.parity else wBuff
    let rPtr ← (gentables inLen).k0Start c.rvIdx
    let output ← txLoop wBuff inLen c.outLen c.wOffset c.outLen c.output rPtr 0
    some (wBuff, output)
  else none

/-! ## The content of the soft buffer -/

/-- A coded bit, numbered in the interlaced order. -/
def codedBit (systematic parity : ℕ → BitVec 8) (d idx : ℕ) : Bool :=
  if idx % 3 = 0 then bitAt systematic (idx / 3)
  else if idx % 3 = 1 then bitAt parity (idx / 3)
  else bitAt parity (d + idx / 3)

variable (systematic parity : ℕ → BitVec 8)

theorem codedBit_zero (d n : ℕ) : codedBit systematic parity d (3 * n) = bitAt systematic n := by
  have hdiv : 3 * n / 3 = n := by omega
  rw [codedBit, if_pos (by omega), hdiv]

theorem codedBit_one (d n : ℕ) : codedBit systematic parity d (3 * n + 1) = bitAt parity n := by
  have hdiv : (3 * n + 1) / 3 = n := by omega
  rw [codedBit, if_neg (by omega), if_pos (by omega), hdiv]

theorem codedBit_two (d n : ℕ) :
    codedBit systematic parity d (3 * n + 2) = bitAt parity (n + d) := by
  have hdiv : (3 * n + 2) / 3 = n := by omega
  rw [codedBit, if_neg (by omega), if_neg (by omega), hdiv, Nat.add_comm]

section Content

variable {d : ℕ} (hd : 0 < d)

/-- The soft buffer holds the coded bits of a block in the order of the circular buffer. -/
def Loaded (wBuff systematic parity : ℕ → BitVec 8) : Prop :=
  slice (bitAt wBuff) 0 (3 * d) =
    (compact (rmSubBlock d hd).slot (3 * (rmSubBlock d hd).size)).map (codedBit systematic parity d)

theorem map_codedBit_slots (systematic parity : ℕ → BitVec 8) :
    (compact (rmSubBlock d hd).slot (3 * (rmSubBlock d hd).size)).map
      (codedBit systematic parity d) =
      (gentables (3 * d)).systematicBits.map (bitAt systematic) ++
        (gentables (3 * d)).parityBits.map (bitAt parity) := by
  let b := rmSubBlock d hd
  have hlen : b.len = d := rmSubBlock_len hd
  obtain ⟨hsystematic, hparity, -⟩ := gentables_eq hd
  have hall : 3 * b.size = b.size + 2 * b.size := by omega
  have hfirst : (compact b.slot b.size).map (codedBit systematic parity d) =
      (compact b.systematic b.size).map (bitAt systematic) := by
    rw [compact_congr fun p hp => b.slot_systematic hp, compact_map, List.map_map]
    refine map_congr_left ?_
    intro n _
    exact codedBit_zero systematic parity d n
  have hslot : ∀ m, (b.slot (b.size + m)).map (codedBit systematic parity d) =
      (b.parity m).map (bitAt parity) := by
    intro m
    obtain ⟨n, rfl | rfl⟩ : ∃ n, m = 2 * n ∨ m = 2 * n + 1 := ⟨m / 2, by omega⟩
    · rw [SubBlock.slot, b.cell_even, b.stream_even, b.parity_even, Option.map_map]
      refine congrArg (fun g => Option.map g _) ?_
      funext n
      exact codedBit_one systematic parity d n
    · rw [← Nat.add_assoc, SubBlock.slot, b.cell_odd, b.stream_odd, b.parity_odd, Option.map_map,
        Option.map_map, hlen]
      refine congrArg (fun g => Option.map g _) ?_
      funext n
      exact codedBit_two systematic parity d n
  have hsecond : (compact (fun m => b.slot (b.size + m)) (2 * b.size)).map
      (codedBit systematic parity d) = (compact b.parity (2 * b.size)).map (bitAt parity) := by
    rw [← compact_map, ← compact_map]
    exact compact_congr fun m _ => hslot m
  rw [hsystematic, hparity]
  calc (compact b.slot (3 * b.size)).map (codedBit systematic parity d)
      = (compact b.slot b.size).map (codedBit systematic parity d) ++
          (compact (fun m => b.slot (b.size + m)) (2 * b.size)).map
            (codedBit systematic parity d) := by
        rw [hall, compact_add, map_append]
        rfl
    _ = (compact b.systematic b.size).map (bitAt systematic) ++
          (compact b.parity (2 * b.size)).map (bitAt parity) := by rw [hfirst, hsecond]

end Content

theorem slice_eq_map {xs : List ℕ} {g f : ℕ → Bool} {a n : ℕ} (hn : xs.length = n)
    (h : ∀ i < n, f (a + i) = g (xs.getD i 0)) : slice f a n = xs.map g := by
  refine ext_getElem (by simp [hn]) ?_
  intro i hi hi'
  rw [length_map, hn] at hi'
  simp [slice, h i hi', hn, hi']

variable {cbLen : ℕ} (sse : Bool)

/-- The soft buffer after it is filled: the two tables, one behind the other. -/
theorem bitAt_fillSoftBuffer (hcb : cbLen % 8 = 0)
    (wBuff systematic parity : ℕ → BitVec 8) {p : ℕ} (hp : p < 3 * (cbLen + 4)) :
    bitAt (fillSoftBuffer sse cbLen wBuff systematic parity) p =
      if p < cbLen + 4 then
        bitAt systematic ((gentables (3 * cbLen + 12)).systematicBits.getD p 0)
      else bitAt parity ((gentables (3 * cbLen + 12)).parityBits.getD (p - (cbLen + 4)) 0) := by
  have hbase : (3 * cbLen + 12) / 24 = cbLen / 8 := by omega
  rw [fillSoftBuffer, hbase]
  generalize hfirst : BitInterleaver.run sse (BitInterleaver.init
    (fun i => (gentables (3 * cbLen + 12)).systematicBits.getD i 0) (cbLen + 4))
    systematic wBuff 0 = first
  have hsys : ∀ q, q < cbLen + 4 → bitAt first q =
      bitAt systematic ((gentables (3 * cbLen + 12)).systematicBits.getD q 0) := by
    intro q hq
    rw [← hfirst, BitInterleaver.bitAt_run_zero, if_pos hq]
  by_cases hlow : p / 8 < cbLen / 8
  · rw [if_pos (by omega), ← hsys p (by omega), bitAt, if_pos hlow, bitAt]
  have hview : ∀ behind : ℕ → BitVec 8,
      bitAt (fun k => if k < cbLen / 8 then first k else behind (k - cbLen / 8)) p =
        bitAt behind (p - cbLen) := by
    intro behind
    have hdiv : (p - cbLen) / 8 = p / 8 - cbLen / 8 := by omega
    have hmod : (p - cbLen) % 8 = p % 8 := by omega
    rw [bitAt, if_neg hlow, bitAt, hdiv, hmod]
  rw [hview, BitInterleaver.bitAt_run_of_whole _ _ _ _ (by decide) (by decide) (by omega) (by omega)
    fun p hp _ => congrArg _ (by omega)]
  by_cases hsystematic : p < cbLen + 4
  · have hdiv : cbLen / 8 + (p - cbLen) / 8 = p / 8 := by omega
    have hmod : (p - cbLen) % 8 = p % 8 := by omega
    rw [if_neg (by omega), if_pos hsystematic, ← hsys p hsystematic, bitAt, bitAt, hdiv, hmod]
  · have hidx : p - cbLen - 4 = p - (cbLen + 4) := by omega
    rw [if_pos (by omega), if_neg hsystematic, hidx]

theorem loaded_fillSoftBuffer (hcb : cbLen % 8 = 0) (wBuff systematic parity : ℕ → BitVec 8) :
    Loaded (succ_pos (cbLen + 3)) (fillSoftBuffer sse cbLen wBuff systematic parity) systematic
      parity := by
  have hinLen : 3 * cbLen + 12 = 3 * (cbLen + 4) := by omega
  have hbits := fun p hp => bitAt_fillSoftBuffer sse hcb wBuff systematic parity (p := p) hp
  rw [hinLen] at hbits
  generalize fillSoftBuffer sse cbLen wBuff systematic parity = filled at hbits
  have hd : 0 < cbLen + 4 := succ_pos (cbLen + 3)
  let b := rmSubBlock (cbLen + 4) hd
  have hlen : b.len = cbLen + 4 := rmSubBlock_len hd
  have hslots := congrArg List.length (map_codedBit_slots hd systematic parity)
  have hfirstLen : (gentables (3 * (cbLen + 4))).systematicBits.length = cbLen + 4 := by
    rw [(gentables_eq hd).1, b.perm_systematic.length_eq, length_range, hlen]
  have hsecondLen : (gentables (3 * (cbLen + 4))).parityBits.length = 2 * (cbLen + 4) := by
    rw [length_map, length_append, length_map, length_map, hfirstLen,
      b.perm_slots.length_eq, length_range, hlen] at hslots
    omega
  have hsum : 3 * (cbLen + 4) = cbLen + 4 + 2 * (cbLen + 4) := by omega
  rw [Loaded, map_codedBit_slots hd]
  nth_rewrite 1 [hsum]
  rw [slice_add]
  refine congrArg₂ (· ++ ·) ?_ ?_
  · refine slice_eq_map hfirstLen ?_
    intro i hi
    rw [Nat.zero_add, hbits i (by omega), if_pos hi]
  · refine slice_eq_map hsecondLen ?_
    intro i hi
    have hidx : 0 + (cbLen + 4) + i - (cbLen + 4) = i := by omega
    rw [hbits _ (by omega), if_neg (by omega), hidx]

/-! ## Bit selection -/

/-- The loop sends the soft buffer around from `start` on, and keeps what is before its output. -/
theorem txLoop_spec (wBuff output₀ : ℕ → BitVec 8) {inLen : ℕ} (outLen wOffset : ℕ) {start : ℕ}
    (hsmall : wOffset + outLen + inLen ≤ 2 ^ 31) (hstart : start < inLen) {fuel : ℕ}
    {output : ℕ → BitVec 8} {rPtr wLen : ℕ}
    (hfuel : outLen ≤ wLen + fuel) (hle : wLen ≤ outLen) (hrPtr : rPtr = (start + wLen) % inLen)
    (hfront : ∀ p < wOffset, bitAt output p = bitAt output₀ p)
    (hsent : ∀ i < wLen, bitAt output (wOffset + i) = bitAt wBuff ((start + i) % inLen)) :
    ∃ out, txLoop wBuff inLen outLen wOffset fuel output rPtr wLen = some out ∧
      (∀ p < wOffset, bitAt out p = bitAt output₀ p) ∧
      ∀ i < outLen, bitAt out (wOffset + i) = bitAt wBuff ((start + i) % inLen) := by
  induction fuel generalizing output rPtr wLen with
  | zero =>
    have hdone : wLen = outLen := by omega
    subst hdone
    refine ⟨output, ?_, hfront, hsent⟩
    rw [txLoop, if_neg (lt_irrefl _)]
  | succ fuel ih =>
    rw [txLoop]
    by_cases hmore : wLen < outLen
    · have hrlt : rPtr < inLen := by
        rw [hrPtr]
        exact Nat.mod_lt _ (by omega)
      rw [if_pos hmore, if_neg (by omega)]
      dsimp only
      obtain ⟨cpLen, hcp⟩ : ∃ n, n = if inLen ≤ outLen - wLen + rPtr then inLen - rPtr
        else outLen - wLen := ⟨_, rfl⟩
      rw [← hcp]
      have hbounds : 0 < cpLen ∧ wLen + cpLen ≤ outLen ∧ rPtr + cpLen ≤ inLen := by
        rw [hcp]
        split <;> omega
      rw [bitCopy32_of_lt (by omega) (by omega) (by omega), bind_eq_bind, bind_some]
      have hwrap : ∀ t, (start + (wLen + t)) % inLen = (rPtr + t) % inLen := by
        intro t
        rw [← Nat.add_assoc, ← mod_add_mod, ← hrPtr]
      refine ih (by omega) (by omega) ?_ ?_ ?_
      · rw [hwrap]
        rcases Nat.lt_or_eq_of_le hbounds.2.2 with hlt | hend
        · rw [if_neg (by omega), mod_eq_of_lt hlt]
        · rw [hend, if_pos le_rfl, mod_self, Nat.sub_self]
      · intro p hp
        rw [bitAt_bitCopy _ _ _ _ _ (by omega), if_neg (by omega)]
        exact hfront p hp
      · intro i hi
        rw [bitAt_bitCopy _ _ _ _ _ (by omega)]
        by_cases hold : i < wLen
        · rw [if_neg (by omega)]
          exact hsent i hold
        have hidx : rPtr + (wOffset + i - (wLen + wOffset)) = rPtr + (i - wLen) := by omega
        have hpos : i = wLen + (i - wLen) := by omega
        have hmod := hwrap (i - wLen)
        rw [← hpos, mod_eq_of_lt (by omega : rPtr + (i - wLen) < inLen)] at hmod
        rw [if_pos (by omega), hidx, hmod]
    · have hdone : wLen = outLen := by omega
      subst hdone
      refine ⟨output, ?_, hfront, hsent⟩
      simp

/-! ## Calls on one soft buffer -/

/-- The soft buffer that a call sends from. -/
def TxCall.softBuffer (c : TxCall) (sse : Bool) (cbLen : ℕ) (wBuff : ℕ → BitVec 8) : ℕ → BitVec 8 :=
  if c.rvIdx = 0 then fillSoftBuffer sse cbLen wBuff c.systematic c.parity else wBuff

variable (wBuff : ℕ → BitVec 8)

/-- A call for a size of the table sends the soft buffer around from the start of its redundancy
version on. -/
theorem rmTurboTxLut_spec {c : TxCall}
    (hcb : cbsize c.cbIdx = some cbLen) (hrv : c.rvIdx < 4) (hd : 0 < cbLen + 4) :
    ∃ out, rmTurboTxLut sse wBuff c = some (c.softBuffer sse cbLen wBuff, out) ∧
      ∀ i < c.outLen, bitAt out (c.wOffset + i) = bitAt (c.softBuffer sse cbLen wBuff)
        ((rank (rmSubBlock (cbLen + 4) hd).slot (rmK0 (rmNrows (3 * (cbLen + 4))) c.rvIdx) + i) %
          (3 * (cbLen + 4))) := by
  let b := rmSubBlock (cbLen + 4) hd
  have hinLen : 3 * cbLen + 12 = 3 * (cbLen + 4) := by omega
  have hstart := rank_k0_lt hd hrv
  rw [b.rank_slots, rmSubBlock_len] at hstart
  have hsmall : c.wOffset + c.outLen + 3 * (cbLen + 4) ≤ 2 ^ 31 := by
    have hle : cbLen ≤ tcodMaxLenCb := (size_of_mem (mem_of_cbsize hcb)).2.2
    have hcall := c.small
    omega
  obtain ⟨out, hloop, -, hsent⟩ := txLoop_spec (c.softBuffer sse cbLen wBuff) c.output c.outLen
    c.wOffset hsmall hstart (le_of_eq (Nat.zero_add c.outLen).symm) (zero_le _)
    (mod_eq_of_lt hstart).symm (fun _ _ => rfl) (fun i hi => absurd hi (Nat.not_lt_zero i))
  refine ⟨out, ?_, hsent⟩
  rw [rmTurboTxLut, if_pos ⟨hrv, cbsize_lt hcb⟩, hcb, bind_eq_bind, bind_some, hinLen]
  dsimp only
  rw [(gentables_eq hd).2.2 _ hrv, bind_some, ← TxCall.softBuffer, hloop]
  rfl

/-- The soft buffer after a call, which an error does not change. -/
def TxCall.next (sse : Bool) (wBuff : ℕ → BitVec 8) (c : TxCall) : ℕ → BitVec 8 :=
  match rmTurboTxLut sse wBuff c with
  | some (wBuff, _) => wBuff
  | none => wBuff

/-- The call that filled the soft buffer last. -/
def loadedBy (calls : List TxCall) : Option TxCall :=
  calls.foldl (fun loaded c =>
    if c.rvIdx = 0 ∧ c.cbIdx < nofTcCbSizes then some c else loaded) none

theorem loadedBy_concat (calls : List TxCall) (c : TxCall) : loadedBy (calls ++ [c]) =
      if c.rvIdx = 0 ∧ c.cbIdx < nofTcCbSizes then some c else loadedBy calls := by
  rw [loadedBy, foldl_append]
  rfl

/-- The soft buffer holds the block of a call. -/
def Holding (wBuff : ℕ → BitVec 8) (b : TxCall) : Prop :=
  ∀ cbLen, cbsize b.cbIdx = some cbLen →
    Loaded (Nat.succ_pos (cbLen + 3)) wBuff b.systematic b.parity

theorem holding_softBuffer {c : TxCall} (hcb : cbsize c.cbIdx = some cbLen) (hrv : c.rvIdx = 0) :
    Holding (c.softBuffer sse cbLen wBuff) c := by
  intro cbLen' hcb'
  obtain rfl := some.inj (hcb.symm.trans hcb')
  rw [TxCall.softBuffer, if_pos hrv]
  exact loaded_fillSoftBuffer sse (size_of_mem (mem_of_cbsize hcb)).1 wBuff c.systematic c.parity

theorem holding_foldl_next {calls : List TxCall} {b : TxCall}
    (hb : loadedBy calls = some b) : Holding (calls.foldl (TxCall.next sse) wBuff) b := by
  induction calls using reverseRecOn with
  | nil => exact absurd hb (by simp [loadedBy])
  | append_singleton calls c ih =>
    rw [loadedBy_concat] at hb
    rw [foldl_append, foldl_cons, foldl_nil]
    generalize calls.foldl (TxCall.next sse) wBuff = before at ih ⊢
    by_cases hvalid : c.rvIdx < 4 ∧ c.cbIdx < nofTcCbSizes
    · obtain ⟨cbLen, hcb⟩ := cbsize_of_lt hvalid.2
      obtain ⟨out, hcall, -⟩ := rmTurboTxLut_spec sse before hcb hvalid.1 (succ_pos (cbLen + 3))
      have hnext : TxCall.next sse before c = c.softBuffer sse cbLen before := by
        rw [TxCall.next, hcall]
      rw [hnext]
      by_cases hzero : c.rvIdx = 0
      · rw [if_pos ⟨hzero, hvalid.2⟩, some.injEq] at hb
        subst hb
        exact holding_softBuffer sse before hcb hzero
      · rw [if_neg fun h => hzero h.1] at hb
        rw [TxCall.softBuffer, if_neg hzero]
        exact ih hb
    · have hnext : TxCall.next sse before c = before := by
        rw [TxCall.next, rmTurboTxLut, if_neg hvalid]
      rw [if_neg fun h => hvalid ⟨by omega, h.2⟩] at hb
      rw [hnext]
      exact ih hb

/-! ## Transmitter and receiver -/

/-- A call on a soft buffer sends the coded bits of a block that the receiver's table names, one
after the other and around; the table has every coded bit once. -/
def SendsCodedBits (sse : Bool) (wBuff : ℕ → BitVec 8) (c : TxCall) (tempTable2 : ℕ → ℕ)
    (systematic parity : ℕ → BitVec 8) : Prop :=
  ∀ cbLen, cbsize c.cbIdx = some cbLen →
    ∃ wBuff' out table, rmTurboTxLut sse wBuff c = some (wBuff', out) ∧
      gentableReceive tempTable2 (3 * cbLen + 12) c.rvIdx = some table ∧
      table.Perm (List.range (3 * cbLen + 12)) ∧
      ∀ i < c.outLen, bitAt out (c.wOffset + i) =
        codedBit systematic parity (cbLen + 4) (table.getD (i % (3 * cbLen + 12)) 0)

theorem bitAt_of_loaded {d : ℕ} (hd : 0 < d) {wBuff systematic parity : ℕ → BitVec 8}
    (h : Loaded hd wBuff systematic parity) (start i : ℕ) :
    bitAt wBuff ((start + i) % (3 * d)) = codedBit systematic parity d
      (((compact (rmSubBlock d hd).slot (3 * (rmSubBlock d hd).size)).rotate start).getD
        (i % (3 * d)) 0) := by
  have hlen : (compact (rmSubBlock d hd).slot (3 * (rmSubBlock d hd).size)).length = 3 * d := by
    rw [(rmSubBlock d hd).perm_slots.length_eq, length_range, rmSubBlock_len]
  rw [Loaded] at h
  generalize compact (rmSubBlock d hd).slot (3 * (rmSubBlock d hd).size) = slots at h hlen ⊢
  have hpos : 0 < 3 * d := by omega
  have hlt : (start + i) % (3 * d) < 3 * d := Nat.mod_lt _ hpos
  have hget := congrArg (fun xs => xs[(start + i) % (3 * d)]?) h
  have hidx : (i % (3 * d) + start) % (3 * d) = (start + i) % (3 * d) := by
    rw [mod_add_mod, Nat.add_comm]
  rw [getD_eq_getElem?_getD, List.getElem?_rotate (by rw [hlen]; exact Nat.mod_lt i hpos), hlen,
    hidx]
  simp only [slice, List.getElem?_map, List.getElem?_range hlt, map_some, Nat.zero_add] at hget
  cases hslot : slots[(start + i) % (3 * d)]? with
  | none => simp [hslot] at hget
  | some idx =>
    rw [hslot, map_some, some.injEq] at hget
    exact hget

theorem sendsCodedBits_of_loaded (c : TxCall)
    (tempTable2 : ℕ → ℕ) {systematic parity : ℕ → BitVec 8} (hrv : c.rvIdx < 4)
    (h : ∀ cbLen, cbsize c.cbIdx = some cbLen →
      Loaded (succ_pos (cbLen + 3)) (c.softBuffer sse cbLen wBuff) systematic parity) :
    SendsCodedBits sse wBuff c tempTable2 systematic parity := by
  intro cbLen hcb
  have hd : 0 < cbLen + 4 := succ_pos (cbLen + 3)
  have hinLen : 3 * cbLen + 12 = 3 * (cbLen + 4) := by omega
  obtain ⟨out, hcall, hsent⟩ := rmTurboTxLut_spec sse wBuff hcb hrv hd
  have htable := gentableReceive_eq hd tempTable2 hrv
  have hperm := (rmSubBlock (cbLen + 4) hd).perm_slots
  rw [rmSubBlock_len] at hperm
  refine ⟨c.softBuffer sse cbLen wBuff, out,
    (compact (rmSubBlock (cbLen + 4) hd).slot (3 * (rmSubBlock (cbLen + 4) hd).size)).rotate
      (rank (rmSubBlock (cbLen + 4) hd).slot (rmK0 (rmNrows (3 * (cbLen + 4))) c.rvIdx)),
    hcall, ?_, ?_, ?_⟩
  · assumption
  · rw [hinLen]
    exact (rotate_perm _ _).trans hperm
  · intro i hi
    rw [hsent i hi, hinLen]
    exact bitAt_of_loaded hd (h cbLen hcb) _ i

/-- After any calls on a soft buffer, a call sends the coded bits that the receiver's table names,
of the block that the soft buffer was filled with last: by the call itself for redundancy version 0,
for the others by the latest call before it for redundancy version 0, with the same code block size.
-/
theorem tx_agrees_with_receive_table (sse : Bool) (wBuff : ℕ → BitVec 8) (calls : List TxCall)
    (c b : TxCall) (tempTable2 : ℕ → ℕ) (hrv : c.rvIdx < 4)
    (hb : loadedBy (calls ++ [c]) = some b) (hsize : b.cbIdx = c.cbIdx) :
    SendsCodedBits sse (calls.foldl (TxCall.next sse) wBuff) c tempTable2
      b.systematic b.parity := by
  refine sendsCodedBits_of_loaded sse _ c tempTable2 hrv ?_
  intro cbLen hcb
  rw [loadedBy_concat] at hb
  by_cases hzero : c.rvIdx = 0
  · rw [if_pos ⟨hzero, cbsize_lt hcb⟩, some.injEq] at hb
    subst hb
    exact holding_softBuffer sse _ hcb hzero cbLen hcb
  · rw [if_neg fun h => hzero h.1] at hb
    rw [TxCall.softBuffer, if_neg hzero]
    exact holding_foldl_next sse wBuff hb cbLen (by rw [hsize, hcb])

/-- A block of 40 bits for redundancy version 0. -/
def exampleBlock : TxCall :=
  ⟨BitVec.ofNat 8, fun _ => 0x5a, fun _ => 0, 0, 100, 3, 0, by decide⟩

/-- With redundancy version 2, 200 of its 132 coded bits are sent. -/
def exampleRepetition : TxCall :=
  ⟨fun _ => 0, fun _ => 0, fun _ => 0, 0, 200, 0, 2, by decide⟩

theorem tx_agrees_40_bits :
    SendsCodedBits true ([exampleBlock].foldl (TxCall.next true) fun _ => 0) exampleRepetition
      (fun _ => 0) exampleBlock.systematic exampleBlock.parity :=
  tx_agrees_with_receive_table true (fun _ => 0) [exampleBlock] exampleRepetition exampleBlock
    (fun _ => 0) (by decide) rfl rfl

/-- For redundancy version 1 the given coded bits are not sent: an empty soft buffer sends zeros,
although they are ones. -/
theorem not_sendsCodedBits_rv_one : ¬ SendsCodedBits true (fun _ => 0)
      ⟨fun _ => 0xff, fun _ => 0xff, fun _ => 0, 0, 1, 0, 1, by decide⟩ (fun _ => 0) (fun _ => 0xff)
      (fun _ => 0xff) := by
  intro h
  obtain ⟨wBuff', out, table, hcall, -, -, hbits⟩ := h 40 rfl
  obtain ⟨out', hcall', hsent⟩ := rmTurboTxLut_spec true (fun _ => 0)
    (c := ⟨fun _ => 0xff, fun _ => 0xff, fun _ => 0, 0, 1, 0, 1, by decide⟩) rfl
    (by decide) (succ_pos 43)
  have hout : out = out' := congrArg Prod.snd (some.inj (hcall.symm.trans hcall'))
  have hone : ∀ p, bitAt (fun _ => 0xff) p := by
    intro p
    have hall : ∀ j : Fin 8, (0xff : BitVec 8).getMsbD j := by decide
    exact hall ⟨p % 8, Nat.mod_lt p (by decide)⟩
  have hcoded : ∀ idx, codedBit (fun _ => 0xff) (fun _ => 0xff) 44 idx := by
    intro idx
    simp only [codedBit, hone, ite_self]
  have hzero : bitAt out 0 = false := by
    rw [hout]
    refine (hsent 0 (by decide)).trans ?_
    rfl
  have hsame := hbits 0 (by decide)
  rw [hcoded] at hsame
  exact absurd (hzero.symm.trans hsame) (by decide)

end MbmsTx.Phy.Fec
