import MbmsTx.Phy.Fec.Rsc

/-!
# The first encoder and the checksums of the byte-wise turbo coder

The loops over the bytes of a block, over the checksum of the transport block and over the one of
the code block write the block byte by byte. After `m` bytes the parity bytes and the encoder are
those of the run over these bytes (`Coded`), whichever loop wrote them, and the checksums have been
fed the bytes they cover.
-/

namespace MbmsTx.Phy.Fec

open ByteBits Mealy Memory MbmsTx.Crc List Function

/-! ## The encoder -/

/-- The first encoder has taken in the first `m` bytes of the block. -/
structure Coded (c : Coder) (m : ℕ) : Prop where
  state_eq : c.state0 = (run lutStep 0 (slice c.input 0 m)).1
  parity_eq : slice c.parity 0 m = (run lutStep 0 (slice c.input 0 m)).2

theorem slice_concat {α : Type*} (mem : ℕ → α) (m : ℕ) :
    slice mem 0 (m + 1) = slice mem 0 m ++ [mem m] := by
  rw [slice_add, slice_succ, slice_zero, zero_add]

theorem slice_update {α : Type*} (mem : ℕ → α) (m : ℕ) (v : α) :
    slice (Function.update mem m v) 0 m = slice mem 0 m := by
  refine slice_congr ?_
  intro i hi
  rw [update_of_ne (by omega)]

variable {base : ℕ}

namespace Coded

variable {c : Coder} {m : ℕ}

theorem encodeByte (h : Coded c m) : Coded (c.encodeByte m (c.input m)) (m + 1) := by
  have hinput : (c.encodeByte m (c.input m)).input = c.input := rfl
  have hstep : run lutStep 0 (slice c.input 0 (m + 1)) =
      ((lutStep c.state0 (c.input m)).1,
        slice c.parity 0 m ++ [(lutStep c.state0 (c.input m)).2]) := by
    rw [slice_concat, run_concat, ← h.state_eq, ← h.parity_eq]
  refine ⟨?_, ?_⟩
  · rw [hinput, hstep]
    rfl
  · rw [hinput, hstep, slice_concat]
    simp only [Coder.encodeByte, slice_update, update_self]
    rfl

theorem write (h : Coded c m) (v : BitVec 8) :
    Coded { c with input := Function.update c.input m v } m :=
  ⟨by simpa only [slice_update] using h.state_eq, by simpa only [slice_update] using h.parity_eq⟩

theorem checksumByte (h : Coded c m) {i : ℕ} (hm : base + i = m) (checksum : BitVec 32)
    (order : ℕ) : Coded (c.checksumByte base checksum order i) (m + 1) := by
  have hwrite := (h.write (Crc.checksumByte checksum order i)).encodeByte
  dsimp only at hwrite
  rw [update_self] at hwrite
  rw [Coder.checksumByte, hm]
  exact hwrite

end Coded

/-! ## The bytes of the block -/

/-- The generator of the checksum of a transport block. -/
def gTb : BitVec 24 := lteCrc24a.setWidth 24

/-- The generator of the checksum of a code block. -/
def gCb : BitVec 24 := lteCrc24b.setWidth 24

/-- The first `m` bytes of the block have been taken in, after the bytes `before` of the transport
block. -/
structure Taken (start : Coder) (before : List (BitVec 8)) (m : ℕ) (c : Coder) : Prop where
  coded : Coded c m
  input_eq : c.input = start.input
  tb : Crc.Divides gTb c.crcTb ((before ++ slice start.input 0 m).flatMap bitsOf)
  cb : ∀ h, c.crcCb = some h → Crc.Divides gCb h ((slice start.input 0 m).flatMap bitsOf)
  isSome_eq : c.crcCb.isSome = start.crcCb.isSome

variable {before : List (BitVec 8)} {start : Coder}

theorem Taken.dataByte {c : Coder} {m : ℕ} (h : Taken start before m c) :
    Taken start before (m + 1) (c.dataByte m) where
  coded := Coded.encodeByte (c := { c with
    crcTb := c.crcTb.putByte (c.input m)
    crcCb := c.crcCb.map fun h => Crc.putByte h (c.input m) }) ⟨h.coded.state_eq, h.coded.parity_eq⟩
  input_eq := h.input_eq
  tb := by
    rw [slice_concat, ← congrFun h.input_eq m, ← append_assoc, flatMap_append, flatMap_singleton]
    exact h.tb.putByte (by decide) (c.input m)
  cb := by
    intro hash hhash
    obtain ⟨old, hold, rfl⟩ := Option.map_eq_some_iff.mp hhash
    rw [slice_concat, ← congrFun h.input_eq m, flatMap_append, flatMap_singleton]
    exact (h.cb old hold).putByte (by decide) (c.input m)
  isSome_eq := by
    refine Eq.trans ?_ h.isSome_eq
    exact Option.isSome_map

/-! ## The bytes of a checksum -/

/-- `k` bytes have been written behind the first `base` bytes of the block, and taken in. -/
structure Appended (start : Coder) (base : ℕ) (bytes : ℕ → BitVec 8) (k : ℕ)
    (c : Coder) : Prop where
  coded : Coded c (base + k)
  below : ∀ i < base, c.input i = start.input i
  bytes_eq : ∀ i < k, c.input (base + i) = bytes i
  crcTb_eq : c.crcTb = start.crcTb
  crcCb_eq : c.crcCb = start.crcCb

theorem Appended.checksumByte {c : Coder} {k order : ℕ} {checksum : BitVec 32}
    (h : Appended start base (Crc.checksumByte checksum order) k c) :
    Appended start base (Crc.checksumByte checksum order) (k + 1)
      (c.checksumByte base checksum order k) where
  coded := h.coded.checksumByte rfl checksum order
  below := by
    intro i hi
    refine Eq.trans ?_ (h.below i hi)
    exact update_of_ne (by omega) _ _
  bytes_eq := by
    intro i hi
    by_cases hik : i = k
    · subst hik
      exact update_self _ _ _
    · refine Eq.trans ?_ (h.bytes_eq i (by omega))
      exact update_of_ne (by omega) _ _
  crcTb_eq := h.crcTb_eq
  crcCb_eq := h.crcCb_eq

theorem appended_foldl (h : Coded start base) (checksum : BitVec 32) (order k : ℕ) :
    Appended start base (Crc.checksumByte checksum order) k
      ((range k).foldl (Coder.checksumByte base checksum order) start) := by
  induction k with
  | zero => exact ⟨h, fun _ _ => rfl, fun _ hi => absurd hi (Nat.not_lt_zero _), rfl, rfl⟩
  | succ k ih =>
    rw [range_succ, foldl_append, foldl_cons, foldl_nil]
    exact ih.checksumByte

theorem foldl_tbChecksumByte (c : Coder) (base : ℕ) (checksum : BitVec 32) (order k : ℕ) :
    (range k).foldl (Coder.tbChecksumByte base checksum order) c =
      { (range k).foldl (Coder.checksumByte base checksum order) c with
        crcCb := c.crcCb.map fun h =>
          ((range k).map (Crc.checksumByte checksum order)).foldl Crc.putByte h } := by
  induction k with
  | zero =>
    simp
  | succ k ih =>
    simp only [range_succ, foldl_append, map_append, foldl_cons,
      foldl_nil, map_cons, map_nil, ih, Coder.tbChecksumByte, Option.map_map]
    rfl

theorem isCheck_of_checksumByte {g : BitVec 24} {h : Crc} {msg : List Bool}
    (hdiv : Crc.Divides g h msg) {mem : ℕ → BitVec 8}
    (hmem : ∀ i < 3, mem (base + i) = Crc.checksumByte (h.checksumGet.setWidth 32) 24 i) :
    IsCheck g msg (slice (bitAt mem) (8 * base) 24) := by
  have hbits : slice (bitAt mem) (8 * base) 24 = bitsOf (remainder g msg) := by
    rw [← Crc.flatMap_checksumByte (by decide) (by decide), ← hdiv.checksumGet_eq,
      ← flatMap_bitsOf_slice mem base 3]
    refine congrArg (flatMap bitsOf) (map_congr_left ?_)
    intro i hi
    exact hmem i (mem_range.mp hi)
  rw [hbits]
  exact isCheck_remainder g _

/-! ## All loops -/

/-- The number of bits of the checksums that are appended. -/
def crcLen (withCb lastCb : Bool) : ℕ := (if withCb then 24 else 0) + (if lastCb then 24 else 0)

/-- The first encoder has taken in the whole block, with its checksums. -/
structure FirstDone (start : Coder) (before : List (BitVec 8)) (longCb : ℕ) (lastCb : Bool)
    (c : Coder) : Prop where
  coded : Coded c (longCb / 8)
  data : ∀ i < (longCb - crcLen start.crcCb.isSome lastCb) / 8, c.input i = start.input i
  tb : lastCb = true → IsCheck gTb
    ((before ++ slice c.input 0 ((longCb - crcLen start.crcCb.isSome lastCb) / 8)).flatMap bitsOf)
    (slice (bitAt c.input) (longCb - crcLen start.crcCb.isSome lastCb) 24)
  cb : start.crcCb.isSome = true →
    IsCheck gCb ((slice c.input 0 ((longCb - 24) / 8)).flatMap bitsOf)
    (slice (bitAt c.input) (longCb - 24) 24)

variable {lastCb : Bool} {longCb : ℕ}

theorem blockSizeNocrc_eq {crcTb : Crc} {crcCb : Option Crc} (htb : crcTb.order = 24)
    (hcb : ∀ h, crcCb = some h → h.order = 24) (hle : longCb ≤ 6144)
    (hfit : crcLen crcCb.isSome lastCb ≤ longCb) :
    blockSizeNocrc longCb crcTb crcCb lastCb = (longCb - crcLen crcCb.isSome lastCb) / 8 := by
  have hsub : ∀ a b, a + b ≤ longCb →
      (BitVec.ofNat 32 longCb - BitVec.ofNat 32 a - BitVec.ofNat 32 b).toNat =
        longCb - (a + b) := by
    intro a b hab
    simp
    omega
  rw [blockSizeNocrc, htb]
  cases crcCb with
  | none => exact congrArg (· / 8) (hsub 0 _ hfit)
  | some h =>
    have horder : ((some h).map Crc.order).getD 0 = 24 := hcb h rfl
    rw [horder]
    exact congrArg (· / 8) (hsub 24 _ hfit)

/-- The block without the code block checksum has been taken in: `m` bytes of the input and, in the
last block, the checksum of the transport block. -/
structure TbDone (start : Coder) (before : List (BitVec 8)) (m : ℕ) (lastCb : Bool) (c : Coder) :
    Prop where
  coded : Coded c (m + if lastCb then 3 else 0)
  data : ∀ i < m, c.input i = start.input i
  tb : lastCb = true → IsCheck gTb ((before ++ slice c.input 0 m).flatMap bitsOf)
    (slice (bitAt c.input) (8 * m) 24)
  cb : ∀ h, c.crcCb = some h →
    Crc.Divides gCb h ((slice c.input 0 (m + if lastCb then 3 else 0)).flatMap bitsOf)
  isSome_eq : c.crcCb.isSome = start.crcCb.isSome

theorem Taken.appendTb {c : Coder} {m : ℕ} (h : Taken start before m c) :
    TbDone start before m true (c.appendTb m) := by
  have hdone := appended_foldl h.coded (c.crcTb.checksumGet.setWidth 32) 24 3
  obtain ⟨d, hd⟩ : ∃ d, d = (range 3).foldl
      (Coder.checksumByte m (c.crcTb.checksumGet.setWidth 32) 24) c := ⟨_, rfl⟩
  rw [← hd] at hdone
  have happend : c.appendTb m = { d with crcCb := c.crcCb.map fun h => ((range 3).map
      (Crc.checksumByte (c.crcTb.checksumGet.setWidth 32) 24)).foldl Crc.putByte h } := by
    rw [Coder.appendTb, h.tb.order_eq, hd]
    exact foldl_tbChecksumByte c m _ 24 3
  have hbelow : slice d.input 0 m = slice start.input 0 m := by
    refine slice_congr ?_
    intro i hi
    rw [zero_add, hdone.below i hi, h.input_eq]
  have hbehind : slice d.input m 3 =
      (range 3).map (Crc.checksumByte (c.crcTb.checksumGet.setWidth 32) 24) := by
    refine map_congr_left ?_
    intro i hi
    exact hdone.bytes_eq i (mem_range.mp hi)
  rw [happend]
  refine ⟨⟨hdone.coded.state_eq, hdone.coded.parity_eq⟩, ?_, ?_, ?_, ?_⟩
  · intro i hi
    rw [hdone.below i hi, h.input_eq]
  · intro _
    rw [hbelow]
    exact isCheck_of_checksumByte h.tb hdone.bytes_eq
  · intro hash hhash
    obtain ⟨old, hold, rfl⟩ := Option.map_eq_some_iff.mp hhash
    rw [if_pos rfl, slice_add, zero_add, hbelow, hbehind, flatMap_append]
    exact (h.cb old hold).putBytes (by decide) _
  · rw [← h.isSome_eq]
    simp

theorem TbDone.firstDone {c : Coder} {m : ℕ} (h : TbDone start before m lastCb c)
    (hcb : c.crcCb = none) (hbits : longCb - crcLen start.crcCb.isSome lastCb = 8 * m)
    (hfit : crcLen start.crcCb.isSome lastCb ≤ longCb) :
    FirstDone start before longCb lastCb c := by
  have hnone : start.crcCb.isSome = false := by
    rw [← h.isSome_eq, hcb]
    rfl
  have hsize : m + (if lastCb then 3 else 0) = longCb / 8 := by
    rw [hnone, crcLen] at hbits hfit
    cases lastCb <;> simp at hbits hfit ⊢ <;> omega
  have hm : 8 * m / 8 = m := by omega
  refine ⟨hsize ▸ h.coded, ?_, ?_, ?_⟩
  · rw [hbits, hm]
    exact h.data
  · rw [hbits, hm]
    exact h.tb
  · intro hsome
    exact absurd (hnone ▸ hsome) Bool.false_ne_true

theorem TbDone.appendCb {c : Coder} {m : ℕ} (h : TbDone start before m lastCb c)
    {hash : Crc} (hcb : c.crcCb = some hash)
    (hbits : longCb - crcLen start.crcCb.isSome lastCb = 8 * m)
    (hfit : crcLen start.crcCb.isSome lastCb ≤ longCb) :
    FirstDone start before longCb lastCb (c.appendCb hash longCb) := by
  have hsome : start.crcCb.isSome := by
    rw [← h.isSome_eq, hcb]
    rfl
  obtain ⟨base, hbase⟩ : ∃ base, base = m + if lastCb then 3 else 0 := ⟨_, rfl⟩
  have hpos : 8 * base = longCb - 24 ∧ base + 3 = longCb / 8 ∧ m ≤ base := by
    rw [hsome, crcLen] at hbits hfit
    cases lastCb <;> simp at hbits hfit hbase <;> omega
  have hblock := h.cb hash hcb
  have hcoded := h.coded
  rw [← hbase] at hblock hcoded
  have hdone := appended_foldl hcoded (hash.checksumGet.setWidth 32) 24 3
  have happend : c.appendCb hash longCb = (range 3).foldl
      (Coder.checksumByte base (hash.checksumGet.setWidth 32) 24) c := by
    have hdiv : (longCb - 24) / 8 = base := by omega
    rw [Coder.appendCb, hblock.order_eq, hdiv]
  rw [← happend] at hdone
  have hslice : ∀ k ≤ base, slice (c.appendCb hash longCb).input 0 k = slice c.input 0 k := by
    intro k hk
    refine slice_congr ?_
    intro i hi
    exact hdone.below (0 + i) (by omega)
  have hm : 8 * m / 8 = m := by omega
  refine ⟨hpos.2.1 ▸ hdone.coded, ?_, ?_, ?_⟩
  · rw [hbits, hm]
    intro i hi
    rw [hdone.below i (by omega), h.data i hi]
  · intro hlast
    have hcheck := h.tb hlast
    have hbehind : slice (bitAt (c.appendCb hash longCb).input) (8 * m) 24 =
        slice (bitAt c.input) (8 * m) 24 := by
      refine slice_congr ?_
      intro i hi
      rw [hlast, if_pos rfl] at hbase
      exact bitAt_congr (hdone.below _ (by omega))
    rw [hbits, hm, hslice m hpos.2.2, hbehind]
    exact hcheck
  · intro _
    have hdiv : (longCb - 24) / 8 = base := by omega
    rw [hdiv, hslice base (le_refl base), ← hpos.1]
    exact isCheck_of_checksumByte hblock hdone.bytes_eq

theorem encodeFirst_eq (h8 : longCb % 8 = 0) (hle : longCb ≤ 6144)
    (hfit : crcLen start.crcCb.isSome lastCb ≤ longCb) (hstart : Taken start before 0 start) :
    ∃ c, encodeFirst start longCb lastCb = some c ∧ FirstDone start before longCb lastCb c := by
  obtain ⟨m, hm⟩ : ∃ m, m = (longCb - crcLen start.crcCb.isSome lastCb) / 8 := ⟨_, rfl⟩
  have hnocrc : blockSizeNocrc longCb start.crcTb start.crcCb lastCb = m := by
    rw [hm]
    exact blockSizeNocrc_eq hstart.tb.order_eq (fun h hh => (hstart.cb h hh).order_eq) hle hfit
  have hlen : crcLen start.crcCb.isSome lastCb % 8 = 0 := by
    cases start.crcCb.isSome <;> cases lastCb <;> rfl
  have hbits : longCb - crcLen start.crcCb.isSome lastCb = 8 * m := by omega
  obtain ⟨c, hc⟩ : ∃ c, c = (range m).foldl Coder.dataByte start := ⟨_, rfl⟩
  have htaken : Taken start before m c :=
    hc ▸ Blocks.foldl_range (fun _ _ _ h => h.dataByte) hstart
  obtain ⟨d, hd, htb⟩ : ∃ d, d = (if lastCb then c.appendTb m else c) ∧
      TbDone start before m lastCb d := by
    cases lastCb
    · refine ⟨c, rfl, htaken.coded, fun i _ => congrFun htaken.input_eq i, nofun, ?_,
        htaken.isSome_eq⟩
      rw [htaken.input_eq]
      exact htaken.cb
    · exact ⟨c.appendTb m, rfl, htaken.appendTb⟩
  rw [encodeFirst, hnocrc, if_neg (by rw [cbInLen, tcodMaxLenCb]; omega), ← hc]
  dsimp only
  rewrite [← hd]
  cases hcb : d.crcCb with
  | none => exact ⟨d, rfl, htb.firstDone hcb hbits hfit⟩
  | some hash => exact ⟨d.appendCb hash longCb, rfl, htb.appendCb hcb hbits hfit⟩

end MbmsTx.Phy.Fec
