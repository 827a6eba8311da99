import MbmsTx.Asn1.BitRef

/-!
# Constrained whole numbers

The packed encoding rules write a number between two bounds as a field of bits, and with alignment,
if there are many values, as one or two octets or as octets behind their number.

What was written is read back (`roundTrips`). The reader checks the upper bound without alignment
only, and adds the lower bound in the type of the number, where the sum may wrap around; so numbers
outside of the bounds are read, unless every field of bits is the offset of a number between them
(`NoneOutside`).
-/

namespace MbmsTx.Asn1

open MbmsTx.BitField Nat BitRef Outcome

/-- The unsigned integer types. -/
inductive UintType
  | uint8
  | uint16
  | uint32
  | uint64
  deriving DecidableEq

/-- The size of a type in bits. -/
def UintType.bits : UintType → ℕ
  | .uint8 => 8
  | .uint16 => 16
  | .uint32 => 32
  | .uint64 => 64

/-- `ceilf(log2f(x))`, without rounding. -/
def ceilLog2 (x : ℕ) : ℕ := if x ≤ 1 then 0 else Nat.log2 (x - 1) + 1

def asn64K : ℕ := 65536

/-- `HANDLE_CODE` for a function that writes. -/
def andThen (written : BitRef × Bool) (f : BitRef → BitRef × Bool) : BitRef × Bool :=
  if written.2 then f written.1 else written

/-- The number of values, `ra`, in 64 bits. -/
def range (lb ub : ℕ) : ℕ := (ub - lb + 1) % 2 ^ 64

/-- The number of octets for so many bits. -/
def octets (nBits : ℕ) : ℕ := (nBits + 7) / 8

namespace BitRef

/-- `pack_constrained_whole_number`. Without alignment the result of `pack` is ignored. -/
def packConstrainedWholeNumber (r : BitRef) (n lb ub : ℕ) (aligned : Bool) : BitRef × Bool :=
  if ub < lb ∨ n < lb ∨ ub < n then (r, false)
  else
    let ra := range lb ub
    if ra = 1 then (r, true)
    else
      let nBits := ceilLog2 ra
      let toencode := n - lb
      if aligned = false then ((r.pack toencode nBits).1, true)
      else if ra < 256 then r.pack toencode nBits
      else if ra ≤ asn64K then
        andThen r.alignBytesZero fun r =>
          andThen (r.pack 0 (octets nBits * 8 - nBits)) fun r =>
            andThen (r.pack toencode nBits) alignBytesZero
      else
        let nBitsLen := ceilLog2 (octets nBits)
        let nBits := Nat.log2 (max toencode 1) + 1
        andThen (r.pack (octets nBits - 1) nBitsLen) fun r =>
          andThen r.alignBytesZero fun r => r.pack toencode (octets nBits * 8)

def unpackConstrainedWholeNumber (type : UintType) (r : BitRef) (lb ub : ℕ) (aligned : Bool) :
    Outcome ℕ :=
  if ub < lb then .fail r
  else
    let ra := range lb ub
    if ra = 1 then .ok lb r
    else
      let nBits := ceilLog2 ra
      let addBound := fun n => (n + lb) % 2 ^ type.bits
      if aligned = false then
        (r.unpack type.bits nBits).bind fun n r =>
          if ub < addBound n then .fail r else .ok (addBound n) r
      else if ra < 256 then
        (r.unpack type.bits nBits).bind fun n r => .ok (addBound n) r
      else if ra ≤ asn64K then
        r.alignBytes.bind fun _ r =>
          (r.unpack type.bits (octets nBits * 8)).bind fun n r =>
            r.alignBytes.bind fun _ r => .ok (addBound n) r
      else
        (r.unpack 32 (ceilLog2 (octets nBits))).bind fun nOctets r =>
          r.alignBytes.bind fun _ r =>
            (r.unpack type.bits ((nOctets + 1) * 8)).bind fun n r => .ok (addBound n) r

/-! ## Alignment -/

/-- The bits from a position to the next octet. -/
def pad (pos : ℕ) : ℕ := (8 - pos % 8) % 8

/-- The cursor moved `n` bits on, and the bits before it stayed. -/
structure Wrote (r r' : BitRef) (n : ℕ) : Prop where
  maxPtr : r'.maxPtr = r.maxPtr
  pos : r'.pos = r.pos + n
  before : ∀ q < r.pos, bit r'.buf q = bit r.buf q

theorem Packed.wrote {r r' : BitRef} {n val : ℕ} (h : r.Packed r' n val) : r.Wrote r' n :=
  { h with }

theorem Wrote.trans {r r' r'' : BitRef} {m n : ℕ} (h : r.Wrote r' m) (h' : r'.Wrote r'' n) :
    r.Wrote r'' (m + n) := by
  refine ⟨h'.maxPtr.trans h.maxPtr, ?_, ?_⟩
  · rw [h'.pos, h.pos, add_assoc]
  · intro q hq
    rw [h'.before q (by rw [h.pos]; omega), h.before q hq]

theorem Wrote.fits {r r' : BitRef} {m n : ℕ} (h : r.Wrote r' m) (hfits : r.Fits (m + n)) :
    r'.Fits n := by
  have hpos := h.pos
  have hmax := h.maxPtr
  unfold Fits at hfits ⊢
  omega

theorem Wrote.field_eq {r r' : BitRef} {m : ℕ} (h : r.Wrote r' m) {p n : ℕ} (hp : p + n ≤ r.pos) :
    field r'.buf p n = field r.buf p n :=
  field_congr fun q _ hlt => h.before q (by omega)

theorem alignBytesZero_spec {r : BitRef} (hfits : r.Fits (pad r.pos)) :
    ∃ r', r.alignBytesZero = (r', true) ∧ r.Wrote r' (pad r.pos) := by
  have hoffset := r.offset_lt
  unfold alignBytesZero
  by_cases hzero : r.offset = 0
  · have hpad : pad r.pos = 0 := by
      rw [pad, ← offset_eq, hzero]
    rw [if_pos hzero, hpad]
    exact ⟨r, rfl, rfl, rfl, fun _ _ => rfl⟩
  · have hpad : pad r.pos = 8 - r.offset := by
      rw [pad, ← offset_eq]
      omega
    rw [hpad] at hfits ⊢
    have hmask : 256 - 1 <<< (8 - r.offset) = 2 ^ 8 - 2 ^ (8 - r.offset) := by
      omega
    rw [if_neg hzero, if_neg (hfits.ptr_lt (by omega)), hmask]
    refine ⟨_, rfl, rfl, ?_, ?_⟩
    · rw [nextByte_pos]
      rfl
    · have hset := (@setByte_spec r 0 (Nat.two_pow_pos _)).1
      assumption

theorem alignBytes_eq {r : BitRef} (hfits : r.Fits (pad r.pos)) :
    r.alignBytes = .ok () (r.advance (pad r.pos)) := by
  have hoffset := r.offset_lt
  unfold alignBytes
  by_cases hzero : r.offset = 0
  · have hpad : pad r.pos = 0 := by
      rw [pad, ← offset_eq, hzero]
    have hsame : r.Advanced r 0 := ⟨rfl, rfl, rfl⟩
    rw [if_pos hzero, hpad, ← hsame.eq_advance]
  · have hpad : pad r.pos = 8 - r.offset := by
      rw [pad, ← offset_eq]
      omega
    rw [hpad] at hfits ⊢
    have hnext : r.Advanced r.nextByte (8 - r.offset) := ⟨rfl, rfl, nextByte_pos r⟩
    rw [if_neg hzero, if_neg (hfits.ptr_lt (by omega)), hnext.eq_advance]

end BitRef

/-! ## Logarithms -/

theorem le_two_pow_ceilLog2 (x : ℕ) : x ≤ 2 ^ ceilLog2 x := by
  unfold ceilLog2
  split
  · assumption
  · have hlt := @Nat.lt_log2_self (x - 1)
    omega

theorem ceilLog2_le {x k : ℕ} (h : x ≤ 2 ^ k) : ceilLog2 x ≤ k := by
  unfold ceilLog2
  split
  · omega
  · exact (log2_lt (by omega)).mpr (by omega)

theorem lt_ceilLog2 {x k : ℕ} (h : 2 ^ k < x) : k < ceilLog2 x := by
  by_contra hle
  have hpow : 2 ^ ceilLog2 x ≤ 2 ^ k := Nat.pow_le_pow_right (by decide) (Nat.le_of_not_lt hle)
  have hx := le_two_pow_ceilLog2 x
  omega

/-- Bounds of a type, with at most 2^32 values between them. -/
structure Bounds (type : UintType) (lb ub : ℕ) : Prop where
  le : lb ≤ ub
  lt : ub < 2 ^ type.bits
  few : ub - lb < 2 ^ 32

section

variable {type : UintType} {lb ub : ℕ}

theorem Bounds.range_eq (h : Bounds type lb ub) : range lb ub = ub - lb + 1 := by
  have hfew := h.few
  rw [range, mod_eq_of_lt (by omega)]

theorem Bounds.ceilLog2_le_bits (h : Bounds type lb ub) : ceilLog2 (range lb ub) ≤ type.bits := by
  have hlt := h.lt
  refine ceilLog2_le ?_
  rw [h.range_eq]
  omega

theorem Bounds.ceilLog2_le_32 (h : Bounds type lb ub) : ceilLog2 (range lb ub) ≤ 32 := by
  have hfew := h.few
  refine ceilLog2_le ?_
  rw [h.range_eq]
  omega

theorem Bounds.bits_ge (h : Bounds type lb ub) (hmany : 65536 < range lb ub) : 32 ≤ type.bits := by
  have hlt := h.lt
  rw [h.range_eq] at hmany
  cases type with
  | uint8 | uint16 =>
    simp only [UintType.bits] at hlt
    omega
  | uint32 | uint64 => decide

theorem Bounds.octets_mid (h : Bounds type lb ub) (hge : 256 ≤ range lb ub)
    (hle : range lb ub ≤ 65536) :
    (range lb ub = 256 ∧ octets (ceilLog2 (range lb ub)) = 1) ∨
      (256 < range lb ub ∧ octets (ceilLog2 (range lb ub)) = 2 ∧ 16 ≤ type.bits) := by
  have hup : ceilLog2 (range lb ub) ≤ 16 := ceilLog2_le hle
  rcases Nat.eq_or_lt_of_le hge with heq | hgt
  · rw [← heq]
    exact .inl ⟨rfl, by decide⟩
  have hlow : 8 < ceilLog2 (range lb ub) := lt_ceilLog2 hgt
  refine .inr ⟨hgt, ?_, ?_⟩
  · unfold octets
    omega
  · have hlt := h.lt
    rw [h.range_eq] at hgt
    cases type with
    | uint8 =>
      simp only [UintType.bits] at hlt
      omega
    | uint16 | uint32 | uint64 => decide

theorem Bounds.octets_long (h : Bounds type lb ub) (hmany : 65536 < range lb ub) :
    ceilLog2 (octets (ceilLog2 (range lb ub))) = 2 := by
  have hup := h.ceilLog2_le_32
  have hlow : 16 < ceilLog2 (range lb ub) := lt_ceilLog2 hmany
  have hoctets : octets (ceilLog2 (range lb ub)) = 3 ∨ octets (ceilLog2 (range lb ub)) = 4 := by
    unfold octets
    omega
  rcases hoctets with heq | heq
  · rw [heq]
    decide
  · rw [heq]
    decide

end

/-! ## What was written is read back -/

/-- The number of bits of an encoding that starts at a position. -/
def encodedBits (n lb ub : ℕ) (aligned : Bool) (pos : ℕ) : ℕ :=
  let ra := range lb ub
  let nBits := ceilLog2 ra
  if ra = 1 then 0
  else if aligned = false ∨ ra < 256 then nBits
  else if ra ≤ asn64K then pad pos + octets nBits * 8
  else
    let nBitsLen := ceilLog2 (octets nBits)
    nBitsLen + (pad (pos + nBitsLen) + octets (Nat.log2 (max (n - lb) 1) + 1) * 8)

/-- Every number between the bounds is written and read back, if there is room for it, and the two
cursors end at the same position. -/
def RoundTripsBetween (type : UintType) (lb ub : ℕ) (aligned : Bool) : Prop :=
  ∀ (r : BitRef) (n : ℕ), lb ≤ n → n ≤ ub → r.Fits (encodedBits n lb ub aligned r.pos) →
    ∃ r', r.packConstrainedWholeNumber n lb ub aligned = (r', true) ∧
      ∃ r'', { r with buf := r'.buf }.unpackConstrainedWholeNumber type lb ub aligned = .ok n r'' ∧
        r''.pos = r'.pos

section

variable {type : UintType} {lb ub n : ℕ} {r : BitRef}

theorem BitRef.pos_withBuf (r : BitRef) (buf : ℕ → UInt8) : { r with buf := buf }.pos = r.pos := rfl

theorem Bounds.sub_lt (h : Bounds type lb ub) (hle : n ≤ ub) :
    n - lb < 2 ^ ceilLog2 (range lb ub) := by
  have hra := le_two_pow_ceilLog2 (range lb ub)
  rw [h.range_eq] at hra ⊢
  omega

theorem roundTrip_field (h : Bounds type lb ub) (hle : n ≤ ub)
    (hfits : r.Fits (ceilLog2 (range lb ub))) :
    ∃ r', r.pack (n - lb) (ceilLog2 (range lb ub)) = (r', true) ∧
      ∃ r'', { r with buf := r'.buf }.unpack type.bits (ceilLog2 (range lb ub)) =
        .ok (n - lb) r'' ∧ r''.pos = r'.pos := by
  have h32 := h.ceilLog2_le_32
  obtain ⟨r', hpack, hpacked⟩ :=
    @BitRef.pack_spec r (n - lb) (ceilLog2 (range lb ub)) (by omega) hfits
  have hread := @BitRef.unpack_eq_advance { r with buf := r'.buf } type.bits
    (ceilLog2 (range lb ub)) h32 h.ceilLog2_le_bits hfits
  have hfield := hpacked.field
  rw [mod_eq_of_lt (h.sub_lt hle)] at hfield
  rw [pos_withBuf, hfield] at hread
  refine ⟨r', hpack, _, hread, ?_⟩
  rw [advance_pos, hpacked.pos]
  rfl

@[simp] theorem andThen_true (r : BitRef) (f : BitRef → BitRef × Bool) :
    andThen (r, true) f = f r := rfl

theorem write_octets {val nBits k : ℕ} (hval : val < 2 ^ nBits) (hk : nBits ≤ 8 * k)
    (h64 : 8 * k < 64) (hfits : r.Fits (pad r.pos + k * 8)) :
    ∃ r', (andThen r.alignBytesZero fun r =>
        andThen (r.pack 0 (k * 8 - nBits)) fun r => andThen (r.pack val nBits) alignBytesZero) =
        (r', true) ∧
      r'.pos = r.pos + (pad r.pos + k * 8) ∧
      field r'.buf (r.pos + pad r.pos) (k * 8) = val := by
  have hsplit : k * 8 = k * 8 - nBits + nBits := by omega
  have hpad : r.Fits (pad r.pos) := by
    unfold BitRef.Fits at hfits ⊢
    omega
  obtain ⟨r₁, halign, hwrote₁⟩ := alignBytesZero_spec hpad
  have hfits₁ := hwrote₁.fits hfits
  rw [hsplit] at hfits₁
  obtain ⟨r₂, hzeros, hpacked₂⟩ := @BitRef.pack_spec r₁ 0 (k * 8 - nBits) (by omega) (by
    unfold BitRef.Fits at hfits₁ ⊢
    omega)
  obtain ⟨r₃, hpack, hpacked₃⟩ := @BitRef.pack_spec r₂ val nBits (by omega)
    (hpacked₂.wrote.fits hfits₁)
  have hend : pad r₃.pos = 0 := by
    have hpos₁ := hwrote₁.pos
    have hpos₂ := hpacked₂.pos
    have hpos₃ := hpacked₃.pos
    unfold pad at hpos₁ ⊢
    omega
  have hfits₃ : r₃.Fits (pad r₃.pos) := by
    rw [hend]
    exact (hpacked₂.wrote.trans hpacked₃.wrote).fits hfits₁
  obtain ⟨r₄, halign', hwrote₄⟩ := alignBytesZero_spec hfits₃
  rw [hend] at hwrote₄
  refine ⟨r₄, ?_, ?_, ?_⟩
  · rw [halign, andThen_true, hzeros, andThen_true, hpack, andThen_true, halign']
  · rw [hwrote₄.pos, hpacked₃.pos, hpacked₂.pos, hwrote₁.pos]
    omega
  · -- the zeros are still there behind the number
    have hhigh : field r₄.buf r₁.pos (k * 8 - nBits) = 0 := by
      rw [(hpacked₃.wrote.trans hwrote₄).field_eq (by rw [hpacked₂.pos]), hpacked₂.field, zero_mod]
    have hlow : field r₄.buf r₂.pos nBits = val := by
      rw [hwrote₄.field_eq (by rw [hpacked₃.pos]), hpacked₃.field, mod_eq_of_lt hval]
    have hadd := field_add r₄.buf r₁.pos (k * 8 - nBits) nBits
    rw [← hsplit, hhigh, ← hpacked₂.pos, hlow, zero_mul, zero_add] at hadd
    rw [← hwrote₁.pos]
    exact hadd

theorem write_counted {val k : ℕ} (hval : val < 2 ^ (k * 8)) (hk : k - 1 < 4) (hpos : 0 < k)
    (hfits : r.Fits (2 + (pad (r.pos + 2) + k * 8))) :
    ∃ r', (andThen (r.pack (k - 1) 2) fun r =>
        andThen r.alignBytesZero fun r => r.pack val (k * 8)) = (r', true) ∧
      r'.pos = r.pos + (2 + (pad (r.pos + 2) + k * 8)) ∧
      field r'.buf r.pos 2 = k - 1 ∧
      field r'.buf (r.pos + 2 + pad (r.pos + 2)) (k * 8) = val := by
  obtain ⟨r₁, hcount, hpacked₁⟩ := @BitRef.pack_spec r (k - 1) 2 (by decide) (by
    unfold BitRef.Fits at hfits ⊢
    omega)
  have hfits₁ := hpacked₁.wrote.fits hfits
  rw [← hpacked₁.pos] at hfits₁ ⊢
  obtain ⟨r₂, halign, hwrote₂⟩ := @BitRef.alignBytesZero_spec r₁ (by
    unfold BitRef.Fits at hfits₁ ⊢
    omega)
  obtain ⟨r₃, hpack, hpacked₃⟩ := @BitRef.pack_spec r₂ val (k * 8) (by omega) (hwrote₂.fits hfits₁)
  refine ⟨r₃, ?_, ?_, ?_, ?_⟩
  · rw [hcount, andThen_true, halign, andThen_true, hpack]
  · rw [hpacked₃.pos, hwrote₂.pos, hpacked₁.pos]
    omega
  · rw [(hwrote₂.trans hpacked₃.wrote).field_eq (by rw [hpacked₁.pos]), hpacked₁.field,
      mod_eq_of_lt (by omega)]
  · rw [← hwrote₂.pos, hpacked₃.field, mod_eq_of_lt hval]

theorem read_octets {tBits k : ℕ} (hk : k ≤ 4) (ht : k * 8 ≤ tBits)
    (hfits : r.Fits (pad r.pos + k * 8)) :
    (r.alignBytes.bind fun _ r => r.unpack tBits (k * 8)) =
      .ok (field r.buf (r.pos + pad r.pos) (k * 8)) (r.advance (pad r.pos + k * 8)) := by
  have hpad : r.Fits (pad r.pos) := by
    unfold BitRef.Fits at hfits ⊢
    omega
  have hrest : (r.advance (pad r.pos)).Fits (k * 8) := by
    have hmax : (r.advance (pad r.pos)).maxPtr = r.maxPtr := rfl
    unfold BitRef.Fits at hfits ⊢
    rw [advance_pos, hmax]
    omega
  rw [alignBytes_eq hpad, bind_ok, unpack_eq_advance (by omega) ht hrest,
    advance_pos, advance_buf, advance_advance]

theorem Bounds.add_sub (h : Bounds type lb ub) (hge : lb ≤ n) (hle : n ≤ ub) :
    (n - lb + lb) % 2 ^ type.bits = n := by
  have hlt := h.lt
  rw [Nat.sub_add_cancel hge, mod_eq_of_lt (by omega)]

theorem Bounds.roundTrips (h : Bounds type lb ub) (aligned : Bool) :
    RoundTripsBetween type lb ub aligned := by
  intro r n hge hle hfits
  have hnot : ¬ (ub < lb ∨ n < lb ∨ ub < n) := by omega
  have hbounds : ¬ ub < lb := by omega
  unfold packConstrainedWholeNumber unpackConstrainedWholeNumber
  unfold encodedBits at hfits
  simp only [if_neg hnot, if_neg hbounds]
  by_cases hone : range lb ub = 1
  · -- a single value, which takes no bits
    simp only [if_pos hone]
    have heq : lb = n := by
      rw [h.range_eq] at hone
      omega
    exact ⟨r, rfl, r, by rw [heq], rfl⟩
  simp only [if_neg hone] at hfits ⊢
  cases aligned with
  | false =>
    obtain ⟨r', hpack, r'', hread, hpos⟩ := roundTrip_field h hle (by simpa using hfits)
    rw [if_pos rfl, hpack]
    refine ⟨r', rfl, r'', ?_, hpos⟩
    rw [if_pos rfl, hread, bind_ok, h.add_sub hge hle, if_neg (Nat.not_lt_of_le hle)]
  | true =>
    simp only [Bool.true_eq_false, if_false, false_or] at hfits ⊢
    by_cases hshort : range lb ub < 256
    · rw [if_pos hshort] at hfits
      obtain ⟨r', hpack, r'', hread, hpos⟩ := roundTrip_field h hle hfits
      simp only [if_pos hshort]
      refine ⟨r', hpack, r'', ?_, hpos⟩
      rw [hread, bind_ok, h.add_sub hge hle]
    by_cases hmid : range lb ub ≤ asn64K
    · rw [if_neg hshort, if_pos hmid] at hfits
      simp only [if_neg hshort, if_pos hmid]
      have hoctets : octets (ceilLog2 (range lb ub)) ≤ 2 ∧
          octets (ceilLog2 (range lb ub)) * 8 ≤ type.bits := by
        rcases h.octets_mid (by omega) hmid with ⟨-, heq⟩ | ⟨-, heq, hbits⟩
        · rw [heq]
          cases type with
          | uint8 | uint16 | uint32 | uint64 => decide
        · omega
      obtain ⟨r', hpack, hpos, hfield⟩ :=
        write_octets (h.sub_lt hle) (by unfold octets; omega) (by omega) hfits
      have hread := @read_octets { r with buf := r'.buf } type.bits
        (octets (ceilLog2 (range lb ub))) (by omega) hoctets.2 hfits
      refine ⟨r', hpack, { r with buf := r'.buf }.advance
        (pad r.pos + octets (ceilLog2 (range lb ub)) * 8), ?_, ?_⟩
      · have hend : pad ({ r with buf := r'.buf }.advance
            (pad r.pos + octets (ceilLog2 (range lb ub)) * 8)).pos = 0 := by
          rw [advance_pos, pos_withBuf]
          unfold pad
          omega
        have halign := @BitRef.alignBytes_eq ({ r with buf := r'.buf }.advance
          (pad r.pos + octets (ceilLog2 (range lb ub)) * 8)) (by
            rw [hend, BitRef.Fits, advance_pos]
            exact hfits)
        rw [hend, advance_advance, add_zero] at halign
        rw [pos_withBuf, hfield] at hread
        rw [← bind_assoc, hread, bind_ok, halign, bind_ok, h.add_sub hge hle]
      · rw [advance_pos, hpos]
        rfl
    · have hmany : 65536 < range lb ub := Nat.lt_of_not_le hmid
      rw [if_neg hshort, if_neg hmid, h.octets_long hmany] at hfits
      simp only [if_neg hshort, if_neg hmid]
      rw [h.octets_long hmany]
      -- the octets that the offset needs
      have hfew := h.few
      have hlog : log2 (max (n - lb) 1) + 1 ≤ 32 := (log2_lt (by omega)).mpr (by omega)
      have hlt : n - lb < 2 ^ (octets (log2 (max (n - lb) 1) + 1) * 8) := by
        have hself := @Nat.lt_log2_self (max (n - lb) 1)
        have hpow : 2 ^ (log2 (max (n - lb) 1) + 1) ≤
            2 ^ (octets (log2 (max (n - lb) 1) + 1) * 8) :=
          Nat.pow_le_pow_right (by decide) (by unfold octets; omega)
        omega
      have hoctets : 0 < octets (log2 (max (n - lb) 1) + 1) ∧
          octets (log2 (max (n - lb) 1) + 1) ≤ 4 := by
        unfold octets
        omega
      have hbits := h.bits_ge hmany
      generalize octets (log2 (max (n - lb) 1) + 1) = k at hfits hlt hoctets ⊢
      obtain ⟨r', hpack, hpos, hcount, hfield⟩ := write_counted hlt (by omega) hoctets.1 hfits
      have hfirst := @BitRef.unpack_eq_advance { r with buf := r'.buf } 32 2 (by decide) (by decide)
        (by unfold BitRef.Fits at hfits ⊢; rw [pos_withBuf]; dsimp only; omega)
      have hread := @read_octets ({ r with buf := r'.buf }.advance 2) type.bits k hoctets.2
        (by omega) (by
          unfold BitRef.Fits at hfits ⊢
          rw [advance_pos, pos_withBuf]
          have hmax : ({ r with buf := r'.buf }.advance 2).maxPtr = r.maxPtr := rfl
          omega)
      rw [advance_pos, advance_buf, pos_withBuf, hfield, advance_advance] at hread
      rw [pos_withBuf, hcount] at hfirst
      refine ⟨r', hpack, { r with buf := r'.buf }.advance (2 + (pad (r.pos + 2) + k * 8)), ?_, ?_⟩
      · rw [hfirst, bind_ok, Nat.sub_add_cancel hoctets.1, ← bind_assoc, hread,
          bind_ok, h.add_sub hge hle]
      · rw [advance_pos, hpos]
        rfl

end

/-! ## What is read is between the bounds -/

/-- Whatever the buffer has, no number outside of the bounds is read. -/
def NoneOutside (type : UintType) (lb ub : ℕ) (aligned : Bool) : Prop :=
  ∀ (r : BitRef) (n : ℕ) (r' : BitRef),
    r.unpackConstrainedWholeNumber type lb ub aligned = .ok n r' → lb ≤ n ∧ n ≤ ub

/-- With alignment, the numbers of values for which every field of bits, or of octets, is the offset
of one of them; without alignment, no such field wraps around in the type. -/
def Exhausted (type : UintType) (lb ub : ℕ) (aligned : Bool) : Prop :=
  if aligned = true then
    ub - lb + 1 ∈ [1, 2, 4, 8, 16, 32, 64, 128, 256, 65536, 4294967296]
  else lb + 2 ^ ceilLog2 (ub - lb + 1) ≤ 2 ^ type.bits

instance (type : UintType) (lb ub : ℕ) (aligned : Bool) :
    Decidable (Exhausted type lb ub aligned) :=
  inferInstanceAs (Decidable (if aligned = true then _ else _))

variable {aligned : Bool}

theorem NoneOutside.of_val? {type : UintType} {lb ub : ℕ} (h : NoneOutside type lb ub aligned)
    {r : BitRef} {n : ℕ}
    (hval : (r.unpackConstrainedWholeNumber type lb ub aligned).val? = some n) :
    lb ≤ n ∧ n ≤ ub := by
  cases hread : r.unpackConstrainedWholeNumber type lb ub aligned with
  | ok m r' =>
    rw [hread] at hval
    have hm : m = n := Option.some.inj hval
    rw [← hm]
    exact h r m r' hread
  | fail r' | undefined =>
    rw [hread] at hval
    cases hval

section

variable {type : UintType} {lb ub v : ℕ}

theorem Bounds.inside (h : Bounds type lb ub) (hv : v < range lb ub) :
    lb ≤ (v + lb) % 2 ^ type.bits ∧ (v + lb) % 2 ^ type.bits ≤ ub := by
  have hle := h.le
  have hlt := h.lt
  rw [h.range_eq] at hv
  rw [mod_eq_of_lt (by omega)]
  omega

theorem Bounds.wraps (hv : v < 2 ^ type.bits) (hwrap : 2 ^ type.bits ≤ v + lb)
    (h : Bounds type lb ub) : (v + lb) % 2 ^ type.bits < lb := by
  have hle := h.le
  have hlt := h.lt
  rw [mod_eq_sub_mod hwrap, mod_eq_of_lt (by omega)]
  omega

theorem Bounds.outside (h : Bounds type lb ub) (hv : range lb ub ≤ v) (hlt : v < 2 ^ type.bits) :
    ¬ (lb ≤ (v + lb) % 2 ^ type.bits ∧ (v + lb) % 2 ^ type.bits ≤ ub) := by
  rw [h.range_eq] at hv
  have hle := h.le
  rcases lt_or_ge (v + lb) (2 ^ type.bits) with hsmall | hwrap
  · rw [mod_eq_of_lt hsmall]
    omega
  · have hbelow := h.wraps hlt hwrap
    omega

theorem two_pow_ceilLog2_of_mem {x : ℕ}
    (h : x ∈ [1, 2, 4, 8, 16, 32, 64, 128, 256, 65536, 4294967296]) : 2 ^ ceilLog2 x = x := by
  simp only [List.mem_cons, List.not_mem_nil, or_false] at h
  rcases h with rfl | rfl | rfl | rfl | rfl | rfl | rfl | rfl | rfl | rfl | rfl
  all_goals decide

theorem Bounds.noneOutside (h : Bounds type lb ub) (hfull : Exhausted type lb ub aligned) :
    NoneOutside type lb ub aligned := by
  intro r n r' hread
  have hbounds : ¬ ub < lb := Nat.not_lt_of_le h.le
  unfold unpackConstrainedWholeNumber at hread
  simp only [if_neg hbounds] at hread
  by_cases hone : range lb ub = 1
  · rw [if_pos hone] at hread
    injection hread with hn
    omega
  rw [if_neg hone] at hread
  have hfield := h.ceilLog2_le_32
  unfold Exhausted at hfull
  cases aligned with
  | false =>
    rw [if_neg (by decide), ← h.range_eq] at hfull
    rw [if_pos rfl] at hread
    obtain ⟨v, r₁, hv, hread⟩ := Outcome.bind_eq_ok.mp hread
    have hlt := lt_of_unpack hfield hv
    split at hread
    · cases hread
    rename_i hle
    injection hread with hn
    rw [← hn]
    refine ⟨?_, Nat.le_of_not_lt hle⟩
    rw [mod_eq_of_lt (by omega)]
    omega
  | true =>
    rw [if_pos rfl, ← h.range_eq] at hfull
    rw [if_neg (by decide)] at hread
    by_cases hshort : range lb ub < 256
    · rw [if_pos hshort] at hread
      obtain ⟨v, r₁, hv, hread⟩ := Outcome.bind_eq_ok.mp hread
      have hlt := lt_of_unpack hfield hv
      rw [two_pow_ceilLog2_of_mem hfull] at hlt
      injection hread with hn
      rw [← hn]
      exact h.inside hlt
    rw [if_neg hshort] at hread
    have hcases : range lb ub = 256 ∨ range lb ub = 65536 ∨ range lb ub = 4294967296 := by
      simp at hfull
      omega
    by_cases hmid : range lb ub ≤ asn64K
    · rw [if_pos hmid] at hread
      obtain ⟨-, r₁, -, hread⟩ := Outcome.bind_eq_ok.mp hread
      obtain ⟨v, r₂, hv, hread⟩ := Outcome.bind_eq_ok.mp hread
      obtain ⟨-, r₃, -, hread⟩ := Outcome.bind_eq_ok.mp hread
      have hoctets : octets (ceilLog2 (range lb ub)) * 8 ≤ 32 ∧
          2 ^ (octets (ceilLog2 (range lb ub)) * 8) = range lb ub := by
        unfold asn64K at hmid
        rcases hcases with heq | heq | heq
        · rw [heq]
          decide
        · rw [heq]
          decide
        · omega
      have hlt := lt_of_unpack hoctets.1 hv
      rw [hoctets.2] at hlt
      injection hread with hn
      rw [← hn]
      exact h.inside hlt
    · rw [if_neg hmid] at hread
      unfold asn64K at hmid
      have heq : range lb ub = 2 ^ 32 := by omega
      rw [h.octets_long (Nat.lt_of_not_le hmid)] at hread
      obtain ⟨k, r₁, hk, hread⟩ := Outcome.bind_eq_ok.mp hread
      obtain ⟨-, r₂, -, hread⟩ := Outcome.bind_eq_ok.mp hread
      obtain ⟨v, r₃, hv, hread⟩ := Outcome.bind_eq_ok.mp hread
      have hk := lt_of_unpack (by decide) hk
      have hlt := lt_of_unpack (by omega) hv
      have hpow : 2 ^ ((k + 1) * 8) ≤ 2 ^ 32 := Nat.pow_le_pow_right (by decide) (by omega)
      injection hread with hn
      rw [← hn]
      exact h.inside (by omega)

end

/-- A buffer of ones. -/
def BitRef.ones : BitRef := .start (fun _ => 255) 16

theorem BitRef.fits_ones {m n : ℕ} (h : m + n ≤ 128) : (ones.advance m).Fits n := by
  have hmax : (ones.advance m).maxPtr = 16 := rfl
  have hpos : ones.pos = 0 := rfl
  rw [Fits, advance_pos, hmax, hpos]
  omega

theorem field_ones (p n : ℕ) : field ones.buf p n = 2 ^ n - 1 := by
  have hbit : ∀ q, bit ones.buf q = 1 := by
    intro q
    have hall : ∀ k < 8, (255 : UInt8).toNat / 2 ^ k % 2 = 1 := by decide
    exact hall _ (by omega)
  induction n with
  | zero => rfl
  | succ n ih =>
    have hpos := Nat.two_pow_pos n
    rw [field_succ, ih, hbit, pow_succ]
    omega

section

variable {type : UintType} {lb ub : ℕ}

theorem Bounds.exhausted (h : Bounds type lb ub) (hnone : NoneOutside type lb ub aligned) :
    Exhausted type lb ub aligned := by
  have hbounds : ¬ ub < lb := Nat.not_lt_of_le h.le
  have hfield := h.ceilLog2_le_32
  have hbits := h.ceilLog2_le_bits
  have hread := hnone ones
  unfold unpackConstrainedWholeNumber at hread
  simp only [if_neg hbounds] at hread
  unfold Exhausted
  rw [← h.range_eq]
  by_cases hone : range lb ub = 1
  · rw [hone]
    have hle := h.le
    have hlt := h.lt
    split
    · decide
    · have hzero : ceilLog2 1 = 0 := by decide
      rw [hzero]
      omega
  simp only [if_neg hone] at hread
  have hfits : ones.Fits (ceilLog2 (range lb ub)) := @BitRef.fits_ones 0 _ (by omega)
  have hstart : ones.Fits (pad ones.pos) := @BitRef.fits_ones 0 _ (by decide)
  -- a field of ones that is not the offset of a number between the bounds
  have houtside : ∀ m, m ≤ type.bits → range lb ub ≤ 2 ^ m →
      (lb ≤ (2 ^ m - 1 + lb) % 2 ^ type.bits ∧ (2 ^ m - 1 + lb) % 2 ^ type.bits ≤ ub) →
      range lb ub = 2 ^ m := by
    intro m hm hle hinside
    have hlt : 2 ^ m ≤ 2 ^ type.bits := Nat.pow_le_pow_right (by decide) hm
    have hpow := Nat.two_pow_pos m
    by_contra hne
    exact h.outside (by omega) (by omega) hinside
  have hfirst := unpack_eq_advance hfield hbits hfits
  rw [field_ones] at hfirst
  cases aligned with
  | false =>
    rw [if_neg (by decide)]
    simp only [if_true] at hread
    rw [hfirst, bind_ok] at hread
    by_contra hwrap
    have hlt : 2 ^ ceilLog2 (range lb ub) ≤ 2 ^ type.bits :=
      Nat.pow_le_pow_right (by decide) hbits
    have hpow := Nat.two_pow_pos (ceilLog2 (range lb ub))
    have hbelow := h.wraps (v := 2 ^ ceilLog2 (range lb ub) - 1) (by omega) (by omega)
    have hle := h.le
    rw [if_neg (by omega)] at hread
    have hge := (hread _ _ rfl).1
    omega
  | true =>
    rw [if_pos rfl]
    simp only [Bool.true_eq_false, if_false] at hread
    by_cases hshort : range lb ub < 256
    · rw [if_pos hshort, hfirst, bind_ok] at hread
      have heq := houtside _ hbits (le_two_pow_ceilLog2 _) (hread _ _ rfl)
      have hlt : ceilLog2 (range lb ub) < 8 := by
        by_contra hge
        have hpow : 2 ^ 8 ≤ 2 ^ ceilLog2 (range lb ub) :=
          Nat.pow_le_pow_right (by decide) (Nat.le_of_not_lt hge)
        omega
      have hall : ∀ k < 8, 2 ^ k ∈ [1, 2, 4, 8, 16, 32, 64, 128, 256, 65536, 4294967296] := by
        decide
      rw [heq]
      exact hall _ hlt
    rw [if_neg hshort] at hread
    by_cases hmid : range lb ub ≤ asn64K
    · rw [if_pos hmid] at hread
      have hoctets := h.octets_mid (Nat.le_of_not_lt hshort) hmid
      rcases hoctets with ⟨heq, -⟩ | ⟨-, hoctets, hwide⟩
      · rw [heq]
        decide
      have hread := hread _ _ (by
        rw [hoctets, alignBytes_eq hstart, bind_ok,
          unpack_eq_advance (by decide) hwide (fits_ones (by decide)),
          advance_buf, field_ones, bind_ok, advance_advance,
          alignBytes_eq (fits_ones (by decide)), bind_ok])
      have heq := houtside 16 hwide hmid hread
      rw [heq]
      decide
    · have hwide := h.bits_ge (Nat.lt_of_not_le hmid)
      have hthree : 2 ^ 2 - 1 + 1 = 4 := by decide
      rw [if_neg hmid, h.octets_long (Nat.lt_of_not_le hmid)] at hread
      have htwo : ones.Fits 2 := @BitRef.fits_ones 0 _ (by decide)
      have hread := hread _ _ (by
        rw [unpack_eq_advance (by decide) (by decide) htwo, field_ones, bind_ok,
          hthree, alignBytes_eq (fits_ones (by decide)), bind_ok,
          advance_advance,
          unpack_eq_advance (by decide) hwide (fits_ones (by decide)),
          advance_buf, field_ones, bind_ok])
      have hfew := h.few
      have heq := houtside 32 hwide (by rw [h.range_eq]; exact hfew) hread
      rw [heq]
      decide

/-- The numbers between the bounds come back, and no others are read, exactly if every accepted
field is the offset of one of them. -/
theorem wholeNumber_sound_iff_exhausted (h : Bounds type lb ub) (aligned : Bool) :
    (RoundTripsBetween type lb ub aligned ∧ NoneOutside type lb ub aligned) ↔
      Exhausted type lb ub aligned := by
  constructor
  · rintro ⟨-, hnone⟩
    exact h.exhausted hnone
  · intro hexhausted
    exact ⟨h.roundTrips aligned, h.noneOutside hexhausted⟩

end

theorem wholeNumber_sound_256_values :
    RoundTripsBetween .uint16 1000 1255 true ∧ NoneOutside .uint16 1000 1255 true :=
  (wholeNumber_sound_iff_exhausted ⟨by decide, by decide, by decide⟩ true).mpr (by decide)

/-- A reader of three values accepts a fourth, and without alignment one above the largest number.
-/
theorem not_noneOutside_three_values :
    ¬ NoneOutside .uint8 0 2 true ∧ ¬ NoneOutside .uint8 250 255 false := by
  constructor
  · intro hnone
    have hread : 0 ≤ 3 ∧ 3 ≤ 2 := hnone.of_val? (r := ones) (by rfl)
    omega
  · intro hnone
    have hread : 250 ≤ 1 ∧ 1 ≤ 255 := hnone.of_val? (r := ones) (by rfl)
    omega

end MbmsTx.Asn1
