import MbmsTx.Lib.BitField

/-!
# The bit cursor of the ASN.1 library

`bit_ref` points to a bit of a buffer. In terms of the fields of the buffer (`BitField.field`),
`pack` writes the low bits of a number as the field at the cursor and leaves the bits before it
alone, and `unpack_bits` reads a field of at most 32 bits.

The reader shifts the bits of a byte as a `uint32_t`: what goes beyond 32 bits is lost, and a shift
by 32 places or more is undefined.
-/

namespace MbmsTx.Asn1

open MbmsTx.BitField List Nat

/-- `bit_ref_impl`: a byte of the buffer and a bit of it. -/
structure BitRef where
  buf : ℕ → UInt8
  ptr : ℕ
  offset : ℕ
  maxPtr : ℕ
  offset_lt : offset < 8

namespace BitRef

/-- A cursor at the start of a buffer. -/
def start (buf : ℕ → UInt8) (maxPtr : ℕ) : BitRef := ⟨buf, 0, 0, maxPtr, by decide⟩

/-- The number of the bit that the cursor points to. -/
def pos (r : BitRef) : ℕ := 8 * r.ptr + r.offset

def distance (r other : BitRef) : ℤ :=
  ((r.offset : ℤ) - other.offset) + 8 * ((r.ptr : ℤ) - other.ptr)

theorem distance_eq (r other : BitRef) : r.distance other = (r.pos : ℤ) - other.pos := by
  unfold distance pos
  omega

end BitRef

/-- What a reading function leaves: a value and the cursor, the cursor where it failed, or undefined
behaviour. -/
inductive Outcome (α : Type)
  | ok (val : α) (ref : BitRef)
  | fail (ref : BitRef)
  | undefined

/-- The value that was read. -/
def Outcome.val? {α : Type} : Outcome α → Option α
  | .ok val _ => some val
  | .fail _ => none
  | .undefined => none

/-- `HANDLE_CODE`: go on with the value, or return the error. -/
def Outcome.bind {α β : Type} (o : Outcome α) (f : α → BitRef → Outcome β) : Outcome β :=
  match o with
  | .ok val ref => f val ref
  | .fail ref => .fail ref
  | .undefined => .undefined

@[simp] theorem Outcome.bind_ok {α β : Type} (val : α) (ref : BitRef)
    (f : α → BitRef → Outcome β) : (Outcome.ok val ref).bind f = f val ref := rfl

@[simp] theorem Outcome.bind_fail {α β : Type} (ref : BitRef) (f : α → BitRef → Outcome β) :
    (Outcome.fail ref : Outcome α).bind f = .fail ref := rfl

theorem Outcome.bind_assoc {α β γ : Type} (o : Outcome α) (f : α → BitRef → Outcome β)
    (g : β → BitRef → Outcome γ) :
    (o.bind f).bind g = o.bind fun val ref => (f val ref).bind g := by
  cases o with
  | ok val ref => rfl
  | fail ref => rfl
  | undefined => rfl

theorem Outcome.bind_eq_ok {α β : Type} {o : Outcome α} {f : α → BitRef → Outcome β} {val : β}
    {ref : BitRef} : o.bind f = .ok val ref ↔ ∃ a r, o = .ok a r ∧ f a r = .ok val ref := by
  cases o with
  | ok a r => simp
  | fail r => simp
  | undefined => simp [bind]

namespace BitRef

/-- The cursor at the beginning of the next byte. -/
def nextByte (r : BitRef) : BitRef :=
  { r with
      ptr := r.ptr + 1
      offset := 0
      offset_lt := by decide }

theorem nextByte_pos (r : BitRef) : r.nextByte.pos = r.pos + (8 - r.offset) := by
  have hoffset := r.offset_lt
  unfold nextByte pos
  dsimp only
  omega

/-! ## Reading -/

/-- The loop of `unpack_bits` into a type of `tBits` bits. Every round but the last ends a byte. -/
def unpackLoop (tBits : ℕ) : (fuel val : ℕ) → BitRef → (nBits : ℕ) → Outcome ℕ
  | 0, val, r, _ => .ok val r
  | fuel + 1, val, r, nBits =>
    if nBits = 0 then .ok val r
    else if r.maxPtr ≤ r.ptr then .fail r
    else
      let byte := (r.buf r.ptr).toNat
      if h : nBits < 8 - r.offset then
        let mask :=
          ((1 <<< (8 - r.offset)) % 256 + 256 - (1 <<< (8 - r.offset - nBits)) % 256) % 256
        .ok ((val + (byte &&& mask) >>> (8 - r.offset - nBits)) % 2 ^ tBits)
          { r with
              offset := r.offset + nBits
              offset_lt := by omega }
      else
        let mask := (1 <<< (8 - r.offset)) - 1
        let shift := nBits - (8 - r.offset)
        if 32 ≤ shift then .undefined
        else
          unpackLoop tBits fuel ((val + ((byte &&& mask) <<< shift) % 2 ^ 32) % 2 ^ tBits)
            r.nextByte shift

/-- `unpack_bits` into a type of `tBits` bits. -/
def unpack (r : BitRef) (tBits nBits : ℕ) : Outcome ℕ :=
  if tBits < nBits then .fail r else unpackLoop tBits nBits 0 r nBits

/-- `unpack` of a single bit into a `bool`. -/
def unpackBool (r : BitRef) : Outcome Bool :=
  (r.unpack 8 1).bind fun val r => .ok (decide (val ≠ 0)) r

def alignBytes (r : BitRef) : Outcome Unit :=
  if r.offset = 0 then .ok () r
  else if r.maxPtr ≤ r.ptr then .fail r
  else .ok () r.nextByte

/-! ## Writing -/

/-- A byte of the buffer is written. -/
def setByte (r : BitRef) (byte : ℕ) : BitRef :=
  { r with buf := Function.update r.buf r.ptr (UInt8.ofNat byte) }

/-- The loop of `pack`, and whether it succeeds. -/
def packLoop : (fuel : ℕ) → BitRef → (val nBits : ℕ) → BitRef × Bool
  | 0, r, _, _ => (r, true)
  | fuel + 1, r, val, nBits =>
    if nBits = 0 then (r, true)
    else if r.maxPtr ≤ r.ptr then (r, false)
    else
      let val := val &&& ((1 <<< nBits) - 1)
      let keepmask := 255 - ((1 <<< (8 - r.offset)) - 1)
      let kept := (r.buf r.ptr).toNat &&& keepmask
      if h : nBits < 8 - r.offset then
        let bit := (val <<< (8 - r.offset - nBits)) % 256
        ({ r.setByte (kept + bit) with
            offset := r.offset + nBits
            offset_lt := by omega }, true)
      else
        let bit := (val >>> (nBits - (8 - r.offset))) % 256
        packLoop fuel (r.setByte (kept + bit)).nextByte val (nBits - (8 - r.offset))

/-- `bit_ref::pack`. -/
def pack (r : BitRef) (val nBits : ℕ) : BitRef × Bool :=
  if 64 ≤ nBits then (r, false) else packLoop nBits r val nBits

def alignBytesZero (r : BitRef) : BitRef × Bool :=
  if r.offset = 0 then (r, true)
  else if r.maxPtr ≤ r.ptr then (r, false)
  else ((r.setByte ((r.buf r.ptr).toNat &&& (256 - 1 <<< (8 - r.offset)))).nextByte, true)

/-! ## What is read -/

/-- The buffer has a field of `n` bits where the cursor is. -/
def Fits (r : BitRef) (n : ℕ) : Prop := r.pos + n ≤ 8 * r.maxPtr

/-- The cursor `n` bits further on in the same buffer. -/
structure Advanced (r r' : BitRef) (n : ℕ) : Prop where
  buf : r'.buf = r.buf
  maxPtr : r'.maxPtr = r.maxPtr
  pos : r'.pos = r.pos + n

theorem and_mask_shiftRight {b a c : ℕ} (hca : c ≤ a) :
    (b &&& (2 ^ a - 2 ^ c)) >>> c = b % 2 ^ a / 2 ^ c := by
  have hmask : 2 ^ a - 2 ^ c = 2 ^ c * (2 ^ (a - c) - 1) := by
    rw [Nat.mul_sub, ← pow_add, mul_one]
    congr 2
    omega
  rw [hmask, ← shiftRight_eq_div_pow]
  apply eq_of_testBit_eq
  intro i
  rw [testBit_shiftRight, testBit_shiftRight, testBit_and, testBit_two_pow_mul,
    testBit_mod_two_pow, testBit_two_pow_sub_one]
  have hlt : c + i - c < a - c ↔ c + i < a := by omega
  simp only [ge_iff_le, le_add_right, decide_true, Bool.true_and, hlt, Bool.and_comm]

variable {n : ℕ}

theorem last_round {b o : ℕ} (hn : 0 < n) (hlt : n < 8 - o) :
    (b &&& (((1 <<< (8 - o)) % 256 + 256 - (1 <<< (8 - o - n)) % 256) % 256)) >>> (8 - o - n) =
      b % 2 ^ (8 - o) / 2 ^ (8 - o - n) := by
  have hsmall : 2 ^ (8 - o - n) < 2 ^ 8 := Nat.pow_lt_pow_right (by decide) (by omega)
  have hle : 2 ^ (8 - o - n) ≤ 2 ^ (8 - o) := Nat.pow_le_pow_right (by decide) (by omega)
  have hbig : 2 ^ (8 - o) ≤ 2 ^ 8 := Nat.pow_le_pow_right (by decide) (by omega)
  have hpos := Nat.two_pow_pos (8 - o - n)
  have hmask : ((1 <<< (8 - o)) % 256 + 256 - (1 <<< (8 - o - n)) % 256) % 256 =
      2 ^ (8 - o) - 2 ^ (8 - o - n) := by
    omega
  rw [hmask, and_mask_shiftRight (by omega)]

theorem field_rest_of_byte (r : BitRef) :
    field r.buf r.pos (8 - r.offset) = (r.buf r.ptr).toNat &&& ((1 <<< (8 - r.offset)) - 1) := by
  have hoffset := r.offset_lt
  have hbyte := @field_in_byte r.buf r.ptr r.offset (8 - r.offset) (by omega)
  rw [Nat.sub_self, pow_zero, Nat.div_one] at hbyte
  rw [one_shiftLeft, and_two_pow_sub_one_eq_mod]
  exact hbyte

variable {r : BitRef}

theorem field_eq_rest_add (h : 8 - r.offset ≤ n) :
    field r.buf r.pos n =
      field r.buf r.pos (8 - r.offset) * 2 ^ (n - (8 - r.offset)) +
        field r.nextByte.buf r.nextByte.pos (n - (8 - r.offset)) := by
  have hsplit : n = 8 - r.offset + (n - (8 - r.offset)) := by omega
  have hadd := field_add r.buf r.pos (8 - r.offset) (n - (8 - r.offset))
  rw [← hsplit, ← nextByte_pos] at hadd
  exact hadd

theorem Advanced.of_nextByte {r' : BitRef} (h : 8 - r.offset ≤ n)
    (hr : r.nextByte.Advanced r' (n - (8 - r.offset))) : r.Advanced r' n := by
  refine ⟨hr.buf, hr.maxPtr, ?_⟩
  rw [hr.pos, nextByte_pos]
  omega

theorem Fits.nextByte (h : r.Fits n) (hn : 8 - r.offset ≤ n) :
    r.nextByte.Fits (n - (8 - r.offset)) := by
  unfold Fits at h ⊢
  have hmax : r.nextByte.maxPtr = r.maxPtr := rfl
  rw [nextByte_pos, hmax]
  omega

theorem Fits.ptr_lt (h : r.Fits n) (hn : 0 < n) : ¬ r.maxPtr ≤ r.ptr := by
  unfold Fits pos at h
  omega

theorem unpackLoop_eq_ok {tBits fuel val : ℕ} {r : BitRef} {n : ℕ} (hfuel : n ≤ fuel) (hn : n ≤ 32)
    (hval : val + 2 ^ n ≤ 2 ^ tBits) (hfits : r.Fits n) :
    ∃ r', unpackLoop tBits fuel val r n = .ok (val + field r.buf r.pos n) r' ∧ r.Advanced r' n := by
  induction fuel generalizing val r n with
  | zero =>
    obtain rfl : n = 0 := by omega
    exact ⟨r, rfl, rfl, rfl, rfl⟩
  | succ fuel ih =>
    rw [unpackLoop]
    by_cases hzero : n = 0
    · subst hzero
      exact ⟨r, by simp, rfl, rfl, rfl⟩
    have hoffset := r.offset_lt
    rw [if_neg hzero, if_neg (hfits.ptr_lt (by omega))]
    dsimp only
    by_cases hlast : n < 8 - r.offset
    · have hfield : field r.buf r.pos n =
          (r.buf r.ptr).toNat % 2 ^ (8 - r.offset) / 2 ^ (8 - r.offset - n) :=
        field_in_byte r.buf (by omega)
      have hlt := field_lt r.buf r.pos n
      rw [dif_pos hlast, last_round (by omega) hlast, ← hfield, mod_eq_of_lt (by omega)]
      refine ⟨_, rfl, rfl, rfl, ?_⟩
      unfold pos
      dsimp only
      omega
    · -- the rest of the byte, and then a field of `n - (8 - offset)` bits
      have hle : 8 - r.offset ≤ n := Nat.le_of_not_lt hlast
      have hchunk : (field r.buf r.pos (8 - r.offset) + 1) * 2 ^ (n - (8 - r.offset)) ≤ 2 ^ n := by
        have hpow : 2 ^ n = 2 ^ (8 - r.offset) * 2 ^ (n - (8 - r.offset)) := by
          rw [← pow_add]
          congr 1
          omega
        rw [hpow]
        exact mul_le_mul_right _ (field_lt r.buf r.pos (8 - r.offset))
      rw [add_mul, one_mul] at hchunk
      have hpow : 2 ^ n ≤ 2 ^ 32 := Nat.pow_le_pow_right (by decide) hn
      have hpos := Nat.two_pow_pos (n - (8 - r.offset))
      rw [dif_neg hlast, if_neg (by omega), ← field_rest_of_byte, shiftLeft_eq,
        mod_eq_of_lt (by omega : _ < 2 ^ 32), mod_eq_of_lt (by omega)]
      obtain ⟨r', hloop, hadvanced⟩ := @ih
        (val + field r.buf r.pos (8 - r.offset) * 2 ^ (n - (8 - r.offset))) r.nextByte
        (n - (8 - r.offset)) (by omega) (by omega) (by omega) (hfits.nextByte hle)
      refine ⟨r', ?_, hadvanced.of_nextByte hle⟩
      rw [hloop, field_eq_rest_add hle, add_assoc]

theorem unpackLoop_eq_fail {tBits fuel val : ℕ} {r : BitRef} {n : ℕ} (hfuel : n ≤ fuel)
    (hn : n ≤ 32) (hpos : r.pos ≤ 8 * r.maxPtr) (hfits : ¬ r.Fits n) :
    ∃ r', unpackLoop tBits fuel val r n = .fail r' := by
  induction fuel generalizing val r n with
  | zero =>
    unfold Fits at hfits
    omega
  | succ fuel ih =>
    have hoffset := r.offset_lt
    have hzero : n ≠ 0 := by
      unfold Fits at hfits
      omega
    rw [unpackLoop, if_neg hzero]
    by_cases hroom : r.maxPtr ≤ r.ptr
    · exact ⟨r, by rw [if_pos hroom]⟩
    unfold Fits pos at hfits
    rw [if_neg hroom]
    rw [dif_neg (by omega), if_neg (by omega)]
    have hmax : r.nextByte.maxPtr = r.maxPtr := rfl
    refine ih (by omega) (by omega) ?_ ?_
    · rw [hmax]
      unfold BitRef.nextByte pos
      dsimp only
      omega
    · unfold Fits
      rw [hmax]
      unfold BitRef.nextByte pos
      dsimp only
      omega

section

variable {r : BitRef} {tBits n : ℕ}

theorem unpack_eq_ok (hn : n ≤ 32) (ht : n ≤ tBits) (hfits : r.Fits n) :
    ∃ r', r.unpack tBits n = .ok (field r.buf r.pos n) r' ∧ r.Advanced r' n := by
  obtain ⟨r', hloop, hadvanced⟩ := @unpackLoop_eq_ok tBits n 0 r n (le_refl n) hn (by
    rw [zero_add]
    exact Nat.pow_le_pow_right (by decide) ht) hfits
  rw [zero_add] at hloop
  exact ⟨r', by rw [unpack, if_neg (Nat.not_lt_of_le ht), hloop], hadvanced⟩

theorem eq_field_of_unpack {val : ℕ} {r' : BitRef} (hn : n ≤ 32) (hpos : r.pos ≤ 8 * r.maxPtr)
    (h : r.unpack tBits n = .ok val r') :
    r.Fits n ∧ n ≤ tBits ∧ val = field r.buf r.pos n ∧ r.Advanced r' n := by
  have ht : n ≤ tBits := by
    by_contra hlt
    rw [unpack, if_pos (Nat.lt_of_not_le hlt)] at h
    cases h
  by_cases hfits : r.Fits n
  · obtain ⟨r'', hok, hadvanced⟩ := unpack_eq_ok hn ht hfits
    rw [hok] at h
    injection h with hval href
    exact ⟨hfits, ht, hval.symm, href ▸ hadvanced⟩
  · obtain ⟨r'', hfail⟩ := @unpackLoop_eq_fail tBits n 0 r n (le_refl n) hn hpos hfits
    rw [unpack, if_neg (Nat.not_lt_of_le ht), hfail] at h
    cases h

theorem lt_of_unpack {val : ℕ} {r' : BitRef} (hn : n ≤ 32) (h : r.unpack tBits n = .ok val r') :
    val < 2 ^ n := by
  by_cases hpos : r.pos ≤ 8 * r.maxPtr
  · obtain ⟨-, -, rfl, -⟩ := eq_field_of_unpack hn hpos h
    exact field_lt _ _ _
  have hoffset := r.offset_lt
  have hend : r.maxPtr ≤ r.ptr := by
    unfold pos at hpos
    omega
  unfold unpack at h
  split at h
  · cases h
  · cases n with
    | zero =>
      injection h with hval
      omega
    | succ n =>
      rw [unpackLoop, if_neg (succ_ne_zero n), if_pos hend] at h
      cases h

end

/-- Reading more than 32 bits into 64: what is beyond 32 bits is lost, unless the first shift is
undefined. -/
theorem unpack_of_gt (hlow : 32 < n) (hhigh : n ≤ 64) (hfits : r.Fits n) :
    (n + r.offset < 40 ∧ ∃ r', r.unpack 64 n = .ok (field r.buf r.pos n % 2 ^ 32) r' ∧
      r.Advanced r' n) ∨
    (40 ≤ n + r.offset ∧ r.unpack 64 n = .undefined) := by
  have hoffset := r.offset_lt
  have hle : 8 - r.offset ≤ n := by omega
  obtain ⟨fuel, rfl⟩ : ∃ fuel, n = fuel + 1 := ⟨n - 1, by omega⟩
  rw [unpack, if_neg (by omega), unpackLoop, if_neg (by omega), if_neg (hfits.ptr_lt (by omega))]
  dsimp only
  rw [dif_neg (by omega), ← field_rest_of_byte, shiftLeft_eq, zero_add]
  by_cases hshift : 32 ≤ fuel + 1 - (8 - r.offset)
  · rw [if_pos hshift]
    exact .inr ⟨by omega, rfl⟩
  rw [if_neg hshift]
  refine .inl ⟨by omega, ?_⟩
  have hrest := field_eq_rest_add hle
  have hlt := field_lt r.nextByte.buf r.nextByte.pos (fuel + 1 - (8 - r.offset))
  generalize hs : fuel + 1 - (8 - r.offset) = s at *
  -- the lost bits are those of a multiple of `2 ^ s`, and the rest is below it
  have hdvd : 2 ^ 32 = 2 ^ s * 2 ^ (32 - s) := by
    rw [← pow_add]
    congr 1
    omega
  have hmul : field r.buf r.pos (8 - r.offset) * 2 ^ s % 2 ^ 32 =
      field r.buf r.pos (8 - r.offset) % 2 ^ (32 - s) * 2 ^ s := by
    rw [hdvd, mul_comm _ (2 ^ s), mul_mod_mul_left, mul_comm]
  have hroom : field r.buf r.pos (8 - r.offset) * 2 ^ s % 2 ^ 32 + 2 ^ s ≤ 2 ^ 32 := by
    rw [hmul, hdvd, ← succ_mul, mul_comm (2 ^ s)]
    exact Nat.mul_le_mul_right _ (Nat.mod_lt _ (Nat.two_pow_pos _))
  rw [mod_eq_of_lt (by omega)]
  obtain ⟨r', hloop, hadvanced⟩ := @unpackLoop_eq_ok 64 fuel
    (field r.buf r.pos (8 - r.offset) * 2 ^ s % 2 ^ 32) r.nextByte s (by omega) (by omega)
    (by omega) (hs ▸ hfits.nextByte hle)
  refine ⟨r', ?_, (hs ▸ hadvanced : r.nextByte.Advanced r' (fuel + 1 - (8 - r.offset))).of_nextByte
    hle⟩
  have hsum : (field r.buf r.pos (8 - r.offset) * 2 ^ s + field r.nextByte.buf r.nextByte.pos s) %
      2 ^ 32 = field r.buf r.pos (8 - r.offset) * 2 ^ s % 2 ^ 32 +
        field r.nextByte.buf r.nextByte.pos s := by
    omega
  rw [hloop, hrest, hsum]

/-- The cursor `n` bits further on. -/
def advance (r : BitRef) (n : ℕ) : BitRef :=
  { r with
      ptr := (r.pos + n) / 8
      offset := (r.pos + n) % 8
      offset_lt := mod_lt _ (by decide) }

@[simp] theorem advance_pos (r : BitRef) (n : ℕ) : (r.advance n).pos = r.pos + n := by
  unfold advance pos
  dsimp only
  omega

theorem Advanced.eq_advance {r' : BitRef} (h : r.Advanced r' n) : r' = r.advance n := by
  obtain ⟨buf, ptr, offset, maxPtr, hlt⟩ := r'
  obtain ⟨hbuf, hmax, hpos⟩ := h
  have hpos : 8 * ptr + offset = r.pos + n := hpos
  have hptr : ptr = (r.pos + n) / 8 := by omega
  have hoffset : offset = (r.pos + n) % 8 := by omega
  subst hbuf hmax hptr hoffset
  rfl

theorem advance_advance (r : BitRef) (m n : ℕ) : (r.advance m).advance n = r.advance (m + n) := by
  refine (Advanced.eq_advance ⟨rfl, rfl, ?_⟩)
  rw [advance_pos, advance_pos, add_assoc]

@[simp] theorem advance_buf (r : BitRef) (n : ℕ) : (r.advance n).buf = r.buf := rfl

theorem unpack_eq_advance {r : BitRef} {tBits n : ℕ} (hn : n ≤ 32) (ht : n ≤ tBits)
    (hfits : r.Fits n) : r.unpack tBits n = .ok (field r.buf r.pos n) (r.advance n) := by
  obtain ⟨r', hok, hadvanced⟩ := unpack_eq_ok hn ht hfits
  rw [hok, hadvanced.eq_advance]

theorem offset_eq (r : BitRef) : r.offset = r.pos % 8 := by
  have hoffset := r.offset_lt
  unfold pos
  omega

theorem unpack64_cases (hn : n ≤ 64) (hfits : r.Fits n) :
    (n + r.pos % 8 < 40 ∧ ∃ r', r.unpack 64 n = .ok (field r.buf r.pos n % 2 ^ 32) r' ∧
      r.Advanced r' n) ∨
    (40 ≤ n + r.pos % 8 ∧ r.unpack 64 n = .undefined) := by
  rw [← offset_eq]
  have hoffset := r.offset_lt
  rcases lt_or_ge 32 n with hgt | hle
  · exact unpack_of_gt hgt hn hfits
  obtain ⟨r', hok, hadvanced⟩ := @unpack_eq_ok r 64 n hle hn hfits
  have hlt : field r.buf r.pos n < 2 ^ 32 :=
    lt_of_lt_of_le (field_lt r.buf r.pos n) (Nat.pow_le_pow_right (by decide) hle)
  rw [mod_eq_of_lt hlt]
  exact .inl ⟨by omega, r', hok, hadvanced⟩

/-! ## What is written -/

/-- A field of `n` bits was written at the cursor `r`, which moved behind it. -/
structure Packed (r r' : BitRef) (n val : ℕ) : Prop where
  maxPtr : r'.maxPtr = r.maxPtr
  pos : r'.pos = r.pos + n
  before : ∀ q < r.pos, bit r'.buf q = bit r.buf q
  field : field r'.buf r.pos n = val % 2 ^ n

theorem and_high_mask {b a : ℕ} (hb : b < 2 ^ 8) (ha : a ≤ 8) :
    b &&& (2 ^ 8 - 2 ^ a) = b / 2 ^ a * 2 ^ a := by
  have hhigh := @and_mask_shiftRight b 8 a ha
  rw [shiftRight_eq_div_pow, mod_eq_of_lt hb] at hhigh
  have hdvd : 2 ^ a ∣ 2 ^ 8 - 2 ^ a := dvd_sub (pow_dvd_pow 2 ha) (dvd_refl _)
  have hlow : (b &&& (2 ^ 8 - 2 ^ a)) % 2 ^ a = 0 := by
    rw [and_mod_two_pow, mod_eq_zero_of_dvd hdvd, and_zero]
  have hsum := div_add_mod' (b &&& (2 ^ 8 - 2 ^ a)) (2 ^ a)
  rw [hhigh, hlow, add_zero] at hsum
  omega

theorem setByte_spec {r : BitRef} {x : ℕ} (hx : x < 2 ^ (8 - r.offset)) :
    (∀ q < r.pos,
      bit (r.setByte (((r.buf r.ptr).toNat &&& (2 ^ 8 - 2 ^ (8 - r.offset))) + x)).buf q =
        bit r.buf q) ∧
    ((r.setByte (((r.buf r.ptr).toNat &&& (2 ^ 8 - 2 ^ (8 - r.offset))) + x)).buf r.ptr).toNat %
      2 ^ (8 - r.offset) = x := by
  have hoffset := r.offset_lt
  have hbyte := UInt8.toNat_lt (r.buf r.ptr)
  rw [and_high_mask hbyte (by omega)]
  generalize ha : 2 ^ (8 - r.offset) = m at *
  have hdvd : m ∣ 2 ^ 8 := ha ▸ pow_dvd_pow 2 (by omega)
  have hlt : (r.buf r.ptr).toNat / m * m + x < 2 ^ 8 := by
    obtain ⟨k, hk⟩ := hdvd
    have hquot : (r.buf r.ptr).toNat / m < k := Nat.div_lt_of_lt_mul (hk ▸ hbyte)
    calc (r.buf r.ptr).toNat / m * m + x
        < (r.buf r.ptr).toNat / m * m + m := Nat.add_lt_add_left hx _
      _ = ((r.buf r.ptr).toNat / m + 1) * m := by rw [add_mul, one_mul]
      _ ≤ k * m := mul_le_mul_right _ hquot
      _ = 2 ^ 8 := by rw [hk, mul_comm]
  have hnew : ((r.setByte ((r.buf r.ptr).toNat / m * m + x)).buf r.ptr).toNat =
      (r.buf r.ptr).toNat / m * m + x := by
    unfold setByte
    dsimp only
    rw [Function.update_self, UInt8.toNat_ofNat', mod_eq_of_lt hlt]
  refine ⟨?_, ?_⟩
  · intro q hq
    refine @bit_eq_of_lt _ _ r.ptr r.offset ?_ ?_ q hq (by omega)
    · intro i hi
      unfold setByte
      dsimp only
      rw [Function.update_of_ne (Nat.ne_of_lt hi)]
    · rw [ha, hnew, mul_comm, mul_add_div (by omega), div_eq_of_lt hx, add_zero]
  · rw [hnew, mul_comm, mul_add_mod, mod_eq_of_lt hx]

theorem packLoop_spec {fuel : ℕ} {r : BitRef} {val n : ℕ} (hfuel : n ≤ fuel) (hfits : r.Fits n) :
    ∃ r', packLoop fuel r val n = (r', true) ∧ r.Packed r' n val := by
  induction fuel generalizing r val n with
  | zero =>
    obtain rfl : n = 0 := by omega
    exact ⟨r, rfl, rfl, rfl, fun _ _ => rfl, by simp [mod_one]⟩
  | succ fuel ih =>
    rw [packLoop]
    by_cases hzero : n = 0
    · subst hzero
      exact ⟨r, by simp, rfl, rfl, fun _ _ => rfl, by simp [mod_one]⟩
    have hoffset := r.offset_lt
    have hmask : 255 - ((1 <<< (8 - r.offset)) - 1) = 2 ^ 8 - 2 ^ (8 - r.offset) := by
      have hpos := Nat.two_pow_pos (8 - r.offset)
      omega
    rw [if_neg hzero, if_neg (hfits.ptr_lt (by omega))]
    dsimp only
    rw [hmask, one_shiftLeft, and_two_pow_sub_one_eq_mod]
    have hval : val % 2 ^ n < 2 ^ n := Nat.mod_lt _ (Nat.two_pow_pos n)
    have hbyte : 2 ^ (8 - r.offset) ≤ 256 := Nat.pow_le_pow_right (by decide) (by omega : _ ≤ 8)
    by_cases hlast : n < 8 - r.offset
    · have hpow : 2 ^ (8 - r.offset) = 2 ^ n * 2 ^ (8 - r.offset - n) := by
        rw [← pow_add]
        congr 1
        omega
      have hx : (val % 2 ^ n) <<< (8 - r.offset - n) < 2 ^ (8 - r.offset) := by
        rw [shiftLeft_eq, hpow]
        exact Nat.mul_lt_mul_of_pos_right hval (Nat.two_pow_pos _)
      obtain ⟨hbefore, hnew⟩ := setByte_spec hx
      rw [dif_pos hlast, mod_eq_of_lt (by omega)]
      refine ⟨_, rfl, rfl, ?_, hbefore, ?_⟩
      · unfold pos setByte
        dsimp only
        omega
      · have hfield := @field_in_byte (r.setByte (((r.buf r.ptr).toNat &&&
          (2 ^ 8 - 2 ^ (8 - r.offset))) + (val % 2 ^ n) <<< (8 - r.offset - n))).buf
          r.ptr r.offset n (by omega)
        have hval' : (val % 2 ^ n) <<< (8 - r.offset - n) / 2 ^ (8 - r.offset - n) =
            val % 2 ^ n := by
          rw [shiftLeft_eq, Nat.mul_div_cancel _ (Nat.two_pow_pos _)]
        rw [hnew, hval'] at hfield
        exact hfield
    · have hle : 8 - r.offset ≤ n := Nat.le_of_not_lt hlast
      have hpow : 2 ^ n = 2 ^ (8 - r.offset) * 2 ^ (n - (8 - r.offset)) := by
        rw [← pow_add]
        congr 1
        omega
      have hx : (val % 2 ^ n) >>> (n - (8 - r.offset)) < 2 ^ (8 - r.offset) := by
        rw [shiftRight_eq_div_pow]
        exact Nat.div_lt_of_lt_mul (by rw [mul_comm, ← hpow]; exact hval)
      obtain ⟨hbefore, hnew⟩ := setByte_spec hx
      rw [dif_neg hlast, mod_eq_of_lt (by omega)]
      generalize hr₁ : r.setByte (((r.buf r.ptr).toNat &&& (2 ^ 8 - 2 ^ (8 - r.offset))) +
        (val % 2 ^ n) >>> (n - (8 - r.offset))) = r₁ at *
      have hoff₁ : r₁.offset = r.offset := by rw [← hr₁]; rfl
      have hptr₁ : r₁.ptr = r.ptr := by rw [← hr₁]; rfl
      have hmax₁ : r₁.maxPtr = r.maxPtr := by rw [← hr₁]; rfl
      have hpos₁ : r₁.pos = r.pos := by rw [pos, pos, hoff₁, hptr₁]
      have hrest : field r₁.buf r.pos (8 - r.offset) =
          (val % 2 ^ n) / 2 ^ (n - (8 - r.offset)) := by
        have hfield := @field_in_byte r₁.buf r.ptr r.offset (8 - r.offset) (by omega)
        rw [hnew, Nat.sub_self, pow_zero, Nat.div_one, shiftRight_eq_div_pow] at hfield
        exact hfield
      have hfits₁ : r₁.Fits n := by
        rw [Fits, hpos₁, hmax₁]
        exact hfits
      obtain ⟨r', hloop, hpacked⟩ := @ih r₁.nextByte (val % 2 ^ n) (n - (8 - r.offset)) (by omega)
        (hoff₁ ▸ hfits₁.nextByte (by omega))
      have hnext : r₁.nextByte.pos = r.pos + (8 - r.offset) := by rw [nextByte_pos, hpos₁, hoff₁]
      refine ⟨r', hloop, hpacked.maxPtr.trans hmax₁, ?_, ?_, ?_⟩
      · rw [hpacked.pos, hnext]
        omega
      · intro q hq
        rw [hpacked.before q (by omega)]
        exact hbefore q hq
      · -- the rest of the byte is not touched again
        have hkept : field r'.buf r.pos (8 - r.offset) = field r₁.buf r.pos (8 - r.offset) :=
          field_congr fun q _ hlt => hpacked.before q (by omega)
        have hlow := hpacked.field
        rw [hnext] at hlow
        have hsplit : n = 8 - r.offset + (n - (8 - r.offset)) := by omega
        have hadd := field_add r'.buf r.pos (8 - r.offset) (n - (8 - r.offset))
        rw [← hsplit, hkept, hrest, hlow, div_add_mod'] at hadd
        exact hadd

section

variable {r : BitRef} {val n : ℕ}

theorem pack_spec (hn : n < 64) (hfits : r.Fits n) :
    ∃ r', r.pack val n = (r', true) ∧ r.Packed r' n val := by
  obtain ⟨r', hloop, hpacked⟩ := @packLoop_spec n r val n (le_refl n) hfits
  exact ⟨r', by rw [pack, if_neg (Nat.not_le_of_lt hn), hloop], hpacked⟩

end

/-! ## Lists of fields -/

/-- Fields are written one after the other. -/
def packAll : BitRef → List (ℕ × ℕ) → BitRef × Bool
  | r, [] => (r, true)
  | r, (val, n) :: fields =>
    match r.pack val n with
    | (r, true) => r.packAll fields
    | (r, false) => (r, false)

/-- Fields are read one after the other into numbers of 64 bits. -/
def unpackAll : BitRef → List ℕ → Outcome (List ℕ)
  | r, [] => .ok [] r
  | r, n :: widths =>
    (r.unpack 64 n).bind fun val r => (r.unpackAll widths).bind fun vals r => .ok (val :: vals) r

/-- The fields are written, and read back from the same position, cut to their widths; both cursors
end at one position, and the bits in front of it are as before. -/
def RoundTrips (r : BitRef) (fields : List (ℕ × ℕ)) : Prop :=
  ∃ r', r.packAll fields = (r', true) ∧ (∀ q < r.pos, bit r'.buf q = bit r.buf q) ∧
    ∃ r'', { r with buf := r'.buf }.unpackAll (fields.map Prod.snd) =
        .ok (fields.map fun f => f.1 % 2 ^ f.2) r'' ∧ r''.pos = r'.pos

/-- The fields that can be read from a position on: no shift is undefined, and the values have at
most 32 bits. -/
def Readable : (pos : ℕ) → List (ℕ × ℕ) → Prop
  | _, [] => True
  | pos, (val, n) :: fields =>
    n + pos % 8 < 40 ∧ val % 2 ^ n < 2 ^ 32 ∧ Readable (pos + n) fields

/-- What a list of fields leaves behind. -/
structure PackedAll (r r' : BitRef) (fields : List (ℕ × ℕ)) : Prop where
  maxPtr : r'.maxPtr = r.maxPtr
  pos : r'.pos = r.pos + (fields.map Prod.snd).sum
  before : ∀ q < r.pos, bit r'.buf q = bit r.buf q

/-- The fields stand one after the other in the memory. -/
def Stored (mem : ℕ → UInt8) : (pos : ℕ) → List (ℕ × ℕ) → Prop
  | _, [] => True
  | pos, (val, n) :: fields => field mem pos n = val % 2 ^ n ∧ Stored mem (pos + n) fields

theorem packAll_spec {fields : List (ℕ × ℕ)} (hwidths : ∀ f ∈ fields, f.2 < 64)
    (hfits : r.Fits (fields.map Prod.snd).sum) :
    ∃ r', r.packAll fields = (r', true) ∧ r.PackedAll r' fields ∧ Stored r'.buf r.pos fields := by
  induction fields generalizing r with
  | nil => exact ⟨r, rfl, ⟨rfl, rfl, fun _ _ => rfl⟩, trivial⟩
  | cons f fields ih =>
    obtain ⟨val, n⟩ := f
    rw [map_cons, sum_cons] at hfits
    have hfirst : r.Fits n := by
      unfold Fits at hfits ⊢
      omega
    obtain ⟨r₁, hpack, hpacked⟩ := @pack_spec r val n (hwidths _ mem_cons_self) hfirst
    obtain ⟨r', hall, hrest, hstored⟩ := @ih r₁ (fun f hf => hwidths f (mem_cons_of_mem _ hf)) (by
      have hpos := hpacked.pos
      have hmax := hpacked.maxPtr
      unfold Fits at hfits ⊢
      omega)
    rw [hpacked.pos] at hstored
    refine ⟨r', ?_, ⟨hrest.maxPtr.trans hpacked.maxPtr, ?_, ?_⟩, ?_, hstored⟩
    · rw [packAll, hpack]
      exact hall
    · rw [hrest.pos, hpacked.pos, map_cons, sum_cons, add_assoc]
    · intro q hq
      rw [hrest.before q (by rw [hpacked.pos]; omega), hpacked.before q hq]
    · rw [← hpacked.field]
      exact field_congr fun q _ hlt => hrest.before q (by rw [hpacked.pos]; omega)

theorem unpackAll_iff {r : BitRef} {fields : List (ℕ × ℕ)} (hwidths : ∀ f ∈ fields, f.2 < 64)
    (hfits : r.Fits (fields.map Prod.snd).sum) (hstored : Stored r.buf r.pos fields) :
    (∃ r'', r.unpackAll (fields.map Prod.snd) = .ok (fields.map fun f => f.1 % 2 ^ f.2) r'' ∧
      r''.pos = r.pos + (fields.map Prod.snd).sum) ↔ Readable r.pos fields := by
  induction fields generalizing r with
  | nil => exact ⟨fun _ => trivial, fun _ => ⟨r, rfl, rfl⟩⟩
  | cons f fields ih =>
    obtain ⟨val, n⟩ := f
    obtain ⟨hfield, hstored⟩ := hstored
    simp only [map_cons, sum_cons] at hfits ⊢
    have hfirst : r.Fits n := by
      unfold Fits at hfits ⊢
      omega
    have hn : n ≤ 64 := le_of_lt (hwidths _ mem_cons_self)
    rcases unpack64_cases hn hfirst with ⟨hshift, r₁, hok, hadvanced⟩ | ⟨hshift, hundef⟩
    · -- the cursor stands behind the first field, and the others are read from there
      have hrest := @ih r₁ (fun f hf => hwidths f (mem_cons_of_mem _ hf)) (by
        have hpos := hadvanced.pos
        have hmax := hadvanced.maxPtr
        unfold Fits at hfits ⊢
        omega) (by rw [hadvanced.buf, hadvanced.pos]; exact hstored)
      rw [hadvanced.pos] at hrest
      rw [unpackAll, hok, Outcome.bind_ok, hfield, Readable, ← hrest]
      constructor
      · rintro ⟨r'', hall, hpos⟩
        obtain ⟨vals, r₂, hvals, hcons⟩ := Outcome.bind_eq_ok.mp hall
        simp only [Outcome.ok.injEq, cons.injEq] at hcons
        obtain ⟨⟨hval, hvals'⟩, rfl⟩ := hcons
        refine ⟨hshift, ?_, r₂, by rw [hvals, hvals'], by omega⟩
        omega
      · rintro ⟨-, hsmall, r'', hall, hpos⟩
        refine ⟨r'', ?_, by omega⟩
        rw [hall, Outcome.bind_ok, mod_eq_of_lt hsmall]
    · rw [unpackAll, hundef]
      constructor
      · rintro ⟨r'', hall, -⟩
        exact absurd hall (by simp [Outcome.bind])
      · rintro ⟨hlt, -⟩
        omega

/-- Fields of fewer than 64 bits that fit into the buffer are read back exactly if they are
readable. -/
theorem roundTrips_iff_readable (r : BitRef) (fields : List (ℕ × ℕ))
    (hwidths : ∀ f ∈ fields, f.2 ≤ 63) (hfits : r.pos + (fields.map Prod.snd).sum ≤ 8 * r.maxPtr) :
    r.RoundTrips fields ↔ Readable r.pos fields := by
  have hwidths' : ∀ f ∈ fields, f.2 < 64 := fun f hf => lt_succ_of_le (hwidths f hf)
  obtain ⟨r', hpack, hpacked, hstored⟩ := packAll_spec hwidths' hfits
  have hread := @unpackAll_iff { r with buf := r'.buf } fields hwidths' hfits hstored
  have hpos : (BitRef.mk r'.buf r.ptr r.offset r.maxPtr r.offset_lt).pos = r.pos := rfl
  rw [hpos, ← hpacked.pos] at hread
  rw [← hread]
  constructor
  · rintro ⟨r₁, hpack', -, hread'⟩
    obtain rfl := (Prod.mk.inj (hpack.symm.trans hpack')).1
    exact hread'
  · intro hread'
    exact ⟨r', hpack, hpacked.before, hread'⟩

/-- A cursor at the beginning of an empty buffer of 16 bytes. -/
def emptyBuffer : BitRef := ⟨fun _ => 0, 0, 0, 16, by decide⟩

theorem roundTrips_short_fields :
    (∀ f ∈ [(5, 3), (70000, 17), (2 ^ 32 - 1, 32)], f.2 ≤ 63) ∧
      emptyBuffer.RoundTrips [(5, 3), (70000, 17), (2 ^ 32 - 1, 32)] :=
  ⟨by decide, (roundTrips_iff_readable emptyBuffer [(5, 3), (70000, 17), (2 ^ 32 - 1, 32)]
    (by decide) (by decide)).mpr ⟨by decide, by decide, by decide, by decide, by decide, by decide,
      trivial⟩⟩

/-- A field of 33 bits: its highest bit is lost. -/
theorem not_roundTrips_33_bits :
    (emptyBuffer.packAll [(2 ^ 32, 33)]).2 = true ∧
      ({ emptyBuffer with buf := (emptyBuffer.packAll [(2 ^ 32, 33)]).1.buf }.unpackAll [33]).val? =
        some [0] ∧
      ¬ emptyBuffer.RoundTrips [(2 ^ 32, 33)] := by
  have hread : ({ emptyBuffer with
      buf := (emptyBuffer.packAll [(2 ^ 32, 33)]).1.buf }.unpackAll [33]).val? = some [0] := by
    rfl
  refine ⟨by rfl, hread, ?_⟩
  rintro ⟨r', hpack, -, r'', hread', -⟩
  have hvals : ({ emptyBuffer with buf := r'.buf }.unpackAll [33]).val? = some [2 ^ 32] :=
    congrArg Outcome.val? hread'
  rw [hpack, hvals] at hread
  cases hread

end BitRef

end MbmsTx.Asn1
