import MbmsTx.Asn1.BitRef
import MbmsTx.Lib.Memory

/-!
# Open fields and unknown extensions

An open field is a length determinant and so many octets. `varlength_field_unpack_guard` reads the
length, and at the end of its scope skips what the decoder has not read with one read into a
`uint32_t`. A read of more than 32 bits is refused without moving the cursor and the error ignored,
so the cursor stands behind the field exactly if at most 32 bits were left.
`ext_groups_unpacker_guard` skips unknown extension groups in this way, and reads the content of a
longer one as the next groups.
-/

namespace MbmsTx.Asn1

open MbmsTx.BitField MbmsTx.Memory List BitRef

namespace BitRef

/-! ## Length determinants -/

def unpackLength (r : BitRef) (aligned : Bool) : Outcome ℕ :=
  if aligned = false then
    r.unpackBool.bind fun ext r =>
      if ext = false then r.unpack 32 7
      else
        r.unpackBool.bind fun ext r =>
          if ext = false then r.unpack 32 14 else .fail r
  else
    r.alignBytes.bind fun _ r =>
      (r.unpack 32 8).bind fun val r =>
        if val < 128 then .ok val r
        else if val - 128 < 64 then
          (r.unpack 32 8).bind fun valOctet2 r => .ok (((val - 128) <<< 8) + valOctet2) r
        else .fail r

theorem le_of_unpackLength {r r' : BitRef} {aligned : Bool} {len : ℕ}
    (h : r.unpackLength aligned = .ok len r') : len ≤ 16383 := by
  unfold unpackLength at h
  split at h
  · obtain ⟨ext, r₁, -, h⟩ := Outcome.bind_eq_ok.mp h
    split at h
    · have hlt := lt_of_unpack (by decide) h
      omega
    obtain ⟨ext', r₂, -, h⟩ := Outcome.bind_eq_ok.mp h
    split at h
    · have hlt := lt_of_unpack (by decide) h
      omega
    · cases h
  · obtain ⟨-, r₁, -, h⟩ := Outcome.bind_eq_ok.mp h
    obtain ⟨val, r₂, -, h⟩ := Outcome.bind_eq_ok.mp h
    split at h
    · injection h with hval
      omega
    split at h
    · obtain ⟨octet, r₃, hoctet, h⟩ := Outcome.bind_eq_ok.mp h
      have hlt := lt_of_unpack (by decide) hoctet
      injection h with hval
      omega
    · cases h

/-! ## The guards -/

/-- The destructor of `varlength_field_unpack_guard`, for a length, the cursor behind the length
determinant and the cursor at the end of the scope. Nothing is undefined, since more than 32 bits
are refused. -/
def leaveField (len : ℕ) (bref0 r : BitRef) : BitRef :=
  match r.unpack 32 ((((len : ℤ) * 8 - r.distance bref0) % 2 ^ 32).toNat) with
  | .ok _ r => r
  | .fail r => r
  | .undefined => r

/-- A `varlength_field_unpack_guard` in whose scope nothing is read. If the length cannot be read,
the destructor does not move the cursor: the buffer ends there, or the length left is 0 or above 4.
-/
def skipField (r : BitRef) : BitRef :=
  match r.unpackLength false with
  | .ok len bref0 => leaveField len bref0 bref0
  | .fail r => r
  | .undefined => r

end BitRef

/-- `ext_groups_unpacker_guard` after `unpack`: the presence flags of the groups. -/
structure ExtGroups where
  nofSupportedGroups : ℕ
  nofUnpackedGroups : ℕ
  groups : List Bool

/-- The presence flags of the groups that are not known. -/
def ExtGroups.unknown (g : ExtGroups) : List Bool :=
  (g.groups.take g.nofUnpackedGroups).drop g.nofSupportedGroups

/-- The destructor of `ext_groups_unpacker_guard`. -/
def ExtGroups.consumeUnknown (g : ExtGroups) (r : BitRef) : BitRef :=
  g.unknown.foldl (fun r present => if present then r.skipField else r) r

namespace BitRef

/-! ## One field -/

variable {r : BitRef}

theorem leaveField_pos_iff {len d : ℕ} {bref0 : BitRef} (hfits : bref0.Fits (8 * len))
    (hd : d ≤ 8 * len) (hr : bref0.Advanced r d) (hlen : 8 * len < 2 ^ 32) :
    (leaveField len bref0 r).pos = bref0.pos + 8 * len ↔ 8 * len - d ≤ 32 := by
  have hbits : (((len : ℤ) * 8 - r.distance bref0) % 2 ^ 32).toNat = 8 * len - d := by
    rw [distance_eq, hr.pos]
    omega
  unfold leaveField
  rw [hbits]
  constructor
  · intro hpos
    by_contra hmany
    rw [unpack, if_pos (Nat.lt_of_not_le hmany)] at hpos
    rw [hr.pos] at hpos
    omega
  · intro hfew
    have hrest : r.Fits (8 * len - d) := by
      have hmax := hr.maxPtr
      have hpos := hr.pos
      unfold Fits at hfits ⊢
      omega
    rw [unpack_eq_advance hfew hfew hrest]
    rw [advance_pos, hr.pos]
    omega

theorem leaveField_self {len : ℕ} {bref0 : BitRef} (hfits : bref0.Fits (8 * len))
    (hlen : 8 * len < 2 ^ 32) :
    leaveField len bref0 bref0 = if len ≤ 4 then bref0.advance (8 * len) else bref0 := by
  have hbits : (((len : ℤ) * 8 - bref0.distance bref0) % 2 ^ 32).toNat = 8 * len := by
    rw [distance_eq]
    omega
  unfold leaveField
  rw [hbits]
  by_cases hfew : len ≤ 4
  · rw [unpack_eq_advance (by omega) (by omega) hfits, if_pos hfew]
  · rw [unpack, if_pos (by omega), if_neg hfew]

/-! ## Unknown groups -/

/-- From the cursor on the buffer has open fields with these lengths, which end at `stop`. -/
def HoldsFields (r : BitRef) : List ℕ → (stop : ℕ) → Prop
  | [], stop => r.pos = stop
  | len :: lens, stop =>
    ∃ bref0, r.unpackLength false = .ok len bref0 ∧ bref0.Fits (8 * len) ∧
      (bref0.advance (8 * len)).HoldsFields lens stop

variable {stop : ℕ}

theorem HoldsFields.skip {lens : List ℕ} (h : r.HoldsFields lens stop)
    (hshort : ∀ len ∈ lens, len ≤ 4) : (skipField^[lens.length] r).pos = stop := by
  induction lens generalizing r with
  | nil => exact h
  | cons len lens ih =>
    obtain ⟨bref0, hlength, hfits, hrest⟩ := h
    have hle := hshort len mem_cons_self
    have hskip : r.skipField = bref0.advance (8 * len) := by
      rw [skipField, hlength]
      dsimp only
      rw [leaveField_self hfits (by omega), if_pos hle]
    rw [length_cons, Function.iterate_succ_apply, hskip]
    exact ih hrest fun len hlen => hshort len (mem_cons_of_mem _ hlen)

/-! ### A buffer of octets

The octets of the fields below are zero: the content of a field reads as fields without octets. -/

/-- A length determinant. -/
def lengthOctets (len : ℕ) : List UInt8 :=
  if len < 128 then [UInt8.ofNat len] else [UInt8.ofNat (128 + len / 256), UInt8.ofNat (len % 256)]

/-- Open fields of zeros. -/
def zeroFields : List ℕ → List UInt8
  | [] => []
  | len :: lens => lengthOctets len ++ (List.replicate len 0 ++ zeroFields lens)

/-- What is left of a buffer that ends at `stop` are these octets. -/
structure Remaining (r : BitRef) (stop : ℕ) (octets : List UInt8) : Prop where
  offset : r.offset = 0
  holds : Holds r.buf r.ptr octets
  maxPtr : r.maxPtr = stop
  stop_eq : stop = r.ptr + octets.length

theorem Remaining.pos_add {octets : List UInt8} (h : r.Remaining stop octets) :
    r.pos + 8 * octets.length = 8 * stop := by
  rw [pos, h.offset, h.stop_eq]
  omega

theorem Remaining.advance {octets rest : List UInt8} (h : r.Remaining stop (octets ++ rest)) :
    (r.advance (8 * octets.length)).Remaining stop rest := by
  have hptr : (r.advance (8 * octets.length)).ptr = r.ptr + octets.length := by
    unfold BitRef.advance pos
    dsimp only
    rw [h.offset]
    omega
  refine ⟨?_, ?_, h.maxPtr, ?_⟩
  · unfold BitRef.advance pos
    dsimp only
    rw [h.offset]
    omega
  · rw [hptr]
    exact (holds_append.mp h.holds).2
  · rw [hptr, h.stop_eq, length_append, add_assoc]

theorem unpackBool_eq (hfits : r.Fits 1) :
    r.unpackBool = .ok (decide (field r.buf r.pos 1 ≠ 0)) (r.advance 1) := by
  rw [unpackBool, unpack_eq_advance (by decide) (by decide) hfits]
  rfl

theorem Remaining.unpackLength {len : ℕ} {rest : List UInt8}
    (h : r.Remaining stop (lengthOctets len ++ rest)) (hlen : len ≤ 16383) :
    r.unpackLength false = .ok len (r.advance (8 * (lengthOctets len).length)) := by
  have hpos : r.pos = 8 * r.ptr := by rw [pos, h.offset, add_zero]
  have hroom := h.pos_add
  have hholds := (holds_append.mp h.holds).1
  have hfits : ∀ n, n ≤ 8 * (lengthOctets len).length → r.Fits n := by
    intro n hn
    rw [length_append] at hroom
    rw [Fits, h.maxPtr]
    omega
  have hfits' : ∀ m n, m + n ≤ 8 * (lengthOctets len).length → (r.advance m).Fits n := by
    intro m n hn
    have hfits := hfits (m + n) hn
    have hmax : (r.advance m).maxPtr = r.maxPtr := rfl
    unfold Fits at hfits ⊢
    rw [advance_pos, hmax]
    omega
  rw [BitRef.unpackLength, if_pos rfl]
  unfold lengthOctets at *
  split at hholds
  · rename_i hshort
    rw [if_pos hshort] at hfits hfits' ⊢
    -- one octet: a zero, and seven bits of length
    have hbyte : (r.buf r.ptr).toNat = len := by
      rw [(holds_cons.mp hholds).1, UInt8.toNat_ofNat', Nat.mod_eq_of_lt (by omega)]
    have hflag : field r.buf r.pos 1 = 0 := by
      have hfield := @field_in_byte r.buf r.ptr 0 1 (by decide)
      rw [hbyte, add_zero, ← hpos] at hfield
      omega
    have hlow : field r.buf (r.pos + 1) 7 = len := by
      have hfield := @field_in_byte r.buf r.ptr 1 7 (by decide)
      rw [hbyte, ← hpos] at hfield
      omega
    rw [unpackBool_eq (hfits 1 (by simp)), hflag, Outcome.bind_ok, if_pos (by decide),
      unpack_eq_advance (by decide) (by decide) (hfits' 1 7 (by simp)),
      advance_advance, advance_pos, advance_buf, hlow]
    rfl
  · rename_i hlong
    rw [if_neg hlong] at hfits hfits' ⊢
    -- two octets: a one, a zero, and fourteen bits of length
    obtain ⟨hfirst, hsecond⟩ := holds_cons.mp hholds
    have hbyte : (r.buf r.ptr).toNat = 128 + len / 256 := by
      rw [hfirst, UInt8.toNat_ofNat', Nat.mod_eq_of_lt (by omega)]
    have hbyte' : (r.buf (r.ptr + 1)).toNat = len % 256 := by
      rw [(holds_cons.mp hsecond).1, UInt8.toNat_ofNat', Nat.mod_eq_of_lt (by omega)]
    have hflag : field r.buf r.pos 1 = 1 := by
      have hfield := @field_in_byte r.buf r.ptr 0 1 (by decide)
      rw [hbyte, add_zero, ← hpos] at hfield
      omega
    have hflag' : field r.buf (r.pos + 1) 1 = 0 := by
      have hfield := @field_in_byte r.buf r.ptr 1 1 (by decide)
      rw [hbyte, ← hpos] at hfield
      omega
    have hlow : field r.buf (r.pos + 2) 14 = len := by
      have hhigh := @field_in_byte r.buf r.ptr 2 6 (by decide)
      have hnext := @field_in_byte r.buf (r.ptr + 1) 0 8 (by decide)
      have hadd := field_add r.buf (r.pos + 2) 6 8
      have hpos' : r.pos + 2 + 6 = 8 * (r.ptr + 1) + 0 := by omega
      rw [hpos', hnext, hpos, hhigh, hbyte, hbyte'] at hadd
      rw [hpos, hadd]
      omega
    rw [unpackBool_eq (hfits 1 (by simp)), hflag, Outcome.bind_ok, if_neg (by decide),
      unpackBool_eq (hfits' 1 1 (by simp)), advance_pos, advance_buf, hflag',
      Outcome.bind_ok, advance_advance, if_pos (by decide),
      unpack_eq_advance (by decide) (by decide) (hfits' 2 14 (by simp)),
      advance_advance, advance_pos, advance_buf, hlow]
    rfl

theorem Remaining.skipField {r : BitRef} {stop len : ℕ} {rest : List UInt8}
    (h : r.Remaining stop (lengthOctets len ++ (replicate len 0 ++ rest))) (hlen : len ≤ 16383) :
    r.skipField.Remaining stop (if len ≤ 4 then rest else replicate len 0 ++ rest) := by
  have hbehind := h.advance
  have hfits : (r.advance (8 * (lengthOctets len).length)).Fits (8 * len) := by
    have hroom := hbehind.pos_add
    rw [length_append, length_replicate] at hroom
    rw [Fits, hbehind.maxPtr]
    omega
  rw [BitRef.skipField, h.unpackLength hlen]
  dsimp only
  rw [leaveField_self hfits (by omega)]
  split
  · have hrest := hbehind.advance
    rw [length_replicate] at hrest
    exact hrest
  · exact hbehind

/-- Inside the content of a field the guards do not catch up: each gets to the end of a field at
most, and there are at least as many fields ahead as guards. -/
theorem Remaining.lags {z n : ℕ} {lens : List ℕ}
    (h : r.Remaining stop (replicate z 0 ++ zeroFields lens)) (hlens : ∀ len ∈ lens, len ≤ 16383)
    (hahead : 0 < z ∧ n ≤ lens.length ∨ n < lens.length) :
    ∃ octets, (BitRef.skipField^[n] r).Remaining stop octets ∧ octets ≠ [] := by
  induction n generalizing r z lens with
  | zero =>
    refine ⟨_, h, ?_⟩
    rcases hahead with ⟨hz, -⟩ | hlt
    · obtain ⟨z, rfl⟩ : ∃ k, z = k + 1 := ⟨z - 1, by omega⟩
      simp
    · obtain ⟨len, lens, rfl⟩ := exists_cons_of_length_pos hlt
      unfold zeroFields lengthOctets
      split <;> simp
  | succ n ih =>
    rw [Function.iterate_succ_apply]
    cases z with
    | succ z =>
      have hskip := @Remaining.skipField r stop 0 _ h (by omega)
      exact ih hskip hlens (.inr (by omega))
    | zero =>
      cases lens with
      | nil => simp at hahead
      | cons len lens =>
        obtain ⟨hlen, hrest⟩ := forall_mem_cons.mp hlens
        have hskip := @Remaining.skipField r stop len (zeroFields lens) h hlen
        rw [length_cons] at hahead
        by_cases hle : len ≤ 4
        · rw [if_pos hle] at hskip
          exact @ih _ 0 lens hskip hrest (.inr (by omega))
        · rw [if_neg hle] at hskip
          exact ih hskip hrest (.inl (by omega))

/-- If a field of zeros has more than four octets, something is left behind the last guard. -/
theorem Remaining.left_over {lens : List ℕ} (h : r.Remaining stop (zeroFields lens))
    (hlens : ∀ len ∈ lens, len ≤ 16383) (hlong : ∃ len ∈ lens, ¬ len ≤ 4) :
    ∃ octets, (BitRef.skipField^[lens.length] r).Remaining stop octets ∧ octets ≠ [] := by
  induction lens generalizing r with
  | nil =>
    obtain ⟨len, hlen, -⟩ := hlong
    cases hlen
  | cons len lens ih =>
    obtain ⟨hlen, hrest⟩ := forall_mem_cons.mp hlens
    have hskip := @Remaining.skipField r stop len (zeroFields lens) h hlen
    rw [length_cons, Function.iterate_succ_apply]
    by_cases hle : len ≤ 4
    · rw [if_pos hle] at hskip
      obtain ⟨len', hmem, hnot⟩ := hlong
      rcases mem_cons.mp hmem with rfl | hmem
      · omega
      · exact ih hskip hrest ⟨len', hmem, hnot⟩
    · rw [if_neg hle] at hskip
      exact Remaining.lags hskip hrest (.inl ⟨by omega, le_rfl⟩)

theorem Remaining.holdsFields {lens : List ℕ} (h : r.Remaining stop (zeroFields lens))
    (hlens : ∀ len ∈ lens, len ≤ 16383) : r.HoldsFields lens (8 * stop) := by
  induction lens generalizing r with
  | nil =>
    have hpos := h.pos_add
    assumption
  | cons len lens ih =>
    have hbehind := h.advance
    have hrest := hbehind.advance
    rw [length_replicate] at hrest
    refine ⟨_, h.unpackLength (hlens len mem_cons_self), ?_, ?_⟩
    · have hroom := hbehind.pos_add
      rw [length_append, length_replicate] at hroom
      rw [Fits, hbehind.maxPtr]
      omega
    · exact ih hrest fun len hlen => hlens len (mem_cons_of_mem _ hlen)

/-- A buffer with these fields. -/
def ofOctets (octets : List UInt8) : BitRef :=
  start (fun i => octets.getD i 0) octets.length

theorem remaining_ofOctets (octets : List UInt8) :
    (ofOctets octets).Remaining octets.length octets := by
  refine ⟨rfl, ?_, rfl, (zero_add _).symm⟩
  refine ext_getElem (by simp) ?_
  intro i hi hi'
  simp [slice, ofOctets, start, hi']

/-- Guards without a body skip any fields of these lengths exactly if none has more than four
octets. -/
theorem skip_all_iff {lens : List ℕ} (hlens : ∀ len ∈ lens, len ≤ 16383) :
    (∀ r stop, HoldsFields r lens stop → (skipField^[lens.length] r).pos = stop) ↔
      ∀ len ∈ lens, len ≤ 4 := by
  constructor
  · intro hskip len hlen
    by_contra hlong
    have hstart := remaining_ofOctets (zeroFields lens)
    obtain ⟨octets, hend, hne⟩ := hstart.left_over hlens ⟨len, hlen, hlong⟩
    have hpos := hskip _ _ (hstart.holdsFields hlens)
    have hleft := hend.pos_add
    have hlength := length_pos_iff.mpr hne
    omega
  · intro hshort r stop hholds
    exact hholds.skip hshort

end BitRef

theorem foldl_skipField (r : BitRef) (groups : List (Option ℕ)) :
    (groups.map Option.isSome).foldl (fun r present => if present then r.skipField else r) r =
      skipField^[(groups.filterMap id).length] r := by
  induction groups generalizing r with
  | nil => rfl
  | cons group groups ih =>
    cases group with
    | none => exact ih r
    | some len =>
      rw [map_cons, foldl_cons, ih]
      rfl

/-- A guard leaves the cursor behind its open field exactly if at most 32 bits of it were not read
in the scope. The unknown extension groups of `g`, given by their lengths, are skipped, whatever
their content, exactly if none has more than four octets. -/
theorem open_fields_skipped_iff (g : ExtGroups) :
    (∀ {r bref0 r' : BitRef} {aligned : Bool} {len d : ℕ},
      r.unpackLength aligned = .ok len bref0 → bref0.pos + 8 * len ≤ 8 * bref0.maxPtr →
      d ≤ 8 * len → bref0.Advanced r' d →
      ((leaveField len bref0 r').pos = bref0.pos + 8 * len ↔ 8 * len - d ≤ 32)) ∧
    ∀ {groups : List (Option ℕ)}, g.unknown = groups.map Option.isSome →
      (∀ len, some len ∈ groups → len ≤ 16383) →
      ((∀ r stop, BitRef.HoldsFields r (groups.filterMap id) stop →
        (g.consumeUnknown r).pos = stop) ↔ ∀ len, some len ∈ groups → len ≤ 4) := by
  refine ⟨fun hlength hfits hd hbody => ?_, fun {groups} hunknown hlens => ?_⟩
  · have hlen := le_of_unpackLength hlength
    exact BitRef.leaveField_pos_iff hfits hd hbody (by omega)
  have hmem : ∀ {len}, len ∈ groups.filterMap id ↔ some len ∈ groups := by
    simp
  have hskip := @BitRef.skip_all_iff (groups.filterMap id) fun len hlen => hlens len (hmem.mp hlen)
  unfold ExtGroups.consumeUnknown
  rw [hunknown]
  simp only [foldl_skipField]
  rw [hskip]
  simp

/-- An open field of two octets with eight bits read, and groups of which the last two are not
known. -/
theorem open_fields_skipped_two_octets :
    (leaveField 2 ((ofOctets [2, 0, 0]).advance 8)
        ((ofOctets [2, 0, 0]).advance 16)).pos = 24 ∧
      ∀ r stop, BitRef.HoldsFields r [3] stop →
        (ExtGroups.consumeUnknown ⟨1, 3, [true, false, true]⟩ r).pos = stop := by
  have hlength : (ofOctets [2, 0, 0]).unpackLength false =
      .ok 2 ((ofOctets [2, 0, 0]).advance 8) :=
    (remaining_ofOctets [2, 0, 0]).unpackLength (by decide)
  have hbody : ((ofOctets [2, 0, 0]).advance 8).Advanced ((ofOctets [2, 0, 0]).advance 16) 8 :=
    ⟨rfl, rfl, rfl⟩
  obtain ⟨hguard, hgroups⟩ := open_fields_skipped_iff ⟨1, 3, [true, false, true]⟩
  exact ⟨(hguard hlength (by decide) (by decide) hbody).mpr (by decide),
    (@hgroups [none, some 3] rfl (by simp)).mpr (by simp)⟩

/-- An unknown group of five octets: the cursor stays behind its length. -/
theorem open_field_of_five_not_skipped :
    BitRef.HoldsFields (ofOctets [5, 0, 0, 0, 0, 0]) [5] 48 ∧
      (ExtGroups.consumeUnknown ⟨0, 1, [true]⟩ (ofOctets [5, 0, 0, 0, 0, 0])).pos = 8 := by
  refine ⟨?_, by rfl⟩
  exact (remaining_ofOctets (zeroFields [5])).holdsFields (by decide)

end MbmsTx.Asn1
