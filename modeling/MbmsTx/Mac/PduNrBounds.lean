import MbmsTx.Mac.PduNr

/-!
# Reading an NR MAC PDU stays inside of it

`unpack` compares its offset with the length of the PDU only before it reads a subheader. The
sub-PDUs are in order, but the last one, or the octets of its length, may reach behind the end.
Reading stays inside exactly if the octets are sub-PDUs that end inside, up to padding, an LCID that
is not valid or the end (`parsedInside_iff`).
-/

namespace MbmsTx.Mac.Nr

open List SchSubpdu MbmsTx.Memory

/-- The octets that `read_subheader` reads at an offset. -/
def subheaderOctets (ulsch : Bool) (payload : ℕ → UInt8) (ptr : ℕ) : List ℕ :=
  if isValidLcid ulsch (payload ptr &&& 0x3F).toNat then
    List.range' ptr (lengthOctets ulsch (payload ptr) + 1)
  else [ptr]

/-- The sub-PDUs of `unpack`, from an offset on, and where they start. -/
def unpackSpans (ulsch : Bool) (payload : ℕ → UInt8) (len offset : ℕ) : List (ℕ × SchSubpdu) :=
  if offset < len then
    match h : readSubheader ulsch payload offset with
    | none => []
    | some s =>
      have := s.totalLength_pos h
      if s.lcid = padding then [(offset, s.setPadding (len - (offset + s.totalLength) + 1))]
      else (offset, s) :: unpackSpans ulsch payload len (offset + s.totalLength)
  else []
  termination_by len - offset

/-- The loop of `unpack` gets from one offset to another. -/
inductive Visits (ulsch : Bool) (payload : ℕ → UInt8) (len : ℕ) : ℕ → ℕ → Prop
  | refl (offset : ℕ) : Visits ulsch payload len offset offset
  | step {offset next : ℕ} {s : SchSubpdu} (hlt : offset < len)
      (hread : readSubheader ulsch payload offset = some s) (hpadding : s.lcid ≠ padding)
      (hrest : Visits ulsch payload len (offset + s.totalLength) next) :
      Visits ulsch payload len offset next

/-- What is read and every sub-PDU that is left is inside of the PDU, and the sub-PDUs follow each
other. -/
structure ParsedInside (ulsch : Bool) (payload : ℕ → UInt8) (len : ℕ) : Prop where
  read : ∀ o, Visits ulsch payload len 0 o → o < len →
    ∀ i ∈ subheaderOctets ulsch payload o, i < len
  left : (unpack ulsch payload len).1 = (unpackSpans ulsch payload len 0).map Prod.snd
  inside : ∀ x ∈ unpackSpans ulsch payload len 0, x.1 + x.2.totalLength ≤ len
  ordered : (unpackSpans ulsch payload len 0).Pairwise fun x y => x.1 + x.2.totalLength ≤ y.1

/-- The octets are sub-PDUs, up to padding, an LCID that is not valid or the end. -/
inductive Delimited (ulsch : Bool) : List UInt8 → Prop
  | nil : Delimited ulsch []
  | stop {first : UInt8} {rest : List UInt8}
      (hstop : isValidLcid ulsch (first &&& 0x3F).toNat → (first &&& 0x3F).toNat = padding) :
      Delimited ulsch (first :: rest)
  | subpdu {first : UInt8} {field body rest : List UInt8}
      (hfield : field.length = lengthOctets ulsch first)
      (hbody : body.length = bodyLength ulsch first field) (hrest : Delimited ulsch rest) :
      Delimited ulsch (first :: (field ++ body ++ rest))

variable {ulsch : Bool} {payload : ℕ → UInt8} {len offset ptr i : ℕ} {s : SchSubpdu}

theorem exists_read (hvalid : isValidLcid ulsch (payload ptr &&& 0x3F).toNat) :
    ∃ s, readSubheader ulsch payload ptr = some s := by
  unfold readSubheader
  simp only [hvalid, if_true]
  split
  · split <;> exact ⟨_, rfl⟩
  · exact ⟨_, rfl⟩

theorem delimited_iff_of_read (hlt : offset < len)
    (hread : readSubheader ulsch payload offset = some s) (hpadding : s.lcid ≠ padding) :
    Delimited ulsch (slice payload offset (len - offset)) ↔ offset + s.totalLength ≤ len ∧
      Delimited ulsch
        (slice payload (offset + s.totalLength) (len - (offset + s.totalLength))) := by
  obtain ⟨hlcid, hvalid, htotal⟩ := lengths_of_read hread
  rw [hlcid] at hvalid hpadding
  constructor
  · intro h
    generalize hoctets : slice payload offset (len - offset) = octets at h
    have hlen := congrArg length hoctets
    rw [length_slice] at hlen
    have hholds : Holds payload offset octets := by rw [Holds, ← hlen, hoctets]
    cases h with
    | nil => exact absurd hlen (by simp; omega)
    | stop hstop =>
      obtain ⟨rfl, -⟩ := holds_cons.mp hholds
      exact absurd (hstop hvalid) hpadding
    | @subpdu first field body rest hfield hbody hrest =>
      rw [holds_cons, holds_append, holds_append, Holds, Holds, Holds, length_append] at hholds
      obtain ⟨rfl, ⟨hfieldEq, -⟩, hrestEq⟩ := hholds
      rw [← hfield, hfieldEq, ← hbody] at htotal
      rw [length_cons, length_append, length_append] at hlen
      have hnext : offset + s.totalLength = offset + 1 + (field.length + body.length) := by omega
      have hleft : len - (offset + s.totalLength) = rest.length := by omega
      rw [hleft, hnext, hrestEq]
      exact ⟨by omega, hrest⟩
  · rintro ⟨hle, hrest⟩
    obtain ⟨m, rfl⟩ := Nat.exists_eq_add_of_le hle
    rw [Nat.add_sub_cancel_left, htotal, ← Nat.add_assoc, Nat.add_right_comm] at hrest
    rw [Nat.add_assoc, Nat.add_sub_cancel_left, htotal, Nat.add_right_comm, slice_succ, slice_add,
      slice_add]
    exact .subpdu (by simp) (by simp) hrest

theorem unpackLoop_fst (acc : List SchSubpdu) :
    (unpackLoop ulsch payload len offset acc).1 =
      acc ++ (unpackSpans ulsch payload len offset).map Prod.snd := by
  fun_induction unpackSpans ulsch payload len offset generalizing acc with
  | case1 offset hlt hread =>
    rw [unpackLoop, if_pos hlt]
    split
    · simp
    · next h => exact absurd (hread.symm.trans h) (by simp)
  | case2 offset hlt s hread hpos hpadding =>
    rw [unpackLoop_of_read hlt hread, if_pos hpadding, unpackLoop, if_neg (lt_irrefl len)]
    rfl
  | case3 offset hlt s hread hpos hpadding ih =>
    rw [unpackLoop_of_read hlt hread, if_neg hpadding, ih, map_cons, append_assoc]
    rfl
  | case4 offset hge =>
    rw [unpackLoop, if_neg hge]
    simp

/-- Behind the first octet only a length field is read, which padding does not have. -/
theorem mem_subheaderOctets (hi : i ∈ subheaderOctets ulsch payload ptr) :
    i = ptr ∨ ∃ s, readSubheader ulsch payload ptr = some s ∧ s.lcid ≠ padding ∧
      i < ptr + s.totalLength := by
  have hnone : ∀ ulsch, hasLengthField ulsch padding = false := by decide
  unfold subheaderOctets at hi
  split at hi
  · next hvalid =>
    obtain ⟨s, hread⟩ := exists_read hvalid
    obtain ⟨hlcid, -, htotal⟩ := lengths_of_read hread
    rw [mem_range'_1] at hi
    refine or_iff_not_imp_left.mpr fun hbehind => ⟨s, hread, fun hpadding => ?_, by omega⟩
    rw [lengthOctets, ← hlcid, hpadding, hnone, if_neg Bool.false_ne_true] at hi
    omega
  · exact .inl (mem_singleton.mp hi)

theorem le_of_mem_unpackSpans {x : ℕ × SchSubpdu} (hx : x ∈ unpackSpans ulsch payload len offset) :
    offset ≤ x.1 := by
  fun_induction unpackSpans ulsch payload len offset with
  | case1 | case4 => cases hx
  | case2 offset hlt s hread hpos hpadding =>
    rw [mem_singleton.mp hx]
  | case3 offset hlt s hread hpos hpadding ih =>
    rcases mem_cons.mp hx with rfl | hrest
    · rfl
    · exact le_trans (Nat.le_add_right _ _) (ih hrest)

theorem ordered_unpackSpans : (unpackSpans ulsch payload len offset).Pairwise fun x y =>
    x.1 + x.2.totalLength ≤ y.1 := by
  fun_induction unpackSpans ulsch payload len offset with
  | case1 | case2 | case4 => simp
  | case3 offset hlt s hread hpos hpadding ih =>
    exact pairwise_cons.mpr ⟨fun y hy => le_of_mem_unpackSpans hy, ih⟩

theorem delimited_of_stop (hlt : offset < len)
    (hstop : isValidLcid ulsch (payload offset &&& 0x3F).toNat →
      (payload offset &&& 0x3F).toNat = padding) :
    Delimited ulsch (slice payload offset (len - offset)) := by
  obtain ⟨m, rfl⟩ := Nat.exists_eq_add_of_lt hlt
  rw [Nat.add_assoc, Nat.add_sub_cancel_left, slice_succ]
  exact .stop hstop

theorem inside_iff (hle : offset ≤ len) :
    (∀ x ∈ unpackSpans ulsch payload len offset, x.1 + x.2.totalLength ≤ len) ↔
      Delimited ulsch (slice payload offset (len - offset)) := by
  fun_induction unpackSpans ulsch payload len offset with
  | case1 offset hlt hread =>
    refine iff_of_true (by simp) (delimited_of_stop hlt fun hvalid => ?_)
    obtain ⟨s, hsome⟩ := exists_read hvalid
    exact absurd (hread.symm.trans hsome) (by simp)
  | case2 offset hlt s hread hpos hpadding =>
    refine iff_of_true (fun x hx => ?_) (delimited_of_stop hlt fun _ => ?_)
    · rw [mem_singleton.mp hx]
      simp only [setPadding, totalLength] at hpos ⊢
      omega
    · rw [← (lengths_of_read hread).1, hpadding]
  | case3 offset hlt s hread hpos hpadding ih =>
    rw [forall_mem_cons, delimited_iff_of_read hlt hread hpadding]
    exact and_congr_right fun hend => ih hend
  | case4 offset hge =>
    rw [Nat.sub_eq_zero_of_le (Nat.le_of_not_lt hge)]
    exact iff_of_true (by simp) .nil

/-- Delimited octets are delimited wherever the loop gets to. -/
theorem Visits.delimited (h : Visits ulsch payload len offset ptr)
    (hoctets : Delimited ulsch (slice payload offset (len - offset))) :
    Delimited ulsch (slice payload ptr (len - ptr)) := by
  induction h with
  | refl => exact hoctets
  | step hlt hread hpadding _ ih =>
    exact ih ((delimited_iff_of_read hlt hread hpadding).mp hoctets).2

/-- Reading stays inside exactly if the octets of the PDU are sub-PDUs, up to padding, an LCID that
is not valid or the end. -/
theorem parsedInside_iff (ulsch : Bool) (payload : ℕ → UInt8) (len : ℕ) :
    ParsedInside ulsch payload len ↔ Delimited ulsch (slice payload 0 len) := by
  refine ⟨fun h => (inside_iff (Nat.zero_le _)).mp h.inside, fun hoctets => ?_⟩
  refine ⟨fun o hvisits hlt i hi => ?_, unpackLoop_fst [],
    (inside_iff (Nat.zero_le _)).mpr hoctets, ordered_unpackSpans⟩
  rcases mem_subheaderOctets hi with rfl | ⟨s, hread, hpadding, hend⟩
  · exact hlt
  · have hrest := (delimited_iff_of_read hlt hread hpadding).mp (hvisits.delimited hoctets)
    exact lt_of_lt_of_le hend hrest.1

/-- An SDU of five octets in a PDU of two. -/
theorem not_parsedInside : ¬ ParsedInside true (fun i => if i = 0 then 1 else 5) 2 := by
  intro h
  have hread : readSubheader true (fun i => if i = 0 then 1 else 5) 0 = some
      ⟨1, 2, 5, false, some fun i => if 0 + 2 + i = 0 then 1 else 5⟩ := by
    rfl
  have hoctets := (inside_iff (Nat.zero_le _)).mp h.inside
  exact absurd ((delimited_iff_of_read (by decide) hread (by decide)).mp hoctets).1 (by decide)

end MbmsTx.Mac.Nr
