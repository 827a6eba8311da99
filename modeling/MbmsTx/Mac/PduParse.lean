import MbmsTx.Mac.Pdu

/-!
# Parsing MAC PDUs

`parse_packet` reads subheaders as long as their E bit announces another one, and then takes the
payloads in the same order. Every subheader of an SDU or of the scheduling information but the last
one has a length field; the last payload is what is left.

The parser reads one subheader less than it has room for, and takes a further one for payload.
-/

namespace MbmsTx.Mac

open MbmsTx.Memory List UInt8 SchSubh

namespace SchSubh

/-- The subheaders that have a length field, unless they are the last. -/
def hasLength (s : SchSubh) : Bool := s.isSdu || s.isVarLenCe

/-- The subheader of an LCID, before its length is known. -/
def ofLcid (type : SubhType) (lcid : ℕ) : SchSubh := { init type with lcid := lcid }

/-- `read_subheader` at `ptr`: the subheader, its E bit and the offset behind it. -/
def readSubheader (type : SubhType) (isUl : Bool) (mem : ℕ → UInt8) (ptr : ℕ) :
    SchSubh × Bool × ℕ :=
  let eBit : Bool := (mem ptr &&& 0x20) ≠ 0
  let s := ofLcid type (mem ptr &&& 0x1F).toNat
  if s.isSdu || s.isVarLenCe then
    if eBit then
      let nofBytes := (mem (ptr + 1) &&& 0x7F).toNat
      if (mem (ptr + 1) &&& 0x80) ≠ 0 then
        ({ s with nofBytes := nofBytes <<< 8 ||| (mem (ptr + 2)).toNat }, eBit, ptr + 3)
      else ({ s with nofBytes := nofBytes }, eBit, ptr + 2)
    else ({ s with nofBytes := 0 }, eBit, ptr + 1)
  else ({ s with nofBytes := s.sizeofCe isUl }, eBit, ptr + 1)

def sizePlusHeader (s : SchSubh) : ℕ :=
  if s.isSdu || s.isVarLenCe then sizeHeaderSdu s.nofBytes + s.nofBytes else 1 + s.nofBytes

end SchSubh

section

variable (type : SubhType) (isUl : Bool) (maxSubheaders pduLen : ℕ) (mem : ℕ → UInt8)

/-- The loop over the subheaders, when `nof` were read before: those read, and the offset behind
them. `none` if the last one announces another beyond the end. -/
def readSubheaders : (fuel nof ptr : ℕ) → Option (List SchSubh × ℕ)
  | 0, _, ptr => some ([], ptr)
  | fuel + 1, nof, ptr =>
    if nof < maxSubheaders then
      let (s, eBit, ptr) := readSubheader type isUl mem ptr
      if eBit && pduLen ≤ ptr then none
      else if eBit && nof + 2 < maxSubheaders && ptr < pduLen then
        (readSubheaders fuel (nof + 1) ptr).map fun (subheaders, ptr) => (s :: subheaders, ptr)
      else some ([s], ptr)
    else some ([], ptr)

/-- The loop over the payloads: each subheader and the offset of its payload. -/
def readPayloads : List SchSubh → (ptr : ℕ) → Option (List (SchSubh × ℕ))
  | [], _ => some []
  | s :: subheaders, ptr =>
    if pduLen < ptr + s.nofBytes then none
    else (readPayloads subheaders (ptr + s.nofBytes)).map ((s, ptr) :: ·)

/-- The last payload is what is left of the PDU. -/
def correctLast (parsed : List (SchSubh × ℕ)) : List (SchSubh × ℕ) :=
  match parsed.getLast? with
  | none => []
  | some (last, ptr) =>
    let readLen := (parsed.dropLast.map fun x => x.1.sizePlusHeader).sum
    if readLen + 1 ≤ pduLen then
      parsed.dropLast ++ [({ last with nofBytes := pduLen - readLen - 1 }, ptr)]
    else []

/-- `sch_pdu::parse_packet`: the subheaders and the offsets of their payloads, none if the PDU is
corrupted. -/
def parsePacket : List (SchSubh × ℕ) :=
  match readSubheaders type isUl maxSubheaders pduLen mem maxSubheaders 0 0 with
  | none => []
  | some (subheaders, ptr) =>
    match readPayloads pduLen subheaders ptr with
    | none => []
    | some parsed => correctLast pduLen parsed

end

/-- The LCID and the payload of a parsed subheader. -/
def entryAt (mem : ℕ → UInt8) (x : SchSubh × ℕ) : ℕ × List UInt8 :=
  (x.1.lcid, slice mem x.2 x.1.nofBytes)

/-! ## Reading back a subheader -/

/-- A subheader and its payload. -/
structure Piece where
  subh : SchSubh
  payload : List UInt8
  deriving DecidableEq

/-- The LCID and the payload. -/
def Piece.entry (x : Piece) : ℕ × List UInt8 := (x.subh.lcid, x.payload)

/-- A subheader that is read back: the parser sees its kind in its LCID, and the size in the length
field or, for a control element of fixed size, in the LCID. -/
structure Piece.Readable (type : SubhType) (isUl : Bool) (x : Piece) : Prop where
  lcid_lt : x.subh.lcid < 32
  kind : (ofLcid type x.subh.lcid).hasLength = x.subh.hasLength
  size : x.payload.length = x.subh.nofBytes
  length : x.subh.hasLength = true → 0 < x.subh.nofBytes ∧ x.subh.nofBytes < 2 ^ 15
  ce : x.subh.hasLength = false → x.subh.nofBytes = (ofLcid type x.subh.lcid).sizeofCe isUl

/-- What the parser makes of a subheader. -/
def Piece.read (type : SubhType) (x : Piece) : SchSubh :=
  { ofLcid type x.subh.lcid with nofBytes := x.subh.nofBytes }

theorem first_byte_fields : ∀ isLast : Bool, ∀ lcid < 32,
    ((((if isLast then (0 : UInt8) else 0x20) ||| (ofNat lcid &&& 0x1F)) &&& 0x20 ≠ 0) ↔
      isLast = false) ∧
    (((if isLast then (0 : UInt8) else 0x20) ||| (ofNat lcid &&& 0x1F)) &&& 0x1F).toNat =
      lcid := by
  decide +kernel

theorem short_length_fields : ∀ n < 128,
    ((ofNat n &&& 0x7F) &&& 0x80 = 0) ∧ ((ofNat n &&& 0x7F) &&& 0x7F).toNat = n := by
  decide +kernel

theorem long_length_fields : ∀ high < 128, (((0x80 : UInt8) ||| ofNat high) &&& 0x80 ≠ 0) ∧
      (((0x80 : UInt8) ||| ofNat high) &&& 0x7F).toNat = high := by
  decide +kernel

theorem long_length_eq {n : ℕ} (h : n < 2 ^ 15) : (n &&& 0x7F00) >>> 8 = n / 256 ∧ n / 256 < 128 ∧
      (n / 256) <<< 8 ||| (ofNat n).toNat = n := by
  refine ⟨?_, by omega, ?_⟩
  · rw [Nat.shiftRight_and_distrib, Nat.shiftRight_eq_div_pow]
    have hmask : (0x7F00 : ℕ) >>> 8 = 2 ^ 7 - 1 := rfl
    rw [hmask, Nat.and_two_pow_sub_one_eq_mod]
    omega
  · have hmod : (ofNat n).toNat = n % 2 ^ 8 := toNat_ofNat'
    rw [hmod, ← Nat.shiftLeft_add_eq_or_of_lt (Nat.mod_lt n (by decide)), Nat.shiftLeft_eq]
    omega

section

variable {type : SubhType} {isUl : Bool} {mem : ℕ → UInt8} {ptr : ℕ} {x : Piece}

/-- The length field of a subheader. -/
def SchSubh.lengthField (s : SchSubh) : List UInt8 :=
  if 128 ≤ s.nofBytes then
    [(0x80 : UInt8) ||| UInt8.ofNat ((s.nofBytes &&& 0x7F00) >>> 8), UInt8.ofNat s.nofBytes]
  else [UInt8.ofNat s.nofBytes &&& 0x7F]

theorem SchSubh.writeSubheader_eq (s : SchSubh) (isLast : Bool) : s.writeSubheader isLast =
      ((if isLast then (0 : UInt8) else 0x20) ||| (ofNat s.lcid &&& 0x1F)) ::
        if s.hasLength && !isLast then s.lengthField else [] := by
  unfold writeSubheader lengthField hasLength
  simp

theorem SchSubh.length_lengthField {s : SchSubh} (h : 0 < s.nofBytes) :
    s.lengthField.length + 1 = sizeHeaderSdu s.nofBytes := by
  unfold lengthField sizeHeaderSdu
  by_cases hlong : 128 ≤ s.nofBytes
  · rw [if_pos hlong, if_neg (by omega), if_neg (by omega)]
    rfl
  · rw [if_neg hlong, if_neg (by omega), if_pos (by omega)]
    rfl

theorem SchSubh.getHeaderSize_eq (s : SchSubh) (isLast : Bool) : s.getHeaderSize isLast =
      if s.hasLength && !isLast then sizeHeaderSdu s.nofBytes else 1 := by
  unfold getHeaderSize hasLength isVarLenCe
  cases isLast with
  | false => simp
  | true => simp

theorem SchSubh.length_writeSubheader (s : SchSubh) (isLast : Bool)
    (h : s.hasLength → 0 < s.nofBytes) :
    (s.writeSubheader isLast).length = s.getHeaderSize isLast := by
  rw [writeSubheader_eq, getHeaderSize_eq, length_cons]
  cases hlen : s.hasLength && !isLast with
  | false => rfl
  | true =>
    rw [Bool.and_eq_true] at hlen
    exact length_lengthField (h hlen.1)

theorem first_byte_eq {s : SchSubh} {isLast : Bool} (hlcid : s.lcid < 32)
    (hmem : Holds mem ptr (s.writeSubheader isLast)) :
    (decide ((mem ptr &&& 0x20) ≠ 0) = !isLast) ∧ (mem ptr &&& 0x1F).toNat = s.lcid := by
  rw [writeSubheader_eq, holds_cons] at hmem
  obtain ⟨hbit, hvalue⟩ := first_byte_fields isLast s.lcid hlcid
  rw [← hmem.1] at hbit hvalue
  refine ⟨?_, hvalue⟩
  cases isLast with
  | false => exact decide_eq_true (hbit.mpr rfl)
  | true => exact decide_eq_false (mt hbit.mp (by simp))

theorem readSubheader_more (hx : x.Readable type isUl)
    (hmem : Holds mem ptr (x.subh.writeSubheader false)) :
    readSubheader type isUl mem ptr =
      (x.read type, true, ptr + (x.subh.writeSubheader false).length) := by
  obtain ⟨hbit, hlcid⟩ := first_byte_eq hx.lcid_lt hmem
  rw [writeSubheader_eq, holds_cons] at hmem
  have hkind := hx.kind
  cases hlen : x.subh.hasLength with
  | false =>
    rw [hlen] at hkind
    have hce := hx.ce hlen
    rw [writeSubheader_eq, hlen]
    unfold hasLength at hkind
    simp only [readSubheader, hbit, hlcid, hkind, Bool.false_eq_true, if_false, ← hce,
      Bool.not_false, Bool.false_and, length_singleton]
    rfl
  | true =>
    obtain ⟨hpos, hlt⟩ := hx.length hlen
    have hfield := hmem.2
    rw [hlen, Bool.not_false, Bool.and_self, if_pos rfl, lengthField] at hfield
    rw [hlen] at hkind
    rw [writeSubheader_eq, hlen, Bool.not_false, Bool.and_self, if_pos rfl, lengthField]
    unfold hasLength at hkind
    by_cases hlong : 128 ≤ x.subh.nofBytes
    · obtain ⟨hhigh, hhighlt, hvalue⟩ := long_length_eq hlt
      obtain ⟨hfbit, hbyte⟩ := long_length_fields _ hhighlt
      rw [if_pos hlong, hhigh, holds_cons, holds_cons] at hfield
      rw [← hfield.1] at hfbit hbyte
      have hthird : (mem (ptr + 2)).toNat = (ofNat x.subh.nofBytes).toNat := by
        rw [← hfield.2.1]
      rw [if_pos hlong]
      simp only [readSubheader, hbit, hlcid, hkind, Bool.not_false, if_true, hfbit, hbyte,
        hthird, hvalue, ne_eq, not_false_eq_true]
      rfl
    · obtain ⟨hfbit, hbyte⟩ := short_length_fields _ (Nat.lt_of_not_le hlong)
      rw [if_neg hlong, holds_cons] at hfield
      rw [← hfield.1] at hfbit hbyte
      rw [if_neg hlong]
      simp only [readSubheader, hbit, hlcid, hkind, Bool.not_false, if_true, hfbit, hbyte,
        ne_eq, not_true_eq_false, if_false]
      rfl

/-- The last subheader: a length field is left out. -/
theorem readSubheader_last {s : SchSubh} (hlcid : s.lcid < 32)
    (hmem : Holds mem ptr (s.writeSubheader true)) :
    readSubheader type isUl mem ptr =
      ({ ofLcid type s.lcid with
          nofBytes :=
            if (ofLcid type s.lcid).hasLength then 0
            else (ofLcid type s.lcid).sizeofCe isUl }, false, ptr + 1) := by
  obtain ⟨hbit, hvalue⟩ := first_byte_eq hlcid hmem
  cases hkind : (ofLcid type s.lcid).hasLength with
  | false | true =>
    unfold hasLength at hkind
    simp [readSubheader, hvalue, hbit, hkind]

end

/-! ## Parsing a sequence of subheaders -/

/-- The subheaders of pieces with another subheader behind them. -/
def headersOf (xs : List Piece) : List UInt8 :=
  (xs.map fun x => x.subh.writeSubheader false).flatten

/-- The payloads of pieces. -/
def payloadsOf (xs : List Piece) : List UInt8 := (xs.map (·.payload)).flatten

@[simp] theorem headersOf_cons (x : Piece) (xs : List Piece) :
    headersOf (x :: xs) = x.subh.writeSubheader false ++ headersOf xs := rfl

@[simp] theorem payloadsOf_cons (x : Piece) (xs : List Piece) :
    payloadsOf (x :: xs) = x.payload ++ payloadsOf xs := rfl

theorem headersOf_append (xs ys : List Piece) :
    headersOf (xs ++ ys) = headersOf xs ++ headersOf ys := by
  simp [headersOf]

theorem payloadsOf_append (xs ys : List Piece) :
    payloadsOf (xs ++ ys) = payloadsOf xs ++ payloadsOf ys := by
  simp [payloadsOf]

/-- The subheaders with the offsets of their payloads. -/
def payloadsAt : (ptr : ℕ) → List SchSubh → List (SchSubh × ℕ)
  | _, [] => []
  | ptr, s :: subheaders => (s, ptr) :: payloadsAt (ptr + s.nofBytes) subheaders

section

variable {type : SubhType} {isUl : Bool} {maxSubheaders pduLen : ℕ} {mem : ℕ → UInt8} {ptr : ℕ}
  {xs : List Piece}

theorem readSubheaders_more (hxs : ∀ x ∈ xs, x.Readable type isUl) (fuel nof : ℕ)
    (hroom : nof + xs.length + 1 < maxSubheaders)
    (hmem : Holds mem ptr (headersOf xs)) (hend : ptr + (headersOf xs).length < pduLen) :
    readSubheaders type isUl maxSubheaders pduLen mem (xs.length + fuel) nof ptr =
      (readSubheaders type isUl maxSubheaders pduLen mem fuel (nof + xs.length)
        (ptr + (headersOf xs).length)).map fun r => (xs.map (·.read type) ++ r.1, r.2) := by
  induction xs generalizing nof ptr with
  | nil => simp [headersOf]
  | cons x xs ih =>
    simp only [headersOf_cons, length_append, length_cons] at hmem hend hroom ⊢
    obtain ⟨hfirst, hrest⟩ := holds_append.mp hmem
    have hread := readSubheader_more (hxs x (mem_cons_self ..)) hfirst
    have hnext := ih (fun y hy => hxs y (mem_cons_of_mem _ hy)) (nof + 1) (by omega)
      hrest (by omega)
    have hfuel : xs.length + 1 + fuel = xs.length + fuel + 1 := by omega
    rw [hfuel, readSubheaders, if_pos (by omega), hread]
    dsimp only
    rw [if_neg (by simp; omega), if_pos (by simp; omega), hnext, Option.map_map]
    have hnof : nof + 1 + xs.length = nof + (xs.length + 1) := by omega
    rw [hnof, add_assoc ptr]
    rfl

theorem readSubheaders_stop {s : SchSubh} {eBit : Bool} {next nof : ℕ} (hnof : nof < maxSubheaders)
    (hread : readSubheader type isUl mem ptr = (s, eBit, next))
    (hstop : eBit → maxSubheaders ≤ nof + 2 ∧ next < pduLen) (fuel : ℕ) :
    readSubheaders type isUl maxSubheaders pduLen mem (fuel + 1) nof ptr = some ([s], next) := by
  rw [readSubheaders, if_pos hnof, hread]
  dsimp only
  cases eBit with
  | false => rfl
  | true =>
    obtain ⟨hroom, hnext⟩ := hstop rfl
    rw [if_neg (by simp; omega), if_neg (by simp; omega)]

theorem readPayloads_eq {subheaders : List SchSubh}
    (h : ptr + (subheaders.map (·.nofBytes)).sum ≤ pduLen) :
    readPayloads pduLen subheaders ptr = some (payloadsAt ptr subheaders) := by
  induction subheaders generalizing ptr with
  | nil => rfl
  | cons s subheaders ih =>
    rw [map_cons, sum_cons] at h
    rw [readPayloads, if_neg (by omega), ih (by omega)]
    rfl

theorem payloadsAt_append (ptr : ℕ) (l l' : List SchSubh) :
    payloadsAt ptr (l ++ l') =
      payloadsAt ptr l ++ payloadsAt (ptr + (l.map (·.nofBytes)).sum) l' := by
  induction l generalizing ptr with
  | nil => rfl
  | cons s l ih => simp [payloadsAt, ih, add_assoc]

theorem map_fst_payloadsAt (ptr : ℕ) (l : List SchSubh) : (payloadsAt ptr l).map Prod.fst = l := by
  induction l generalizing ptr with
  | nil => rfl
  | cons s l ih => rw [payloadsAt, map_cons, ih]

section

variable (hxs : ∀ x ∈ xs, x.Readable type isUl)
include hxs

theorem entryAt_payloadsAt (hmem : Holds mem ptr (payloadsOf xs)) :
    (payloadsAt ptr (xs.map (·.read type))).map (entryAt mem) = xs.map (·.entry) := by
  induction xs generalizing ptr with
  | nil => rfl
  | cons x xs ih =>
    rw [payloadsOf_cons] at hmem
    obtain ⟨hfirst, hrest⟩ := holds_append.mp hmem
    have hsize := (hxs x (mem_cons_self ..)).size
    rw [hsize] at hrest
    have hnext := ih (fun y hy => hxs y (mem_cons_of_mem _ hy)) hrest
    have hentry : entryAt mem (x.read type, ptr) = x.entry := by
      have hslice : slice mem ptr x.subh.nofBytes = x.payload := hsize ▸ hfirst
      rw [entryAt, Piece.entry, Piece.read, hslice]
      rfl
    rw [map_cons, payloadsAt, map_cons, map_cons, hentry]
    exact congrArg (x.entry :: ·) hnext

theorem length_payloadsOf :
    (payloadsOf xs).length = ((xs.map (·.read type)).map (·.nofBytes)).sum := by
  induction xs with
  | nil => rfl
  | cons x xs ih =>
    have hsize := (hxs x (mem_cons_self ..)).size
    have hrest := ih fun y hy => hxs y (mem_cons_of_mem _ hy)
    simp only [payloadsOf_cons, length_append, map_cons, sum_cons, hrest, hsize]
    rfl

theorem sum_sizePlusHeader : ((xs.map (·.read type)).map (·.sizePlusHeader)).sum =
      (headersOf xs).length + (payloadsOf xs).length := by
  induction xs with
  | nil => rfl
  | cons x xs ih =>
    have hx := hxs x (mem_cons_self ..)
    have hrest := ih fun y hy => hxs y (mem_cons_of_mem _ hy)
    have hpos : x.subh.hasLength → 0 < x.subh.nofBytes := fun h => (hx.length h).1
    have hsize : (x.read type).sizePlusHeader = x.subh.getHeaderSize false + x.payload.length := by
      have hkind : (x.read type).hasLength = x.subh.hasLength := hx.kind
      rw [sizePlusHeader, getHeaderSize_eq, hx.size]
      unfold hasLength at hkind
      rw [hkind, Bool.not_false, Bool.and_true, hasLength]
      split
      · rfl
      · rfl
    rw [map_cons, map_cons, sum_cons, hrest, hsize, headersOf_cons, payloadsOf_cons,
      length_append, length_append, length_writeSubheader _ _ hpos]
    omega

/-- What the parser makes of the subheaders of `xs` and one with which it stops, whose payload
reaches to the end of the PDU. -/
theorem parsePacket_eq {s : SchSubh} {eBit : Bool} {next : ℕ}
    (hroom : xs = [] ∧ 0 < maxSubheaders ∨ xs.length + 1 < maxSubheaders)
    (hmem : Holds mem 0 (headersOf xs))
    (hread : readSubheader type isUl mem (headersOf xs).length = (s, eBit, next))
    (hstop : eBit → maxSubheaders ≤ xs.length + 2) (hnext : (headersOf xs).length < next)
    (hend : next + (payloadsOf xs).length + s.nofBytes ≤ pduLen) (hmore : eBit → next < pduLen) :
    parsePacket type isUl maxSubheaders pduLen mem =
      payloadsAt next (xs.map (·.read type)) ++
        [({ s with nofBytes := pduLen - ((headersOf xs).length + (payloadsOf xs).length) - 1 },
          next + (payloadsOf xs).length)] := by
  have hloop : readSubheaders type isUl maxSubheaders pduLen mem maxSubheaders 0 0 =
      some (xs.map (·.read type) ++ [s], next) := by
    have hlt : xs.length < maxSubheaders := by
      rcases hroom with ⟨rfl, hpos⟩ | hroom
      · exact hpos
      · omega
    obtain ⟨fuel, hfuel⟩ : ∃ fuel, maxSubheaders = xs.length + (fuel + 1) :=
      ⟨maxSubheaders - xs.length - 1, by omega⟩
    have hlast := @readSubheaders_stop type isUl maxSubheaders pduLen mem (headersOf xs).length s
      eBit next xs.length hlt hread (fun h => ⟨hstop h, hmore h⟩) fuel
    have hrun : readSubheaders type isUl maxSubheaders pduLen mem (xs.length + (fuel + 1)) 0 0 =
        some (xs.map (·.read type) ++ [s], next) := by
      rcases hroom with ⟨rfl, -⟩ | hroom
      · rw [length_nil, zero_add]
        exact hlast
      · rw [readSubheaders_more hxs (fuel + 1) 0 (by omega) hmem (by omega), zero_add,
          zero_add, hlast]
        rfl
    rwa [← hfuel] at hrun
  have hpayloads : readPayloads pduLen (xs.map (·.read type) ++ [s]) next =
      some (payloadsAt next (xs.map (·.read type)) ++ [(s, next + (payloadsOf xs).length)]) := by
    rw [readPayloads_eq, payloadsAt_append, ← length_payloadsOf hxs]
    · rfl
    · rw [map_append, sum_append, ← length_payloadsOf hxs]
      simpa [add_assoc] using hend
  have hfst : (payloadsAt next (xs.map (·.read type))).map (fun x => x.1.sizePlusHeader) =
      (xs.map (·.read type)).map (·.sizePlusHeader) := by
    have hmap := congrArg (map sizePlusHeader) (map_fst_payloadsAt next (xs.map (·.read type)))
    rwa [map_map] at hmap
  rw [parsePacket, hloop]
  dsimp only
  rw [hpayloads]
  dsimp only
  rw [correctLast, getLast?_concat]
  dsimp only
  rw [dropLast_concat, hfst, sum_sizePlusHeader hxs, if_pos (by omega)]

/-- Subheaders followed by their payloads are read back in order. The last payload is all that is
left. -/
theorem entries_parsePacket {last : Piece} (hlcid : last.subh.lcid < 32)
    (hsize : (ofLcid type last.subh.lcid).hasLength ∨
      (ofLcid type last.subh.lcid).sizeofCe isUl ≤ last.payload.length)
    (hroom : xs = [] ∧ 0 < maxSubheaders ∨ xs.length + 1 < maxSubheaders)
    (hlen : pduLen = (headersOf xs).length + 1 + (payloadsOf xs).length + last.payload.length)
    (hmem : Holds mem 0 (headersOf xs ++ last.subh.writeSubheader true ++ payloadsOf xs ++
      last.payload)) :
    (parsePacket type isUl maxSubheaders pduLen mem).map (entryAt mem) =
      xs.map (·.entry) ++ [last.entry] := by
  rw [holds_append, holds_append, holds_append] at hmem
  obtain ⟨⟨⟨hheaders, hlast⟩, hpayloads⟩, hrest⟩ := hmem
  have hone : (last.subh.writeSubheader true).length = 1 := by
    rw [writeSubheader_eq, Bool.not_true, Bool.and_false]
    rfl
  simp only [zero_add, length_append, hone] at hlast hpayloads hrest
  have hread := @readSubheader_last type isUl mem _ last.subh hlcid hlast
  rw [parsePacket_eq hxs hroom hheaders hread (by simp) (by omega) ?_ (by simp), map_append,
    entryAt_payloadsAt hxs hpayloads]
  · have hleft : pduLen - ((headersOf xs).length + (payloadsOf xs).length) - 1 =
        last.payload.length := by omega
    rw [map_singleton, entryAt, hleft, hrest]
    rfl
  · dsimp only
    rcases hsize with hsize | hsize
    · rw [if_pos hsize]
      omega
    · split
      · omega
      · omega

/-- A parser without room for all subheaders stops with one that announces another, and takes all of
the rest for its payload. -/
theorem parsePacket_truncated {stop : Piece} (hreadable : stop.Readable type isUl)
    (hroom : maxSubheaders = xs.length + 2) (hmem : Holds mem 0 (headersOf (xs ++ [stop])))
    (hend : (headersOf (xs ++ [stop])).length + (payloadsOf (xs ++ [stop])).length < pduLen) :
    ∃ offset, parsePacket type isUl maxSubheaders pduLen mem =
      payloadsAt (headersOf (xs ++ [stop])).length (xs.map (·.read type)) ++
        [({ stop.read type with
            nofBytes := pduLen - ((headersOf xs).length + (payloadsOf xs).length) - 1 },
          offset)] := by
  simp only [headersOf_append, payloadsOf_append, length_append] at hend ⊢
  rw [headersOf_append, holds_append, zero_add] at hmem
  have hone : headersOf [stop] = stop.subh.writeSubheader false := by simp [headersOf]
  rw [hone] at hmem hend ⊢
  have hsize : (payloadsOf [stop]).length = stop.subh.nofBytes := by
    simp [payloadsOf, hreadable.size]
  have hpos : 0 < (stop.subh.writeSubheader false).length := by
    rw [writeSubheader_eq]
    simp
  have hread := readSubheader_more hreadable hmem.2
  have hnof : (stop.read type).nofBytes = stop.subh.nofBytes := rfl
  exact ⟨_, parsePacket_eq hxs (.inr (by omega)) hmem.1 hread (fun _ => by omega) (by omega)
    (by omega) (fun _ => by omega)⟩

end

end

end MbmsTx.Mac
