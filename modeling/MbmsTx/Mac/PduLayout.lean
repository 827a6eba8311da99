import MbmsTx.Mac.PduBuild

/-!
# What is written of a MAC PDU

`write_packet` puts one or two padding subheaders first, then the subheaders of the control elements
and those of the SDUs, each in the order of the calls, and the subheader of longer padding last. The
payloads follow in the same order (`Built.contents_eq`): the bytes are those of pieces,
`writtenPieces`, of which only the last has no length field.
-/

namespace MbmsTx.Mac

open MbmsTx.Memory List Bool MacPdu SchSubh ByteBuffer

/-! ## Lists of subheaders -/

theorem mapIdx_const {α β : Type*} (f : α → β) (l : List α) :
    l.mapIdx (fun _ x => f x) = l.map f := by
  induction l with
  | nil => rfl
  | cons x l ih => rw [mapIdx_cons, map_cons, ih]

theorem mapIdx_flag {α β : Type*} (f : α → Bool → β) (a b : List α) (x : α) :
    (a ++ x :: b).mapIdx (fun i y => f y (decide (a.length = i))) =
      a.map (f · false) ++ f x true :: b.map (f · false) := by
  induction a with
  | nil => simp [mapIdx_cons, mapIdx_const]
  | cons y a ih => simpa [mapIdx_cons] using ih

theorem flatten_map_ite {α β : Type*} (q : α → Bool) (f : α → List β) (l : List α) :
    (l.map fun x => if q x then f x else []).flatten = ((l.filter q).map f).flatten := by
  induction l with
  | nil => rfl
  | cons x l ih =>
    cases hq : q x <;> simp [hq, ih]

theorem sum_filter_add_sum_filter_not {α : Type*} (q : α → Bool) (f : α → ℕ) (l : List α) :
    ((l.filter fun x => !q x).map f).sum + ((l.filter q).map f).sum = (l.map f).sum := by
  induction l with
  | nil => rfl
  | cons x l ih =>
    cases hq : q x
    all_goals
      simp [hq]
      omega

/-! ## The PDU that the calls leave -/

/-- The index of the last SDU is marked. -/
def Marked : Option ℕ → List Piece → Prop
  | none, pieces => ∀ x ∈ pieces, x.subh.isSdu = false
  | some i, pieces => ∃ a x b, pieces = a ++ x :: b ∧ a.length = i ∧ x.subh.isSdu = true ∧
      ∀ y ∈ b, y.subh.isSdu = false

theorem forall_mem_concat {α : Type*} {P : α → Prop} {l : List α} {x : α} (h : ∀ y ∈ l, P y)
    (hx : P x) : ∀ y ∈ l ++ [x], P y := by
  intro y hy
  rcases mem_append.mp hy with hy | hy
  · exact h y hy
  · exact mem_singleton.mp hy ▸ hx

variable {x : Piece}

theorem Marked.concat_ce {idx : Option ℕ} {pieces : List Piece} (h : Marked idx pieces)
    (hx : x.subh.isSdu = false) : Marked idx (pieces ++ [x]) := by
  cases idx with
  | none => exact forall_mem_concat h hx
  | some i =>
    obtain ⟨a, last, b, rfl, hlen, hlast, hb⟩ := h
    exact ⟨a, last, b ++ [x], by simp, hlen, hlast, forall_mem_concat hb hx⟩

/-- The subheaders and payloads of a PDU in the order of the calls, and its length `len` after
`write_packet`. -/
structure Built (len : ℕ) (pieces : List Piece) (p : MacPdu) : Prop where
  balanced : ({ p with pduLen := len } : MacPdu).Balanced
  subheaders : p.subheaders = pieces.map (·.subh)
  contents : p.bufferTx.contents = payloadsOf (pieces.filter (·.subh.isSdu))
  msg : p.bufferTx.msg = bufferHeaderOffset
  room : p.bufferTx.nBytes ≤ ByteBuffer.emptyTailroom
  readable : ∀ x ∈ pieces, x.Readable p.type p.pduIsUl
  written : ∀ x ∈ pieces, x.subh.isSdu = false → x.subh.writePayload p.pduIsUl = x.payload
  lcid_ne : ∀ x ∈ pieces, x.subh.lcid ≠ paddingLcid

theorem built_initTx (type : SubhType) (maxSubheaders : ℕ) (buffer : ByteBuffer) (pduLen : ℕ)
    (isUl : Bool) :
    Built pduLen [] (.initTx type maxSubheaders buffer.clear pduLen isUl) :=
  { balanced := balanced_initTx _ _ _ _ rfl
    subheaders := rfl
    contents := rfl
    msg := rfl
    room := Nat.zero_le _
    readable := by simp
    written := by simp
    lcid_ne := by simp }

section

variable {len : ℕ} {pieces : List Piece} {p : MacPdu} {x : Piece}

/-- What a further piece has to be. -/
structure Fresh (type : SubhType) (isUl : Bool) (x : Piece) : Prop where
  readable : x.Readable type isUl
  written : x.subh.isSdu = false → x.subh.writePayload isUl = x.payload
  lcid_ne : x.subh.lcid ≠ paddingLcid

theorem Built.withCe (h : Built len pieces p) (hx : Fresh p.type p.pduIsUl x)
    (hsdu : x.subh.isSdu = false) {charge : ℕ}
    (hcharge : x.subh.getHeaderSize false + x.subh.nofBytes = charge) (hrem : charge ≤ p.remLen) :
    Built len (pieces ++ [x]) (p.withCe x.subh charge) :=
  { balanced := h.balanced.addCe hsdu hcharge hrem
    subheaders := by simp [MacPdu.withCe, h.subheaders]
    contents := by simpa [MacPdu.withCe, hsdu] using h.contents
    msg := h.msg
    room := h.room
    readable := forall_mem_concat h.readable hx.readable
    written := forall_mem_concat h.written hx.written
    lcid_ne := forall_mem_concat h.lcid_ne hx.lcid_ne }

theorem Built.tailroom_eq (h : Built len pieces p) :
    p.bufferTx.tailroom = emptyTailroom - p.bufferTx.nBytes :=
  ByteBuffer.tailroom_eq h.msg h.room

section

variable (h : Built len pieces p) (hx : Fresh p.type p.pduIsUl x) (hsdu : x.subh.isSdu)
  (htail : x.payload.length ≤ p.bufferTx.tailroom)
include h hx hsdu htail

/-- An SDU in the buffer, whatever was reserved for it. -/
theorem Built.concat_sdu {q : MacPdu} {len' : ℕ}
    (hbalanced : ({ q with pduLen := len' } : MacPdu).Balanced)
    (hsubheaders : q.subheaders = p.subheaders ++ [x.subh])
    (hbuffer : q.bufferTx = p.bufferTx.append x.payload) (htype : q.type = p.type)
    (hisUl : q.pduIsUl = p.pduIsUl) : Built len' (pieces ++ [x]) q := by
  have hroom := h.room
  rw [h.tailroom_eq] at htail
  exact
    { balanced := hbalanced
      subheaders := by simp [hsubheaders, h.subheaders]
      contents := by simp [hbuffer, contents_append, h.contents, hsdu, payloadsOf]
      msg := hbuffer ▸ h.msg
      room := by
        rw [hbuffer, append_nBytes]
        omega
      readable := htype ▸ hisUl ▸ forall_mem_concat h.readable hx.readable
      written := hisUl ▸ forall_mem_concat h.written hx.written
      lcid_ne := forall_mem_concat h.lcid_ne hx.lcid_ne }

theorem Built.withSdu (hrem : x.payload.length + p.newSduHeader ≤ p.remLen) :
    Built len (pieces ++ [x]) (p.withSdu x.subh x.payload) := by
  have hlen : x.subh.hasLength := by simp [hasLength, hsdu]
  have hsize := hx.readable.size
  exact h.concat_sdu hx hsdu htail
    (h.balanced.addSdu hsdu hsize.symm (hsize ▸ (hx.readable.length hlen).1) hrem) rfl rfl rfl rfl

theorem Built.withUnreserved :
    Built (len + (x.payload.length + sizeHeaderSdu x.payload.length)) (pieces ++ [x])
      (p.withUnreserved x.subh x.payload) :=
  h.concat_sdu hx hsdu htail (h.balanced.addUnreserved hsdu hx.readable.size.symm) rfl rfl rfl rfl

end

end

/-! ## The bytes written -/

/-- The control elements among the pieces. -/
def cesOf (pieces : List Piece) : List Piece := pieces.filter fun x => !x.subh.isSdu

/-- The SDUs among the pieces. -/
def sdusOf (pieces : List Piece) : List Piece := pieces.filter fun x => x.subh.isSdu

theorem mem_of_mem_cesOf_sdusOf {pieces : List Piece} (hx : x ∈ cesOf pieces ++ sdusOf pieces) :
    x ∈ pieces := by
  rcases mem_append.mp hx with hce | hsdu
  · exact (mem_filter.mp hce).1
  · exact (mem_filter.mp hsdu).1

section

variable {pieces : List Piece} (h : ∀ x ∈ pieces, x.subh.isSdu = false)
include h

theorem sdusOf_eq_nil : sdusOf pieces = [] := by
  rw [sdusOf, filter_eq_nil_iff]
  intro x hx
  simp [h x hx]

theorem cesOf_eq_self : cesOf pieces = pieces := by
  rw [cesOf, filter_eq_self]
  intro x hx
  simp [h x hx]

end

/-- The pieces in the order written, with the padding. -/
def MacPdu.writtenPieces (p : MacPdu) (pieces : List Piece) : List Piece :=
  List.replicate p.onetwoPadding ⟨.padding 0, []⟩ ++ cesOf pieces ++ sdusOf pieces ++
    if p.multibytePadding then [⟨.padding p.numPadding, List.replicate p.numPadding 0⟩] else []

/-- The subheaders chosen by `q`; the last one has no length field. -/
theorem flatten_mapIdx_flag {q : SchSubh → Bool} {a b : List Piece} {x : Piece}
    (hx : q x.subh) (hb : ∀ y ∈ b, q y.subh = false) :
    (((a ++ x :: b).map (·.subh)).mapIdx fun i s =>
      if q s then s.writeSubheader (decide (a.length = i)) else []).flatten =
      headersOf (a.filter fun y => q y.subh) ++ x.subh.writeSubheader true := by
  have hflag := mapIdx_flag (fun s isLast => if q s then s.writeSubheader isLast else [])
    (a.map (·.subh)) (b.map (·.subh)) x.subh
  have hnone : (b.map (·.subh)).filter q = [] := by
    rw [filter_eq_nil_iff]
    intro s hs
    obtain ⟨y, hy, rfl⟩ := mem_map.mp hs
    simp [hb y hy]
  rw [length_map] at hflag
  rw [map_append, map_cons, hflag, flatten_append, flatten_map_ite, flatten_cons,
    flatten_map_ite, hnone, filter_map, map_map, if_pos hx, headersOf]
  simp [Function.comp_def]

theorem filter_append_cons_of_last {q : Piece → Bool} {a b : List Piece} (hx : q x)
    (hb : ∀ y ∈ b, q y = false) : (a ++ x :: b).filter q = a.filter q ++ [x] := by
  have hnone : b.filter q = [] := by
    rw [filter_eq_nil_iff]
    intro y hy
    simp [hb y hy]
  rw [filter_append, filter_cons_of_pos hx, hnone]

section

variable {len : ℕ} {pieces : List Piece} {p : MacPdu}

theorem Built.cePayload_eq (h : Built len pieces p) :
    ((p.subheaders.filter fun s => !s.isSdu).map (·.writePayload p.pduIsUl)).flatten =
      payloadsOf (cesOf pieces) := by
  rw [h.subheaders, filter_map, map_map, payloadsOf]
  congr 1
  refine map_congr_left ?_
  intro x hx
  obtain ⟨hmem, hsdu⟩ := mem_filter.mp hx
  exact h.written x hmem (by simpa using hsdu)

theorem Built.ceHeaders_eq (h : Built len pieces p) :
    (p.subheaders.mapIdx fun _ s => if s.isSdu then [] else s.writeSubheader false).flatten =
      headersOf (cesOf pieces) := by
  rw [mapIdx_const, h.subheaders, map_map, headersOf, cesOf, ← flatten_map_ite]
  congr 2
  funext x
  cases hsdu : x.subh.isSdu with
  | false => simp [hsdu]
  | true => simp [hsdu]

variable {last : Piece}

theorem Built.ceHeaders_last (h : Built len pieces p) {ces : List Piece}
    (hpieces : pieces = ces ++ [last]) (hces : ∀ x ∈ pieces, x.subh.isSdu = false) :
    (p.subheaders.mapIdx fun i s =>
      if s.isSdu then [] else s.writeSubheader (decide (i = p.subheaders.length - 1))).flatten =
      headersOf ces ++ last.subh.writeSubheader true := by
  have hall : ces.filter (fun y => !y.subh.isSdu) = ces :=
    cesOf_eq_self fun y hy => hces y (by simp [hpieces, hy])
  have hflag := @flatten_mapIdx_flag (fun s => !s.isSdu) ces [] last
    (by simp [hces last (by simp [hpieces])]) (by simp)
  rw [hall, ← hpieces, ← h.subheaders] at hflag
  have hlen : p.subheaders.length - 1 = ces.length := by simp [h.subheaders, hpieces]
  rw [← hflag, hlen]
  congr 2
  funext i s
  cases hsdu : s.isSdu with
  | false => simp [eq_comm]
  | true => simp

theorem Built.sduHeaders_eq (h : Built len pieces p) :
    (p.subheaders.mapIdx fun _ s => if s.isSdu then s.writeSubheader false else []).flatten =
      headersOf (sdusOf pieces) := by
  rw [mapIdx_const, h.subheaders, map_map, headersOf, sdusOf, ← flatten_map_ite]
  rfl

/-! ### The length of the subheaders -/

theorem readable_padding (type : SubhType) (isUl : Bool) :
    (⟨.padding 0, []⟩ : Piece).Readable type isUl := by
  cases type with
  | sch | mch => cases isUl <;> exact ⟨by decide, rfl, rfl, by decide, fun _ => rfl⟩

theorem length_headersOf {type : SubhType} {isUl : Bool} {xs : List Piece}
    (hxs : ∀ x ∈ xs, x.Readable type isUl) :
    (headersOf xs).length = (xs.map fun x => x.subh.getHeaderSize false).sum := by
  induction xs with
  | nil => rfl
  | cons x xs ih =>
    have hx := hxs x (mem_cons_self ..)
    rw [headersOf_cons, length_append, ih fun y hy => hxs y (mem_cons_of_mem _ hy),
      length_writeSubheader _ _ fun hlen => (hx.length hlen).1, map_cons,
      sum_cons]

theorem Piece.Readable.length_headersOf {type : SubhType} {isUl : Bool} {x : Piece}
    (hx : x.Readable type isUl) : (headersOf [x]).length = x.subh.getHeaderSize false := by
  have hsum := @Mac.length_headersOf type isUl [x] (by simpa using hx)
  simpa using hsum

theorem length_headersOf_padding (n : ℕ) :
    (headersOf (replicate n ⟨.padding 0, []⟩)).length = n := by
  simp [headersOf, writeSubheader_eq, hasLength, padding, isSdu,
    isVarLenCe, init, paddingLcid]

theorem headerSz_none_eq_sum (pieces : List Piece) : headerSz (pieces.map (·.subh)) none =
      (pieces.map fun x => x.subh.getHeaderSize false).sum := by
  induction pieces with
  | nil => rfl
  | cons x xs ih => rw [map_cons, headerSz_cons_none, ih, map_cons, sum_cons]

theorem Built.headerSz_none (h : Built len pieces p) : headerSz p.subheaders none =
      (headersOf (cesOf pieces)).length + (headersOf (sdusOf pieces)).length := by
  have hread : ∀ q : Piece → Bool, ∀ x ∈ pieces.filter q, x.Readable p.type p.pduIsUl :=
    fun q x hx => h.readable x (mem_filter.mp hx).1
  rw [h.subheaders, headerSz_none_eq_sum, cesOf, sdusOf, length_headersOf (hread _),
    length_headersOf (hread _), sum_filter_add_sum_filter_not]

theorem Built.cePayloadSz_eq (h : Built len pieces p) :
    cePayloadSz p.subheaders = (payloadsOf (cesOf pieces)).length := by
  rw [cePayloadSz, h.subheaders, filter_map, map_map, payloadsOf, length_flatten, map_map]
  congr 1
  refine map_congr_left ?_
  intro x hx
  exact (h.readable x (mem_filter.mp hx).1).size.symm

/-! ### The three cases -/

/-- A last control element of variable length is too long by its length field, which is not written.
-/
def SchSubh.unwritten (s : SchSubh) : ℕ := if s.isSdu then 0 else s.getHeaderSize false - 1

/-- The header of a PDU, with the subheader of `last` at its end. -/
structure HeaderLayout (p : MacPdu) (pieces xs : List Piece) (last : Piece) : Prop where
  order : p.writtenPieces pieces = xs ++ [last]
  bytes : p.headerBytes = headersOf xs ++ last.subh.writeSubheader true ++ payloadsOf (cesOf pieces)
  size : p.totalHeaderSize = p.headerBytes.length + last.subh.unwritten
  rest : last.subh.unwritten = 0 ∨ sdusOf pieces = [] ∧ p.numPadding = 0

theorem length_writeSubheader_last (s : SchSubh) : (s.writeSubheader true).length = 1 := by
  rw [writeSubheader_eq, Bool.not_true, Bool.and_false]
  rfl

theorem Built.headerLayout_multi (h : Built len pieces p) (hmark : Marked p.lastSduIdx pieces)
    (hmulti : p.multibytePadding) :
    HeaderLayout p pieces (cesOf pieces ++ sdusOf pieces)
      ⟨.padding p.numPadding, replicate p.numPadding 0⟩ := by
  have honetwo : p.onetwoPadding = 0 := by simp [onetwoPadding, hmulti]
  have hbytes : p.headerBytes = headersOf (cesOf pieces ++ sdusOf pieces) ++
      (padding p.numPadding).writeSubheader true ++ payloadsOf (cesOf pieces) := by
    have hsdus : (if p.lastSduIdx = none then []
        else (p.subheaders.mapIdx fun _ s =>
          if s.isSdu then s.writeSubheader false else []).flatten) =
        headersOf (sdusOf pieces) := by
      rw [h.sduHeaders_eq]
      split
      · rename_i hlast
        rw [hlast] at hmark
        rw [sdusOf_eq_nil hmark]
        rfl
      · rfl
    unfold headerBytes
    simp [honetwo, hmulti, h.ceHeaders_eq, h.cePayload_eq, hsdus, headersOf_append]
  refine ⟨?_, hbytes, ?_, .inl rfl⟩
  · simp [writtenPieces, honetwo, hmulti]
  · have hpad : (padding p.numPadding).unwritten = 0 := rfl
    rw [hbytes, hpad, headersOf_append]
    simp [totalHeaderSize, hmulti, h.headerSz_none, h.cePayloadSz_eq, length_writeSubheader_last]
    omega

theorem SchSubh.one_le_getHeaderSize {s : SchSubh} (h : s.hasLength → 0 < s.nofBytes)
    (isLast : Bool) : 1 ≤ s.getHeaderSize isLast := by
  rw [← s.length_writeSubheader isLast h, writeSubheader_eq]
  simp

theorem Built.length_le_headerSz (h : Built len pieces p) (last : Option ℕ) :
    pieces.length ≤ headerSz p.subheaders last := by
  rw [h.subheaders, headerSz]
  have hsizes : ∀ n ∈ (pieces.map (·.subh)).mapIdx (fun i s => s.getHeaderSize (last = some i)),
      1 ≤ n := by
    intro n hn
    obtain ⟨i, hi, rfl⟩ := mem_mapIdx.mp hn
    simp only [getElem_map]
    rw [length_map] at hi
    exact one_le_getHeaderSize (fun hlen => ((h.readable _ (getElem_mem hi)).length hlen).1) _
  have hsum := length_le_sum_of_one_le _ hsizes
  simpa using hsum

section

variable (h : Built p.pduLen pieces p)
include h

theorem Built.account : p.bufferTx.nBytes + headerSz p.subheaders p.lastSduIdx +
    cePayloadSz p.subheaders + p.remLen = p.pduLen := h.balanced.account

theorem Built.remLen_lt (hpieces : pieces ≠ []) : p.remLen < p.pduLen := by
  have haccount := h.account
  have hheaders := h.length_le_headerSz p.lastSduIdx
  have hpos := length_pos_of_ne_nil hpieces
  omega

theorem Built.paddingHeaders_eq (hpieces : pieces ≠ []) : (replicate p.onetwoPadding
      ((padding 0).writeSubheader (¬ p.onetwoPadding < p.pduLen))).flatten =
      headersOf (replicate p.onetwoPadding ⟨.padding 0, []⟩) := by
  have hrem := h.remLen_lt hpieces
  have hlt : p.onetwoPadding < p.pduLen := by
    unfold onetwoPadding
    split
    · omega
    · exact hrem
  simp [headersOf, hlt]

theorem Built.headerLayout_sdu (hmulti : p.multibytePadding = false) {a b : List Piece}
    (hpieces : pieces = a ++ last :: b) (hidx : p.lastSduIdx = some a.length)
    (hlast : last.subh.isSdu) (hb : ∀ y ∈ b, y.subh.isSdu = false) :
    HeaderLayout p pieces
      (replicate p.onetwoPadding ⟨.padding 0, []⟩ ++ cesOf pieces ++ sdusOf a) last := by
  have hsdus : sdusOf pieces = sdusOf a ++ [last] := by
    rw [hpieces]
    exact filter_append_cons_of_last hlast hb
  have hbytes : p.headerBytes =
      headersOf (replicate p.onetwoPadding ⟨.padding 0, []⟩ ++ cesOf pieces ++ sdusOf a) ++
        last.subh.writeSubheader true ++ payloadsOf (cesOf pieces) := by
    have hsduHeaders := @flatten_mapIdx_flag isSdu a b last hlast hb
    rw [← hpieces, ← h.subheaders, ← sdusOf] at hsduHeaders
    unfold headerBytes
    simp only [h.paddingHeaders_eq (by simp [hpieces]), hidx, hmulti, reduceCtorEq, decide_false,
      Bool.false_and, Bool.not_false, Bool.true_and, Option.some.injEq, false_eq_true, if_false,
      h.ceHeaders_eq, h.cePayload_eq, hsduHeaders, append_nil, headersOf_append,
      append_assoc]
  have hunwritten : last.subh.unwritten = 0 := by simp [unwritten, hlast]
  refine ⟨?_, hbytes, ?_, .inl hunwritten⟩
  · simp [writtenPieces, hmulti, hsdus]
  · have hnone := h.headerSz_none
    have hget : p.subheaders[a.length]? = some last.subh := by simp [h.subheaders, hpieces]
    have hshort := headerSz_none_eq hget
    have hlastLen := (h.readable last (by simp [hpieces])).length_headersOf
    rw [hsdus, headersOf_append, length_append, hlastLen] at hnone
    rw [hbytes, hunwritten]
    simp [totalHeaderSize, hmulti, hidx, h.cePayloadSz_eq, headersOf_append,
      length_writeSubheader_last, length_headersOf_padding]
    omega

theorem Built.headerLayout_ce (hmulti : p.multibytePadding = false) {ces : List Piece}
    (hpieces : pieces = ces ++ [last]) (hidx : p.lastSduIdx = none)
    (hces : ∀ x ∈ pieces, x.subh.isSdu = false) :
    HeaderLayout p pieces (replicate p.onetwoPadding ⟨.padding 0, []⟩ ++ ces) last := by
  have hall := cesOf_eq_self hces
  have hnone := sdusOf_eq_nil hces
  have hbytes : p.headerBytes =
      headersOf (replicate p.onetwoPadding ⟨.padding 0, []⟩ ++ ces) ++
        last.subh.writeSubheader true ++ payloadsOf (cesOf pieces) := by
    have hceHeaders := h.ceHeaders_last hpieces hces
    unfold headerBytes
    simp only [h.paddingHeaders_eq (by simp [hpieces]), hidx, hmulti, decide_true, Bool.not_false,
      Bool.true_and, if_true, hceHeaders, h.cePayload_eq, append_nil, headersOf_append,
      append_assoc, false_eq_true, if_false]
  have hpadding : p.numPadding = 0 := by simp [numPadding, hmulti]
  refine ⟨?_, hbytes, ?_, .inr ⟨hnone, hpadding⟩⟩
  · rw [writtenPieces, hall, hnone, hmulti, hpieces]
    simp
  · have hlast := h.readable last (by simp [hpieces])
    have hunwritten : last.subh.unwritten + 1 = last.subh.getHeaderSize false := by
      have hpos := one_le_getHeaderSize (fun hlen => (hlast.length hlen).1) false
      simp [unwritten, hces last (by simp [hpieces])]
      omega
    have hsizes := h.headerSz_none
    have hlastLen := hlast.length_headersOf
    rw [hall, hnone, hpieces, headersOf_append, length_append, hlastLen] at hsizes
    have hempty : (headersOf []).length = 0 := rfl
    rw [hbytes]
    simp [totalHeaderSize, hmulti, hidx, h.cePayloadSz_eq, headersOf_append,
      length_writeSubheader_last, length_headersOf_padding]
    omega

theorem Built.headerLayout (hmark : Marked p.lastSduIdx pieces)
    (hsome : pieces ≠ [] ∨ p.multibytePadding) : ∃ xs last, HeaderLayout p pieces xs last := by
  cases hmulti : p.multibytePadding with
  | true => exact ⟨_, _, h.headerLayout_multi hmark hmulti⟩
  | false =>
    have hpieces : pieces ≠ [] := by simpa [hmulti] using hsome
    cases hidx : p.lastSduIdx with
    | none =>
      rw [hidx] at hmark
      obtain ⟨ces, last, hconcat⟩ := eq_nil_or_concat' pieces |>.resolve_left hpieces
      exact ⟨_, _, h.headerLayout_ce hmulti hconcat hidx hmark⟩
    | some i =>
      rw [hidx] at hmark
      obtain ⟨a, last, b, heq, rfl, hlast, hb⟩ := hmark
      exact ⟨_, _, h.headerLayout_sdu hmulti heq hidx hlast hb⟩

omit h in
theorem payloadsOf_writtenPieces (p : MacPdu) (pieces : List Piece) :
    payloadsOf (p.writtenPieces pieces) =
      payloadsOf (cesOf pieces) ++ payloadsOf (sdusOf pieces) ++ replicate p.numPadding 0 := by
  have hpads : payloadsOf (replicate p.onetwoPadding ⟨.padding 0, []⟩) = [] := by
    simp [payloadsOf]
  unfold writtenPieces
  rw [payloadsOf_append, payloadsOf_append, payloadsOf_append, hpads, nil_append]
  cases hmulti : p.multibytePadding with
  | false => simp [numPadding, hmulti, payloadsOf]
  | true => simp [payloadsOf]

variable {xs : List Piece}

/-- The bytes of the PDU: the subheaders of the written pieces, and their payloads. Behind the
payload of a last control element of variable length stand bytes that nobody wrote. -/
theorem Built.contents_written (hlayout : HeaderLayout p pieces xs last)
    (hhead : p.totalHeaderSize ≤ p.bufferTx.msg) :
    ∃ gap, gap.length = last.subh.unwritten ∧ p.written.contents =
      headersOf xs ++ last.subh.writeSubheader true ++ payloadsOf xs ++ (last.payload ++ gap) := by
  have hsize := hlayout.size
  have hpayloads : payloadsOf xs ++ last.payload =
      payloadsOf (cesOf pieces) ++ payloadsOf (sdusOf pieces) ++ replicate p.numPadding 0 := by
    rw [← payloadsOf_writtenPieces, hlayout.order, payloadsOf_append]
    simp [payloadsOf]
  have hfront := @ByteBuffer.contents_rewind_write p.bufferTx p.totalHeaderSize p.headerBytes hhead
    (by omega)
  have hcontents : p.bufferTx.contents = payloadsOf (sdusOf pieces) := h.contents
  refine ⟨slice p.bufferTx.buffer (p.bufferTx.msg - p.totalHeaderSize + p.headerBytes.length)
    (p.totalHeaderSize - p.headerBytes.length), ?_, ?_⟩
  · rw [length_slice]
    omega
  · rw [MacPdu.written, contents_append, hfront, hcontents]
    rcases hlayout.rest with hnone | ⟨hsdus, hpadding⟩
    · have hgap : p.totalHeaderSize - p.headerBytes.length = 0 := by omega
      rw [hgap, slice_zero, append_nil, append_nil, hlayout.bytes]
      simp only [append_assoc] at hpayloads ⊢
      rw [hpayloads]
    · rw [hsdus, hpadding] at hpayloads ⊢
      have hces : payloadsOf (cesOf pieces) = payloadsOf xs ++ last.payload := by
        simpa [payloadsOf] using hpayloads.symm
      rw [hlayout.bytes, hces]
      simp [payloadsOf]

end

/-! ## Reading the PDU -/

theorem holds_contents {buffer : ByteBuffer} {mem : ℕ → UInt8}
    (hmem : ∀ i < buffer.nBytes, mem i = buffer.byte i) : Holds mem 0 buffer.contents := by
  rw [Holds, length_contents, contents]
  refine map_congr_left ?_
  intro i hi
  rw [zero_add]
  exact hmem i (mem_range.mp hi)

/-- What is written is padding or one of the pieces. -/
theorem mem_writtenPieces (hx : x ∈ p.writtenPieces pieces) : x = ⟨.padding 0, []⟩ ∨ x ∈ pieces ∨
    p.multibytePadding ∧ x = ⟨.padding p.numPadding, replicate p.numPadding 0⟩ := by
  unfold writtenPieces at hx
  rw [append_assoc (replicate _ _), mem_append, mem_append] at hx
  rcases hx with (hpad | hpiece) | hmulti
  · exact .inl (eq_of_mem_replicate hpad)
  · exact .inr (.inl (mem_of_mem_cesOf_sdusOf hpiece))
  · split at hmulti
    · next hyes => exact .inr (.inr ⟨hyes, mem_singleton.mp hmulti⟩)
    · cases hmulti

theorem Built.readable_of_mem (h : Built len pieces p) (hx : x ∈ p.writtenPieces pieces) :
    x.Readable p.type p.pduIsUl ∨
      p.multibytePadding ∧ x = ⟨.padding p.numPadding, replicate p.numPadding 0⟩ := by
  rcases mem_writtenPieces hx with rfl | hpiece | hmulti
  · exact .inl (readable_padding _ _)
  · exact .inl (h.readable x hpiece)
  · exact .inr hmulti

theorem Built.readable_front (h : Built len pieces p) (hlayout : HeaderLayout p pieces xs last) :
    ∀ x ∈ xs, x.Readable p.type p.pduIsUl := by
  intro x hx
  have hxs : xs = (p.writtenPieces pieces).dropLast := by rw [hlayout.order, dropLast_concat]
  cases hmulti : p.multibytePadding with
  | false =>
    rcases h.readable_of_mem (hlayout.order ▸ mem_append_left _ hx) with hread | ⟨hyes, -⟩
    · exact hread
    · exact absurd (hmulti.symm.trans hyes) (by decide)
  | true =>
    have honetwo : p.onetwoPadding = 0 := by simp [onetwoPadding, hmulti]
    simp only [writtenPieces, hmulti, honetwo, replicate_zero, nil_append, if_true,
      dropLast_concat] at hxs
    exact h.readable x (mem_of_mem_cesOf_sdusOf (hxs ▸ hx))

theorem Built.last_recognised (h : Built len pieces p) (hx : x ∈ p.writtenPieces pieces) :
    x.subh.lcid < 32 ∧ ((ofLcid p.type x.subh.lcid).hasLength ∨
      (ofLcid p.type x.subh.lcid).sizeofCe p.pduIsUl ≤ x.payload.length) := by
  rcases h.readable_of_mem hx with hread | ⟨-, rfl⟩
  · refine ⟨hread.lcid_lt, ?_⟩
    cases hlen : x.subh.hasLength with
    | true => exact .inl (hread.kind.trans hlen)
    | false => exact .inr (by rw [← hread.ce hlen, hread.size])
  · have hread := readable_padding p.type p.pduIsUl
    have hce := hread.ce (by rfl)
    refine ⟨hread.lcid_lt, .inr ?_⟩
    exact le_trans (le_of_eq hce.symm) (Nat.zero_le _)

theorem length_writtenPieces (p : MacPdu) (pieces : List Piece) : (p.writtenPieces pieces).length =
      pieces.length + if p.multibytePadding then 1 else p.remLen := by
  have hsplit := @List.length_eq_length_filter_add _ pieces fun x => x.subh.isSdu
  unfold writtenPieces onetwoPadding cesOf sdusOf
  cases hmulti : p.multibytePadding with
  | false | true =>
    simp
    omega

theorem Built.entries_written (h : Built p.pduLen pieces p)
    (hlayout : HeaderLayout p pieces xs last) (hhead : p.totalHeaderSize ≤ p.bufferTx.msg)
    {maxSubheaders : ℕ} (hroom : xs = [] ∧ 0 < maxSubheaders ∨ xs.length + 1 < maxSubheaders) :
    ∃ gap, gap.length = last.subh.unwritten ∧ ∀ mem : ℕ → UInt8,
      (∀ i < p.pduLen, mem i = p.written.byte i) →
      (parsePacket p.type p.pduIsUl maxSubheaders p.pduLen mem).map (entryAt mem) =
        xs.map (·.entry) ++ [(last.subh.lcid, last.payload ++ gap)] := by
  obtain ⟨gap, hgap, hcontents⟩ := h.contents_written hlayout hhead
  refine ⟨gap, hgap, ?_⟩
  intro mem hmem
  have hlen : p.written.nBytes = p.pduLen := by
    rw [written_nBytes]
    exact h.balanced.total
  have hholds := holds_contents (by rw [hlen]; exact hmem)
  obtain ⟨hlcid, hsize⟩ := h.last_recognised (x := last) (by simp [hlayout.order])
  have hlength := congrArg List.length hcontents
  rw [length_contents, hlen] at hlength
  rw [hcontents] at hholds
  have hlast : (⟨last.subh, last.payload ++ gap⟩ : Piece).entry =
      (last.subh.lcid, last.payload ++ gap) := rfl
  rw [← hlast]
  refine entries_parsePacket (h.readable_front hlayout) hlcid ?_ hroom ?_ hholds
  · refine hsize.imp_right fun hle => le_trans hle ?_
    simp
  · simpa [length_writeSubheader_last, add_assoc] using hlength

end

end MbmsTx.Mac
