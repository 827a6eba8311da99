import MbmsTx.Mac.PduLayout

/-!
# Round trip of the MAC PDUs of the shared channels

`parse_packet` should find in a PDU that `write_packet` made of successful calls the control
elements in order, then the SDUs in order, and padding. `roundTrips_iff` says when that is so. Four
things can go wrong:

* `set_sdu` with the payload at hand adds the payload and then asks for as much room once more, so
  an SDU without that room is not accounted for, and no PDU is written;
* the subheaders and the control elements do not fit the headroom of the buffer;
* SDUs and padding do not fit the buffer;
* the padding subheaders come on top of those that `new_subh` lets through, and the parser stops
  before it has read them all.
-/

namespace MbmsTx.Mac

open MbmsTx.Memory List MacPdu SetOp SchSubh ByteBuffer

/-! ## What one call leaves -/

theorem Ce.hasLength_ofLcid (c : Ce) : (ofLcid .sch c.lcid).hasLength = false := by
  obtain ⟨hge, -⟩ := c.lcid_mem
  simp only [hasLength, isSdu, isVarLenCe, ofLcid, init,
    reduceCtorEq, decide_false, Bool.and_false, Bool.or_false]
  exact decide_eq_false (by omega)

variable {type : SubhType} {isUl : Bool} {op : SetOp} {ys : List Piece} {n : ℕ}

theorem lcid_of_isSdu {lcid : ℕ} (h : (ofLcid type lcid).isSdu) : lcid < mchSchedInfoLcid := by
  cases type with
  | sch =>
    have hle : lcid ≤ 0b10001 := of_decide_eq_true h
    exact lt_of_le_of_lt hle (by decide)
  | mch => exact of_decide_eq_true h

section

variable {len : ℕ} {pieces : List Piece} {p : MacPdu} (h : Built len pieces p)
include h

/-- A PDU is written only if its length is the requested one. -/
theorem Built.len_eq {buffer : ByteBuffer} (hwrite : p.writePacket = some buffer) :
    len = p.pduLen :=
  h.balanced.total.symm.trans (writePacket_eq_some_iff.mp hwrite).1.2.2

variable (hcount : pieces.length < p.maxSubheaders - 1)
include hcount

theorem Built.openSubh_eq (hrem : 2 ≤ p.remLen) : p.openSubh = some p.newSubh := by
  refine if_pos ⟨?_, hrem, ?_⟩
  · rwa [h.subheaders, length_map]
  · rw [headroom, h.msg]
    decide

/-- The first SDU needs one byte for its subheader. -/
theorem Built.apply_firstSdu (hlast : p.lastSduIdx = none) (lcid : ℕ) {payload : List UInt8}
    (hpos : 1 ≤ payload.length) (hrem : payload.length < p.remLen)
    (hroom : p.bufferTx.nBytes + payload.length ≤ emptyTailroom) :
    (sdu lcid payload).apply p = some (p.newSubh.setSdu lcid payload) := by
  have hopen := h.openSubh_eq hcount (by omega)
  have hspace : p.newSubh.hasSpaceSdu payload.length := by
    have htail := h.tailroom_eq
    rw [openSubh_eq_some hopen]
    refine decide_eq_true (le_min ?_ (by change _ ≤ p.bufferTx.tailroom; omega))
    have hheader : p.opened.newSduHeader = 1 := by simp [newSduHeader, opened, hlast]
    rw [hheader]
    exact Nat.le_sub_of_add_le hrem
  simp [apply, hopen, trySetSdu, hspace]

end

namespace SetOp

open MacPdu

theorem Valid.fresh (h : op.Valid type isUl) : Fresh type isUl (op.piece type) := by
  cases op with
  | ce c =>
    obtain ⟨rfl, rfl⟩ := h
    obtain ⟨-, hlt⟩ := c.lcid_mem
    have hlength := c.hasLength_ofLcid
    have hsize := c.sizeofCe_eq
    refine ⟨⟨?_, ?_, rfl, ?_, ?_⟩, ?_, ?_⟩
    · exact lt_of_lt_of_le hlt (by decide)
    · rfl
    · exact fun hlen => absurd (hlength.symm.trans hlen) (by decide)
    · exact fun _ => hsize.symm
    · intro _
      have hwritten : ((ce c).piece .sch).subh.sizeofCe c.isUl = c.bytes.length := hsize
      rw [writePayload, hwritten]
      exact take_left' rfl
    · exact ne_of_lt hlt
  | sdu lcid payload | readSdu lcid requestedBytes payload =>
    obtain ⟨hsdu, hpos, hlt⟩ := h
    have hlcid := lcid_of_isSdu hsdu
    have hlength : (ofLcid type lcid).hasLength := by
      simp [hasLength, hsdu]
    refine ⟨⟨?_, rfl, rfl, fun _ => ⟨hpos, hlt⟩, ?_⟩, ?_, ?_⟩
    · exact lt_trans hlcid (by decide)
    · intro hfalse
      exact absurd (hlength.symm.trans hfalse) (by decide)
    · intro hfalse
      exact absurd (hsdu.symm.trans hfalse) (by decide)
    · exact ne_of_lt (lt_trans hlcid (by decide))

/-- The bytes that a call adds to the buffer. -/
def sduBytes : SetOp → ℕ
  | .ce _ => 0
  | .sdu _ payload | .readSdu _ _ payload => payload.length

/-- An SDU that is copied leaves as much room behind it as it takes, after `used` bytes. -/
def Roomy (used : ℕ) : SetOp → Prop
  | .sdu _ payload => used + 2 * payload.length ≤ emptyTailroom
  | .ce _ | .readSdu _ _ _ => True

/-- What every call leaves as it is. -/
structure SameFrame (p q : MacPdu) : Prop where
  type : q.type = p.type
  isUl : q.pduIsUl = p.pduIsUl
  maxSubheaders : q.maxSubheaders = p.maxSubheaders
  pduLen : q.pduLen = p.pduLen

theorem SameFrame.trans {p q r : MacPdu} (h : SameFrame p q) (h' : SameFrame q r) : SameFrame p r :=
  ⟨h'.type.trans h.type, h'.isUl.trans h.isUl, h'.maxSubheaders.trans h.maxSubheaders,
    h'.pduLen.trans h.pduLen⟩

/-- The state `q` behind calls with the pieces `xs`, whose space was reserved or not. `new_subh`
leaves one subheader unused. -/
structure Left (len : ℕ) (pieces : List Piece) (p q : MacPdu) (xs : List Piece) (bytes : ℕ)
    (reserved : Prop) : Prop where
  frame : SameFrame p q
  nBytes : q.bufferTx.nBytes = p.bufferTx.nBytes + bytes
  count : pieces.length ≤ p.maxSubheaders - 1 → pieces.length + xs.length ≤ p.maxSubheaders - 1
  built : reserved → Built len (pieces ++ xs) q
  marked : reserved → Marked p.lastSduIdx pieces → Marked q.lastSduIdx (pieces ++ xs)
  tooLong : ¬ reserved → ∃ len' > len, Built len' (pieces ++ xs) q

section

variable {len : ℕ} {pieces : List Piece} {p q : MacPdu}

theorem Left.exists_built {xs : List Piece} {bytes : ℕ} {reserved : Prop}
    (h : Left len pieces p q xs bytes reserved) : ∃ len' ≥ len, Built len' (pieces ++ xs) q := by
  by_cases hreserved : reserved
  · exact ⟨len, le_rfl, h.built hreserved⟩
  · obtain ⟨len', hlt, hbuilt⟩ := h.tooLong hreserved
    exact ⟨len', le_of_lt hlt, hbuilt⟩

theorem Left.trans {p' : MacPdu} {xs : List Piece} {m : ℕ} {first later : Prop}
    (h : Left len pieces p p' xs m first)
    (h' : ∀ {len'}, Built len' (pieces ++ xs) p' → Left len' (pieces ++ xs) p' q ys n later) :
    Left len pieces p q (xs ++ ys) (m + n) (first ∧ later) := by
  obtain ⟨_, -, hbuilt⟩ := h.exists_built
  have hlater := h' hbuilt
  refine ⟨h.frame.trans hlater.frame, ?_, fun hcount => ?_, ?_, ?_, fun hnot => ?_⟩
  · rw [hlater.nBytes, h.nBytes, add_assoc]
  · have hend := hlater.count
    rw [h.frame.maxSubheaders, length_append] at hend
    rw [length_append, ← add_assoc]
    exact hend (h.count hcount)
  · rintro ⟨hfirst, hlast⟩
    rw [← append_assoc]
    exact (h' (h.built hfirst)).built hlast
  · rintro ⟨hfirst, hlast⟩ hmark
    rw [← append_assoc]
    exact hlater.marked hlast (h.marked hfirst hmark)
  · rw [← append_assoc]
    by_cases hfirst : first
    · exact (h' (h.built hfirst)).tooLong fun hlast => hnot ⟨hfirst, hlast⟩
    · obtain ⟨len₁, hlt, hlong⟩ := h.tooLong hfirst
      obtain ⟨len₂, hle, hend⟩ := (h' hlong).exists_built
      exact ⟨len₂, lt_of_lt_of_le hlt hle, hend⟩

theorem isSdu_piece_ce (c : Ce) : ((ce c).piece .sch).subh.isSdu = false := by
  have hlength := c.hasLength_ofLcid
  simp only [hasLength, Bool.or_eq_false_iff] at hlength
  exact hlength.1

theorem left_ce (h : Built len pieces p) {c : Ce} (hvalid : (ce c).Valid p.type p.pduIsUl)
    (hcount : pieces.length < p.maxSubheaders - 1) (happly : (ce c).apply p = some q) :
    Left len pieces p q [(ce c).piece p.type] 0 True := by
  obtain ⟨hrem, rfl⟩ := apply_ce happly
  have hsdu : ((ce c).piece p.type).subh.isSdu = false := by
    rw [hvalid.1]
    exact isSdu_piece_ce c
  have hfresh := hvalid.fresh
  have hcharge : ((ce c).piece p.type).subh.getHeaderSize false +
      ((ce c).piece p.type).subh.nofBytes = c.bytes.length + 1 := by
    have hlength : ((ce c).piece p.type).subh.hasLength = false := by
      rw [hvalid.1]
      exact c.hasLength_ofLcid
    rw [getHeaderSize_eq, hlength, Bool.false_and, if_neg (by decide), add_comm]
    rfl
  exact
    { frame := ⟨rfl, rfl, rfl, rfl⟩
      nBytes := rfl
      count := fun _ => hcount
      built := fun _ => h.withCe hfresh hsdu hcharge hrem
      marked := fun _ hmark => hmark.concat_ce hsdu
      tooLong := fun hnot => absurd trivial hnot }

theorem left_sdu (h : Built len pieces p) {x : Piece} (hx : Fresh p.type p.pduIsUl x)
    (hsdu : x.subh.isSdu) (hcount : pieces.length < p.maxSubheaders - 1)
    (hrem : x.payload.length + p.newSduHeader ≤ p.remLen)
    (htail : x.payload.length ≤ p.bufferTx.tailroom) {reserved : Prop} (hreserved : reserved) :
    Left len pieces p (p.withSdu x.subh x.payload) [x] x.payload.length reserved :=
  { frame := ⟨rfl, rfl, rfl, rfl⟩
    nBytes := rfl
    count := fun _ => hcount
    built := fun _ => h.withSdu hx hsdu htail hrem
    marked := fun _ _ => by
      have hlen : p.subheaders.length = pieces.length := by rw [h.subheaders, length_map]
      exact ⟨pieces, x, [], rfl, hlen.symm, hsdu, by simp⟩
    tooLong := fun hnot => absurd hreserved hnot }

theorem left_of_apply (h : Built len pieces p) (hvalid : op.Valid p.type p.pduIsUl)
    (happly : op.apply p = some q) :
    Left len pieces p q [op.piece p.type] op.sduBytes (op.Roomy p.bufferTx.nBytes) := by
  have hlast : p.lastSduIdx ≠ some p.subheaders.length := h.balanced.lastSduIdx_ne
  have hcount : pieces.length < p.maxSubheaders - 1 := by
    obtain ⟨p', hopen, -⟩ := Option.bind_eq_some_iff.mp happly
    unfold openSubh at hopen
    split at hopen
    · rename_i hroom
      have hlen := hroom.1
      rwa [h.subheaders, length_map] at hlen
    · cases hopen
  cases op with
  | ce c => exact left_ce h hvalid hcount happly
  | readSdu lcid requestedBytes payload =>
    obtain ⟨⟨hrem, htail⟩, rfl⟩ := apply_readSdu hlast happly
    exact left_sdu h hvalid.fresh hvalid.1 hcount hrem htail trivial
  | sdu lcid payload =>
    obtain ⟨⟨hrem, htail⟩, hq⟩ := apply_sdu hlast hvalid.2.1 happly
    have hroom := h.room
    have htailroom := h.tailroom_eq
    have hafter : (p.bufferTx.append payload).tailroom =
        emptyTailroom - (p.bufferTx.nBytes + payload.length) :=
      tailroom_eq h.msg (by rw [append_nBytes]; omega)
    have hroomy : payload.length ≤ (p.bufferTx.append payload).tailroom ↔
        (sdu lcid payload).Roomy p.bufferTx.nBytes := by
      simp only [hafter, SetOp.Roomy]
      omega
    by_cases hreserved : (sdu lcid payload).Roomy p.bufferTx.nBytes
    · rw [if_pos (hroomy.mpr hreserved)] at hq
      subst hq
      exact left_sdu h hvalid.fresh hvalid.1 hcount hrem htail hreserved
    rw [if_neg (mt hroomy.mp hreserved)] at hq
    subst hq
    have hbuilt := h.withUnreserved hvalid.fresh hvalid.1 htail
    exact
      { frame := ⟨rfl, rfl, rfl, rfl⟩
        nBytes := rfl
        count := fun _ => hcount
        built := fun hyes => absurd hyes hreserved
        marked := fun hyes => absurd hyes hreserved
        tooLong := fun _ => ⟨_, Nat.lt_add_of_pos_right (Nat.add_pos_left hvalid.2.1 _), hbuilt⟩ }

theorem Left.writePacket_eq_none {xs : List Piece} {bytes : ℕ} {reserved : Prop}
    (h : Left len pieces p q xs bytes reserved) (hlen : p.pduLen = len) (hnot : ¬ reserved) :
    q.writePacket = none := by
  obtain ⟨len', hlt, hlonger⟩ := h.tooLong hnot
  refine Option.eq_none_iff_forall_ne_some.mpr fun buffer hwrite => ?_
  exact ne_of_gt hlt (((hlonger.len_eq hwrite).trans h.frame.pduLen).trans hlen)

/-! ## What a sequence of calls leaves -/

/-- Every copied SDU leaves as much room behind it as it takes. -/
def AllRoomy : (used : ℕ) → List SetOp → Prop
  | _, [] => True
  | used, op :: ops => op.Roomy used ∧ AllRoomy (used + op.sduBytes) ops

variable {ops : List SetOp}

theorem left_of_applyAll (hvalid : ∀ op ∈ ops, op.Valid p.type p.pduIsUl) (h : Built len pieces p)
    (happly : applyAll p ops = some q) :
    Left len pieces p q (ops.map (piece p.type)) (ops.map sduBytes).sum
      (AllRoomy p.bufferTx.nBytes ops) := by
  induction ops generalizing p pieces len with
  | nil =>
    cases happly
    rw [map_nil]
    refine ⟨⟨rfl, rfl, rfl, rfl⟩, rfl, id, fun _ => ?_, fun _ hmark => ?_, absurd trivial⟩
    · rw [append_nil]
      exact h
    · rw [append_nil]
      exact hmark
  | cons op ops ih =>
    obtain ⟨p', hop, hrest⟩ := Option.bind_eq_some_iff.mp happly
    have hleft := left_of_apply h (hvalid op (mem_cons_self ..)) hop
    have hall := hleft.trans fun hbuilt => ih (fun o ho => hleft.frame.type ▸ hleft.frame.isUl ▸
      hvalid o (mem_cons_of_mem _ ho)) hbuilt hrest
    rw [hleft.frame.type, hleft.nBytes] at hall
    exact hall

end

end SetOp

/-! ## The room that the pieces need -/

/-- The length field of the last SDU, if a subheader follows. -/
def lastLengthField (pieces : List Piece) : ℕ :=
  match (sdusOf pieces).getLast? with
  | none => 0
  | some x => sizeHeaderSdu x.subh.nofBytes - 1

/-- The bytes of a PDU that no piece needs. -/
def freeLen (pduLen : ℕ) (pieces : List Piece) : ℕ :=
  pduLen - ((headersOf pieces).length + (payloadsOf pieces).length - lastLengthField pieces)

/-- The subheaders of so much padding: one or two, or one with the rest behind it. -/
def paddingSubheaders (free : ℕ) : ℕ := if 2 < free then 1 else free

/-- The bytes of the padding behind the SDUs. -/
def paddingLen (pduLen : ℕ) (pieces : List Piece) : ℕ :=
  if 2 < freeLen pduLen pieces then freeLen pduLen pieces - (lastLengthField pieces + 1) else 0

/-- The bytes before the SDUs: subheaders and control elements. -/
def frontLen (pduLen : ℕ) (pieces : List Piece) : ℕ :=
  (headersOf pieces).length - (if 2 < freeLen pduLen pieces then 0 else lastLengthField pieces) +
    paddingSubheaders (freeLen pduLen pieces) + (payloadsOf (cesOf pieces)).length

section

variable {pieces : List Piece} {p : MacPdu} {mem : ℕ → UInt8}

theorem Built.newSduHeader_eq (h : Built p.pduLen pieces p) (hmark : Marked p.lastSduIdx pieces) :
    p.newSduHeader = lastLengthField pieces + 1 := by
  cases hidx : p.lastSduIdx with
  | none =>
    rw [hidx] at hmark
    simp [newSduHeader, hidx, lastLengthField, sdusOf_eq_nil hmark]
  | some i =>
    rw [hidx] at hmark
    obtain ⟨a, last, b, rfl, rfl, hlast, hb⟩ := hmark
    have hsdus : sdusOf (a ++ last :: b) = sdusOf a ++ [last] := filter_append_cons_of_last hlast hb
    have hpos := one_le_getHeaderSize
      (fun hlen => ((h.readable last (by simp)).length hlen).1) false
    have hsize : last.subh.getHeaderSize false = sizeHeaderSdu last.subh.nofBytes := by
      simp [getHeaderSize, hlast]
    simp only [newSduHeader, hidx, h.subheaders, lastLengthField, hsdus, getLast?_concat]
    simp
    omega

theorem Built.nBytes_eq {len : ℕ} (h : Built len pieces p) :
    p.bufferTx.nBytes = (payloadsOf (sdusOf pieces)).length := by
  rw [← length_contents, h.contents]
  rfl

theorem Built.sizes (h : Built p.pduLen pieces p) (hmark : Marked p.lastSduIdx pieces) :
    p.remLen = freeLen p.pduLen pieces ∧ p.totalHeaderSize = frontLen p.pduLen pieces ∧
      p.numPadding = paddingLen p.pduLen pieces := by
  have haccount := h.account
  have hheader : headerSz p.subheaders none + 1 =
      headerSz p.subheaders p.lastSduIdx + p.newSduHeader := h.balanced.headerSz_eq.1
  have hlastHeader := h.balanced.headerSz_eq.2.1
  have hlast := h.newSduHeader_eq hmark
  have hnone : headerSz p.subheaders none = (headersOf pieces).length := by
    rw [h.subheaders, headerSz_none_eq_sum, length_headersOf h.readable]
  have hces := h.cePayloadSz_eq
  have hbytes := h.nBytes_eq
  have hpayloads : (payloadsOf (cesOf pieces)).length + (payloadsOf (sdusOf pieces)).length =
      (payloadsOf pieces).length := by
    simp only [payloadsOf, length_flatten, map_map]
    exact sum_filter_add_sum_filter_not _ _ _
  have hfree : p.remLen = freeLen p.pduLen pieces := by
    unfold freeLen
    omega
  refine ⟨hfree, ?_, ?_⟩
  · unfold totalHeaderSize onetwoPadding multibytePadding frontLen paddingSubheaders
    rw [← hfree]
    by_cases hmulti : 2 < p.remLen
    · simp [hmulti]
      omega
    · simp [hmulti]
      omega
  · unfold numPadding multibytePadding paddingLen
    rw [← hfree, hlastHeader, hlast]
    simp

/-! ## The round trip -/

/-- `write_packet` returns a PDU of the requested length, and a parser of its bytes finds the
control elements and the SDUs, apart from padding. -/
def RoundTrips (p : MacPdu) (pieces : List Piece) : Prop :=
  ∃ buffer, p.writePacket = some buffer ∧ buffer.nBytes = p.pduLen ∧
    ∀ mem : ℕ → UInt8, (∀ i < p.pduLen, mem i = buffer.byte i) →
      ((parsePacket p.type p.pduIsUl p.maxSubheaders p.pduLen mem).map (entryAt mem)).filter
        (fun x => x.1 ≠ paddingLcid) = (cesOf pieces ++ sdusOf pieces).map (·.entry)

theorem Built.filter_entries (h : Built p.pduLen pieces p) :
    ((p.writtenPieces pieces).map (·.entry)).filter (fun x => x.1 ≠ paddingLcid) =
      (cesOf pieces ++ sdusOf pieces).map (·.entry) := by
  have hkeep : ∀ l : List Piece, (∀ x ∈ l, x ∈ pieces) →
      (l.map (·.entry)).filter (fun x => x.1 ≠ paddingLcid) = l.map (·.entry) := by
    intro l hl
    rw [filter_eq_self]
    intro y hy
    obtain ⟨x, hx, rfl⟩ := mem_map.mp hy
    exact decide_eq_true (h.lcid_ne x (hl x hx))
  have hpads : ((replicate p.onetwoPadding (⟨.padding 0, []⟩ : Piece)).map (·.entry)).filter
      (fun x => x.1 ≠ paddingLcid) = [] := by
    rw [filter_eq_nil_iff]
    intro y hy
    obtain ⟨x, hx, rfl⟩ := mem_map.mp hy
    rw [eq_of_mem_replicate hx]
    decide
  have hces := hkeep (cesOf pieces) fun x hx => (mem_filter.mp hx).1
  have hsdus := hkeep (sdusOf pieces) fun x hx => (mem_filter.mp hx).1
  unfold writtenPieces
  rw [map_append, map_append, map_append, filter_append, filter_append,
    filter_append, hpads, hces, hsdus, nil_append, map_append]
  split
  · exact append_nil _
  simp

variable {xs : List Piece} {last : Piece}

/-- The parser finds the pieces, if the last one has no length field that is not written. -/
theorem Built.filter_parsePacket (h : Built p.pduLen pieces p)
    (hlayout : HeaderLayout p pieces xs last) (hhead : p.totalHeaderSize ≤ p.bufferTx.msg)
    {maxSubheaders : ℕ} (hroom : xs = [] ∧ 0 < maxSubheaders ∨ xs.length + 1 < maxSubheaders)
    (hzero : last.subh.unwritten = 0) (hmem : ∀ i < p.pduLen, mem i = p.written.byte i) :
    ((parsePacket p.type p.pduIsUl maxSubheaders p.pduLen mem).map (entryAt mem)).filter
      (fun x => x.1 ≠ paddingLcid) = (cesOf pieces ++ sdusOf pieces).map (·.entry) := by
  obtain ⟨gap, hgap, hentries⟩ := h.entries_written hlayout hhead hroom
  rw [hentries mem hmem, eq_nil_of_length_eq_zero (hgap.trans hzero), append_nil,
    ← h.filter_entries, hlayout.order, map_append]
  rfl

theorem unwritten_or_mem (hx : x ∈ p.writtenPieces pieces) : x.subh.unwritten = 0 ∨ x ∈ pieces := by
  rcases mem_writtenPieces hx with rfl | hpiece | ⟨-, rfl⟩
  · exact .inl rfl
  · exact .inr hpiece
  · exact .inl rfl

theorem parsePacket_zero (type : SubhType) (isUl : Bool) (maxSubheaders : ℕ) (mem : ℕ → UInt8) :
    parsePacket type isUl maxSubheaders 0 mem = [] := by
  cases maxSubheaders with
  | zero => rfl
  | succ m =>
    have hptr : 0 < (readSubheader type isUl mem 0).2.2 := by
      unfold readSubheader
      dsimp only
      split_ifs <;> simp
    rcases hread : readSubheader type isUl mem 0 with ⟨s, eBit, ptr⟩
    rw [hread] at hptr
    have hpos : 0 < ptr := hptr
    unfold parsePacket readSubheaders
    simp only [Nat.succ_pos, if_true, hread]
    cases eBit with
    | true => simp
    | false => simp [readPayloads, Nat.add_pos_left hpos]

theorem filter_entries_padding {maxSubheaders pduLen : ℕ}
    (hmem : Holds mem 0 (replicate pduLen 0x1F)) :
    ((parsePacket type isUl maxSubheaders pduLen mem).map (entryAt mem)).filter
      (fun x => x.1 ≠ paddingLcid) = [] := by
  cases pduLen with
  | zero =>
    rw [parsePacket_zero]
    rfl
  | succ n =>
    rcases eq_zero_or_pos maxSubheaders with rfl | hpos
    · rfl
    have hpad : (padding 0).writeSubheader true = [0x1F] := rfl
    have hread := readable_padding type isUl
    have hce := hread.ce rfl
    have hentries := @entries_parsePacket type isUl maxSubheaders (n + 1) mem [] (by simp)
      ⟨.padding 0, replicate n 0x1F⟩ hread.lcid_lt
      (.inr (le_trans (le_of_eq hce.symm) (Nat.zero_le _))) (.inl ⟨rfl, hpos⟩)
      (by simp [headersOf, payloadsOf, add_comm])
      (by simpa [headersOf, payloadsOf, hpad, replicate_succ] using hmem)
    rw [hentries]
    rfl

theorem Built.contents_padding (h : Built p.pduLen [] p) (hmulti : p.multibytePadding = false)
    (hhead : p.totalHeaderSize ≤ p.bufferTx.msg) :
    p.written.contents = replicate p.pduLen 0x1F := by
  have hsub : p.subheaders = [] := h.subheaders
  have hbytes : p.bufferTx.nBytes = 0 := h.nBytes_eq
  have haccount := h.account
  have hce : cePayloadSz p.subheaders = 0 := by simp [hsub, cePayloadSz]
  have hrem : p.remLen = p.pduLen := by
    rw [hsub, headerSz_nil, ← hsub] at haccount
    omega
  have honetwo : p.onetwoPadding = p.pduLen := by simp [onetwoPadding, hmulti, hrem]
  have hpadding : p.numPadding = 0 := by simp [numPadding, hmulti]
  have hpad : (padding 0).writeSubheader true = [0x1F] := rfl
  have hheader : p.headerBytes = replicate p.pduLen 0x1F := by
    unfold headerBytes
    simp [honetwo, hmulti, hsub, hpad]
  have htotal : p.totalHeaderSize = p.pduLen := by
    rw [totalHeaderSize, hce, hsub, headerSz_nil, hmulti, honetwo]
    simp
  have hfront := @ByteBuffer.contents_rewind_write p.bufferTx p.totalHeaderSize p.headerBytes hhead
    (by rw [hheader, htotal, length_replicate])
  have hcontents : p.bufferTx.contents = [] := h.contents
  rw [MacPdu.written, contents_append, hfront, hcontents, hpadding, hheader, htotal,
    length_replicate, Nat.sub_self]
  simp

theorem Built.length_written (h : Built p.pduLen pieces p) (hmark : Marked p.lastSduIdx pieces) :
    (p.writtenPieces pieces).length =
      pieces.length + paddingSubheaders (freeLen p.pduLen pieces) := by
  rw [length_writtenPieces, (h.sizes hmark).1]
  unfold paddingSubheaders multibytePadding
  rw [(h.sizes hmark).1]
  simp

theorem Built.roundTrips (h : Built p.pduLen pieces p) (hmark : Marked p.lastSduIdx pieces)
    (hfixed : ∀ x ∈ pieces, x.subh.unwritten = 0)
    (hfront : frontLen p.pduLen pieces ≤ bufferHeaderOffset)
    (hpadding : (payloadsOf (sdusOf pieces)).length + paddingLen p.pduLen pieces ≤ emptyTailroom)
    (hcount : pieces = [] ∨
      pieces.length + paddingSubheaders (freeLen p.pduLen pieces) < p.maxSubheaders) :
    RoundTrips p pieces := by
  obtain ⟨-, htotal, hnum⟩ := h.sizes hmark
  have hlen := h.balanced.total
  have hhead : p.totalHeaderSize ≤ p.bufferTx.msg := by
    rw [htotal, h.msg]
    exact hfront
  have htail : p.numPadding ≤ p.bufferTx.tailroom := by
    have hbytes := h.nBytes_eq
    rw [hnum, h.tailroom_eq]
    omega
  refine ⟨_, writePacket_eq_some_iff.mpr ⟨⟨hhead, htail, hlen⟩, rfl⟩,
    by rw [written_nBytes, hlen], ?_⟩
  intro mem hmem
  have hholds := holds_contents (by rw [written_nBytes, hlen]; exact hmem)
  by_cases hsome : pieces ≠ [] ∨ p.multibytePadding
  · obtain ⟨xs, last, hlayout⟩ := h.headerLayout hmark hsome
    rcases eq_zero_or_pos p.maxSubheaders with hmax | hmax
    · -- a parser without room for subheaders finds nothing, and nothing was written
      have hnil : pieces = [] := hcount.resolve_right (by omega)
      rw [hmax, hnil]
      rfl
    · have hwritten := h.length_written hmark
      rw [hlayout.order, length_append, length_singleton] at hwritten
      have hroom : xs = [] ∧ 0 < p.maxSubheaders ∨ xs.length + 1 < p.maxSubheaders := by
        rcases hcount with rfl | hlt
        · left
          refine ⟨eq_nil_of_length_eq_zero ?_, hmax⟩
          have hmulti : 2 < p.remLen := of_decide_eq_true (hsome.resolve_left (by simp))
          rw [(h.sizes hmark).1] at hmulti
          rw [paddingSubheaders, if_pos hmulti, length_nil] at hwritten
          omega
        omega
      have hlast : last ∈ p.writtenPieces pieces := by simp [hlayout.order]
      exact h.filter_parsePacket hlayout hhead hroom
        ((unwritten_or_mem hlast).elim id (hfixed last)) hmem
  · obtain ⟨hnil, hmulti⟩ := not_or.mp hsome
    obtain rfl := not_not.mp hnil
    rw [h.contents_padding (by simpa using hmulti) hhead] at hholds
    exact filter_entries_padding hholds

/-! ## A parser without room for all subheaders -/

/-- What a parser finds that stops with `stop`, and takes its payload to have `n` bytes. -/
def truncatedAt (type : SubhType) (ys : List Piece) (stop : Piece) (ptr n offset : ℕ) :
    List (SchSubh × ℕ) :=
  payloadsAt ptr (ys.map (Piece.read type)) ++ [({ stop.read type with nofBytes := n }, offset)]

theorem Built.parse_truncated (h : Built p.pduLen pieces p)
    (hlayout : HeaderLayout p pieces xs last)
    (hhead : p.totalHeaderSize ≤ p.bufferTx.msg) (hmax : 2 ≤ p.maxSubheaders)
    (hmany : p.maxSubheaders ≤ xs.length + 1) :
    ∃ ys stop zs ptr n offset, xs = ys ++ stop :: zs ∧ ys.length + 2 = p.maxSubheaders ∧
      stop.payload.length < n ∧
      parsePacket p.type p.pduIsUl p.maxSubheaders p.pduLen p.written.byte =
        truncatedAt p.type ys stop ptr n offset := by
  obtain ⟨ys, rest, hxs, hys⟩ : ∃ ys rest, xs = ys ++ rest ∧ ys.length + 2 = p.maxSubheaders :=
    ⟨xs.take (p.maxSubheaders - 2), xs.drop (p.maxSubheaders - 2),
      (take_append_drop _ _).symm, by rw [length_take]; omega⟩
  cases rest with
  | nil =>
    rw [hxs, append_nil] at hmany
    omega
  | cons stop zs =>
    have hreadable := h.readable_front hlayout
    have hstop := hreadable stop (by simp [hxs])
    obtain ⟨gap, -, hcontents⟩ := h.contents_written hlayout hhead
    have hlen : p.written.nBytes = p.pduLen := by
      rw [written_nBytes]
      exact h.balanced.total
    have hholds : Holds p.written.byte 0 p.written.contents := holds_contents fun _ _ => rfl
    have hlength := congrArg length hcontents
    rw [length_contents, hlen] at hlength
    have hsplit : xs = ys ++ [stop] ++ zs := by simp [hxs]
    rw [hsplit, headersOf_append, payloadsOf_append] at hcontents hlength
    simp only [length_append, length_writeSubheader_last] at hlength
    rw [hcontents] at hholds
    simp only [append_assoc] at hholds
    have hfront := (holds_append.mp hholds).1
    obtain ⟨offset, hparse⟩ := @parsePacket_truncated p.type p.pduIsUl p.maxSubheaders p.pduLen
      p.written.byte ys (fun x hx => hreadable x (by simp [hxs, hx])) stop hstop hys.symm hfront
      (by omega)
    refine ⟨ys, stop, zs, _, _, offset, hxs, hys, ?_, hparse⟩
    have hheader := hstop.length_headersOf
    have hpos := one_le_getHeaderSize (fun hlen => (hstop.length hlen).1) false
    have hpayload : (payloadsOf [stop]).length = stop.payload.length := by simp [payloadsOf]
    simp only [headersOf_append, payloadsOf_append, length_append] at hlength
    omega

theorem map_fst_truncated (mem : ℕ → UInt8) (type : SubhType) (ys : List Piece) (stop : Piece)
    (ptr n offset : ℕ) :
    ((truncatedAt type ys stop ptr n offset).map (entryAt mem)).map Prod.fst =
      (ys ++ [stop]).map (·.subh.lcid) := by
  have hfst := congrArg (map lcid) (map_fst_payloadsAt ptr (ys.map (Piece.read type)))
  rw [map_map, map_map] at hfst
  rw [truncatedAt, map_map, map_append, map_append]
  exact congrArg (· ++ [stop.subh.lcid]) hfst

theorem Built.missing_of_truncated (h : Built p.pduLen pieces p) (hpieces : pieces ≠ [])
    (hlayout : HeaderLayout p pieces xs last) (hmulti : p.multibytePadding = false)
    {zs : List Piece} {stop : Piece} (hxs : xs = ys ++ stop :: zs) {ptr offset : ℕ} :
    ((truncatedAt p.type ys stop ptr n offset).map (entryAt mem)).filter
      (fun x => x.1 ≠ paddingLcid) ≠ (cesOf pieces ++ sdusOf pieces).map (·.entry) := by
  intro heq
  -- the last subheader is not one of padding
  have hlast : last.subh.lcid ≠ paddingLcid := by
    have hne : cesOf pieces ++ sdusOf pieces ≠ [] := by
      have hsplit := @List.length_eq_length_filter_add _ pieces fun x => x.subh.isSdu
      have hpos := length_pos_of_ne_nil hpieces
      intro hnil
      have hzero := congrArg length hnil
      simp only [cesOf, sdusOf, length_append, length_nil] at hzero
      omega
    obtain ⟨front, x, hconcat⟩ := (eq_nil_or_concat' _).resolve_left hne
    have horder := hlayout.order
    unfold writtenPieces at horder
    rw [append_assoc (replicate _ _), hconcat, hmulti, if_neg (by decide), append_nil,
      ← append_assoc] at horder
    have hx : x = last := by simpa using (append_inj' horder rfl).2
    have hmem : x ∈ cesOf pieces ++ sdusOf pieces := by simp [hconcat]
    exact hx ▸ h.lcid_ne x (mem_of_mem_cesOf_sdusOf hmem)
  have hall := h.filter_entries
  rw [hlayout.order, hxs] at hall
  have hfound := congrArg (map Prod.fst) (heq.trans hall.symm)
  have hfst : ∀ l : List (ℕ × List UInt8), (l.filter fun x => x.1 ≠ paddingLcid).map Prod.fst =
      (l.map Prod.fst).filter fun lcid => lcid ≠ paddingLcid := by
    intro l
    rw [filter_map]
    rfl
  have hlcids : ((ys ++ stop :: zs ++ [last]).map (·.entry)).map Prod.fst =
      (ys ++ [stop]).map (·.subh.lcid) ++ (zs ++ [last]).map (·.subh.lcid) := by
    simp [Piece.entry, Function.comp_def]
  rw [hfst, hfst, map_fst_truncated, hlcids, filter_append] at hfound
  have hlength := congrArg length hfound
  have hkeep : 0 < (((zs ++ [last]).map (·.subh.lcid)).filter
      fun lcid => lcid ≠ paddingLcid).length := by
    refine length_pos_of_mem (a := last.subh.lcid) ?_
    simp [hlast]
  rw [length_append] at hlength
  omega

theorem Built.wrong_of_truncated (h : Built p.pduLen pieces p)
    (hlayout : HeaderLayout p pieces xs last) (hmulti : p.multibytePadding)
    {stop : Piece} (hxs : xs = ys ++ [stop]) {ptr offset : ℕ} (hlonger : stop.payload.length < n) :
    ((truncatedAt p.type ys stop ptr n offset).map (entryAt mem)).filter
      (fun x => x.1 ≠ paddingLcid) ≠ (cesOf pieces ++ sdusOf pieces).map (·.entry) := by
  have hall : cesOf pieces ++ sdusOf pieces = xs := by
    have horder := hlayout.order
    have honetwo : p.onetwoPadding = 0 := by simp [onetwoPadding, hmulti]
    unfold writtenPieces at horder
    rw [honetwo, hmulti, if_pos rfl, replicate_zero, nil_append] at horder
    exact (append_inj' horder rfl).1
  have hlcid : ∀ x ∈ xs, x.subh.lcid ≠ paddingLcid := by
    intro x hx
    exact h.lcid_ne x (mem_of_mem_cesOf_sdusOf (hall ▸ hx))
  intro heq
  have hself : ∀ l : List (ℕ × List UInt8), l.map Prod.fst = xs.map (·.subh.lcid) →
      l.filter (fun x => x.1 ≠ paddingLcid) = l := by
    intro l hl
    rw [filter_eq_self]
    intro x hx
    have hmem : x.1 ∈ xs.map (·.subh.lcid) := hl ▸ mem_map_of_mem hx
    obtain ⟨y, hy, hyx⟩ := mem_map.mp hmem
    exact decide_eq_true (hyx ▸ hlcid y hy)
  rw [hself _ (by rw [map_fst_truncated, hxs]), hall, hxs, truncatedAt,
    map_append, map_append] at heq
  have hentry := (append_inj' heq rfl).2
  have hsize := congrArg (fun l => l.map fun x : ℕ × List UInt8 => x.2.length) hentry
  simp [entryAt, Piece.entry, length_slice] at hsize
  omega

theorem Built.count_of_roundTrips (h : Built p.pduLen pieces p) (hmark : Marked p.lastSduIdx pieces)
    (hlen : pieces.length ≤ p.maxSubheaders - 1) (htrips : RoundTrips p pieces) :
    pieces = [] ∨
      pieces.length + paddingSubheaders (freeLen p.pduLen pieces) < p.maxSubheaders := by
  by_contra hnot
  obtain ⟨hpieces, hmany⟩ := not_or.mp hnot
  obtain ⟨buffer, hwrite, -, hparse⟩ := htrips
  obtain ⟨hroom, rfl⟩ := writePacket_eq_some_iff.mp hwrite
  obtain ⟨xs, last, hlayout⟩ := h.headerLayout hmark (.inl hpieces)
  have hpos := length_pos_of_ne_nil hpieces
  have hwritten := h.length_written hmark
  rw [hlayout.order, length_append, length_singleton] at hwritten
  obtain ⟨ys, stop, zs, ptr, n, offset, hxs, hys, hlonger, htruncated⟩ :=
    h.parse_truncated hlayout hroom.1 (by omega) (by omega)
  have hfound := hparse p.written.byte fun _ _ => rfl
  rw [htruncated] at hfound
  cases hmulti : p.multibytePadding with
  | false => exact h.missing_of_truncated hpieces hlayout hmulti hxs hfound
  | true =>
    have hrem : 2 < p.remLen := of_decide_eq_true hmulti
    rw [(h.sizes hmark).1] at hrem
    rw [paddingSubheaders, if_pos hrem] at hwritten
    have hnil : zs = [] := by
      refine eq_nil_of_length_eq_zero ?_
      rw [hxs, length_append, length_cons] at hwritten
      omega
    rw [hnil] at hxs
    exact h.wrong_of_truncated hlayout hmulti hxs hlonger hfound

end

/-! ## When the round trip succeeds -/

/-- The calls fit a PDU of `pduLen` bytes: the buffer has the room that `set_sdu` asks for and that
the PDU needs in front of the SDUs and behind them, and with the subheaders of the padding there are
no more than the parser reads. -/
structure Fits (maxSubheaders pduLen : ℕ) (ops : List SetOp) : Prop where
  roomy : SetOp.AllRoomy 0 ops
  front : frontLen pduLen (ops.map (piece .sch)) ≤ bufferHeaderOffset
  padding : (payloadsOf (sdusOf (ops.map (piece .sch)))).length +
    paddingLen pduLen (ops.map (piece .sch)) ≤ emptyTailroom
  count : ops = [] ∨
    ops.length + paddingSubheaders (freeLen pduLen (ops.map (piece .sch))) < maxSubheaders

theorem SetOp.unwritten_piece (h : op.Valid .sch isUl) : (op.piece .sch).subh.unwritten = 0 := by
  cases op with
  | ce c =>
    have hlength : ((ce c).piece .sch).subh.hasLength = false := c.hasLength_ofLcid
    rw [unwritten, getHeaderSize_eq, hlength]
    simp
  | sdu lcid payload | readSdu lcid requestedBytes payload => exact if_pos h.1

/-- Successful calls make the round trip exactly if they fit the PDU. -/
theorem roundTrips_iff_fits {maxSubheaders pduLen : ℕ} {isUl : Bool} {buffer : ByteBuffer}
    {ops : List SetOp} {p : MacPdu} (hvalid : ∀ op ∈ ops, op.Valid .sch isUl)
    (happly : applyAll (.initTx .sch maxSubheaders buffer.clear pduLen isUl) ops = some p) :
    RoundTrips p (ops.map (piece .sch)) ↔ Fits maxSubheaders pduLen ops := by
  have hinit := built_initTx .sch maxSubheaders buffer pduLen isUl
  have hleft := left_of_applyAll hvalid hinit happly
  have hpduLen : p.pduLen = pduLen := hleft.frame.pduLen
  have hmax := hleft.frame.maxSubheaders
  have hlength : (ops.map (piece .sch)).length ≤ p.maxSubheaders - 1 := by
    have hle := hleft.count (Nat.zero_le _)
    rw [hmax]
    simpa [MacPdu.initTx] using hle
  by_cases hroomy : SetOp.AllRoomy 0 ops
  · have hmark := hleft.marked hroomy (by simp [Marked, MacPdu.initTx])
    have hbuilt : Built p.pduLen (ops.map (piece .sch)) p := hpduLen ▸ hleft.built hroomy
    obtain ⟨-, htotal, hnum⟩ := hbuilt.sizes hmark
    constructor
    · intro htrips
      have hcount := hbuilt.count_of_roundTrips hmark hlength htrips
      obtain ⟨written, hwrite, -⟩ := htrips
      obtain ⟨⟨hfront, htail, -⟩, -⟩ := writePacket_eq_some_iff.mp hwrite
      rw [htotal, hbuilt.msg, hpduLen] at hfront
      rw [hnum, hbuilt.tailroom_eq, hbuilt.nBytes_eq, hpduLen] at htail
      have hroom := hbuilt.room
      rw [hbuilt.nBytes_eq] at hroom
      refine ⟨hroomy, hfront, by omega, ?_⟩
      rw [hpduLen, hmax, length_map] at hcount
      exact hcount.imp_left map_eq_nil_iff.mp
    · intro hfits
      refine hbuilt.roundTrips hmark ?_ (hpduLen ▸ hfits.front) (hpduLen ▸ hfits.padding) ?_
      · intro x hx
        obtain ⟨op, hop, rfl⟩ := mem_map.mp hx
        exact unwritten_piece (hvalid op hop)
      · rw [hpduLen, hmax, length_map]
        exact hfits.count.imp_left (by simp)
  · -- the PDU gets longer than requested, so none is written
    refine ⟨fun htrips => ?_, fun hfits => absurd hfits.roomy hroomy⟩
    obtain ⟨len, hlt, hbuilt⟩ := hleft.tooLong hroomy
    obtain ⟨written, hwrite, -⟩ := htrips
    have hlen := hbuilt.len_eq hwrite
    omega

/-- A timing advance command and an SDU in ten bytes. -/
theorem roundTrips_ta_and_sdu :
    ∃ p, applyAll (.initTx .sch 20 (ofReceived (fun _ => 0) []).clear 10 false)
        [.sdu 3 [1, 2, 3], .ce (.taCmd 5)] = some p ∧
      RoundTrips p ([.sdu 3 [1, 2, 3], .ce (.taCmd 5)].map (piece .sch)) := by
  obtain ⟨p, happly⟩ : ∃ p, applyAll
      (.initTx .sch 20 (ofReceived (fun _ => 0) []).clear 10 false)
      [.sdu 3 [1, 2, 3], .ce (.taCmd 5)] = some p := ⟨_, rfl⟩
  refine ⟨p, happly, (roundTrips_iff_fits ?_ happly).mpr ⟨?_, ?_, ?_, ?_⟩⟩
  · simp [SetOp.Valid, Ce.isUl, ofLcid, init, isSdu]
  · simp [SetOp.AllRoomy, SetOp.Roomy, emptyTailroom, maxBufferSizeBytes, bufferHeaderOffset]
  · decide
  · decide
  · right
    decide

theorem writePacket_long_sdu (buffer : ByteBuffer) (isUl : Bool) {pduLen : ℕ} {payload : List UInt8}
    (hfit : payload.length < pduLen) (hlong : emptyTailroom < 2 * payload.length)
    (hle : payload.length ≤ emptyTailroom) :
    ∃ p, applyAll (.initTx .sch 20 buffer.clear pduLen isUl) [.sdu 3 payload] = some p ∧
      p.writePacket = none := by
  have hempty : emptyTailroom = 12237 := rfl
  have hbuilt := built_initTx .sch 20 buffer pduLen isUl
  set init : MacPdu := .initTx .sch 20 buffer.clear pduLen isUl
  have hvalid : ∀ op ∈ [sdu 3 payload], op.Valid .sch isUl := by
    intro op hop
    rw [mem_singleton.mp hop]
    exact ⟨rfl, by omega, by omega⟩
  have hroomy : ¬ SetOp.AllRoomy 0 [sdu 3 payload] := by
    rintro ⟨hroomy, -⟩
    have hroomy : 0 + 2 * payload.length ≤ emptyTailroom := hroomy
    omega
  have hpos : 1 ≤ payload.length := by omega
  have happly := hbuilt.apply_firstSdu (by decide : 0 < 20 - 1) rfl 3 hpos hfit
    ((zero_add payload.length).trans_le hle)
  have happly : applyAll init [.sdu 3 payload] = some (init.newSubh.setSdu 3 payload) := by
    rw [applyAll, happly]
    rfl
  exact ⟨_, happly, (left_of_applyAll hvalid hbuilt happly).writePacket_eq_none rfl hroomy⟩

theorem writePacket_sdu_7000 :
    ∃ p, applyAll (.initTx .sch 20 (ofReceived (fun _ => 0) []).clear 8000 false)
        [.sdu 3 (replicate 7000 0)] = some p ∧ p.writePacket = none := by
  refine writePacket_long_sdu _ _ ?_ ?_ ?_
  · rw [length_replicate]
    decide
  · rw [length_replicate]
    decide
  · rw [length_replicate]
    decide

end MbmsTx.Mac
