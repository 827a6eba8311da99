import MbmsTx.Lib.Framing
import MbmsTx.Lib.Transition
import MbmsTx.Rlc.UmNr.Model

/-!
# Segmentation and reassembly without loss

Every PDU that is built is received, in order. Both sides agree on the part of the SDU that was sent
(`part`): the transmitter counts it as the offset of the next segment, and the receiver holds it in
the buffer of the sequence number.

Two grants break this. One that is too small for a new SDU still takes the SDU from the queue, and
its first segment is sent as a later one, without the offset that the receiver expects. With
sequence numbers of 12 bits, one that is a byte too small for the rest of an SDU counts as large
enough, and the last byte but one is sent as the last.
-/

namespace MbmsTx.Rlc.UmNr

open MbmsTx.Transition List Option Nat Bool Header ByteBuffer Tx
open MbmsTx.Rlc.Am (sub32)

namespace Rx

variable {s : Rx} {n x : ℕ} {buf : Buf} {more : List UInt8}

/-! ## The receiver -/

/-- No segment is stored, and the next sequence number is `n`. -/
structure Idle (n : ℕ) (s : Rx) : Prop where
  rxWindow : s.rxWindow = []
  next : s.rxNextReassembly = n % s.snSize.mod
  highest : s.rxNextHighest % s.snSize.mod = n % s.snSize.mod
  highest_le : s.rxNextHighest ≤ s.snSize.mod
  timer : s.reassemblyTimer = false
  nullRead : s.nullRead = false

/-- The received segments of the SDU `n` are in `buf`. -/
structure Holds (n : ℕ) (buf : Buf) (s : Rx) : Prop where
  rxWindow : s.rxWindow =
    [(n % s.snSize.mod, { sdu := some buf, nextExpectedSo := buf.bytes.length })]
  next : s.rxNextReassembly = n % s.snSize.mod
  highest : s.rxNextHighest = n % s.snSize.mod + 1
  timer : s.reassemblyTimer = false
  nullRead : s.nullRead = false

theorem mod_lt (size : SnSize) (n : ℕ) : n % size.mod < size.mod := by
  cases size with
  | size6bits | size12bits => exact Nat.mod_lt n (by decide)

theorem window_pos (size : SnSize) : 0 < size.window := by
  rcases size.cases with ⟨-, hwindow⟩ | ⟨-, hwindow⟩
  all_goals omega

theorem rxModBase_lower (s : Rx) (h : s.rxNextHighest ≤ s.snSize.mod) :
    s.rxModBase (sub32 s.rxNextHighest s.snSize.window) = 0 := by
  unfold rxModBase sub32
  rcases s.snSize.cases with ⟨hmod, hwindow⟩ | ⟨hmod, hwindow⟩
  all_goals
    rw [hmod] at h
    rw [hmod, hwindow]
    omega

theorem rxModBase_highest (s : Rx) (heq : x % s.snSize.mod = s.rxNextHighest % s.snSize.mod) :
    s.rxModBase x = s.snSize.window := by
  unfold rxModBase sub32
  rcases s.snSize.cases with ⟨hmod, hwindow⟩ | ⟨hmod, hwindow⟩
  all_goals
    rw [hmod] at heq
    rw [hmod, hwindow]
    omega

theorem rxModBase_pred (s : Rx) (h : s.rxNextHighest = x + 1) :
    s.rxModBase x = s.snSize.window - 1 := by
  unfold rxModBase sub32
  rcases s.snSize.cases with ⟨hmod, hwindow⟩ | ⟨hmod, hwindow⟩
  all_goals
    rw [hmod, hwindow, h]
    omega

theorem snInReassemblyWindow_pred (s : Rx) (h : s.rxNextHighest = x + 1)
    (hx : x < s.snSize.mod) : s.snInReassemblyWindow x := by
  have hpos := window_pos s.snSize
  rw [snInReassemblyWindow, rxModBase_lower s (by omega), rxModBase_pred s h,
    rxModBase_highest s rfl, and_eq_true, decide_eq_true_eq, decide_eq_true_eq]
  omega

theorem snInReassemblyWindow_highest (s : Rx)
    (heq : x % s.snSize.mod = s.rxNextHighest % s.snSize.mod) :
    s.snInReassemblyWindow x = false := by
  rw [snInReassemblyWindow, rxModBase_highest s heq, rxModBase_highest s rfl,
    decide_eq_false (lt_irrefl _), Bool.and_false]

theorem snInvalidForRxBuffer_next (s : Rx) : s.snInvalidForRxBuffer s.rxNextReassembly = false := by
  rw [snInvalidForRxBuffer, decide_eq_false (lt_irrefl _), Bool.and_false]

theorem raiseWindow_next (s : Rx) {entry : PduSegments} (htimer : s.reassemblyTimer = false)
    (hlt : s.rxNextReassembly < s.snSize.mod)
    (hwindow : s.rxWindow = [(s.rxNextReassembly, entry)]) :
    s.raiseWindow s.rxNextReassembly = { s with rxNextHighest := s.rxNextReassembly + 1 } := by
  have hin : ({ s with rxNextHighest := s.rxNextReassembly + 1 } : Rx).snInReassemblyWindow
      s.rxNextReassembly := snInReassemblyWindow_pred _ rfl hlt
  have hfilter : (s.rxWindow.filter fun e =>
      ({ s with rxNextHighest := s.rxNextReassembly + 1 } : Rx).snInReassemblyWindow e.1) =
      s.rxWindow := by
    rw [hwindow] at hin ⊢
    rw [filter_cons, if_pos hin, filter_nil]
  simp only [raiseWindow, hfilter, hin, if_true]
  simp [updateTimer, htimer]

theorem Idle.handlePdu_first (h : Idle n s) (pdu : Pdu)
    (hheader : pdu.header = ⟨.firstSegment, s.snSize, n % s.snSize.mod, 0⟩) :
    ∃ t, s.handlePdu pdu = some t ∧ Holds n pdu.buf t ∧ t.delivered = s.delivered ∧
      t.snSize = s.snSize := by
  set entry : PduSegments := { sdu := some pdu.buf, nextExpectedSo := pdu.buf.bytes.length }
    with hentry
  have hassemble : assemble [(0, pdu)] [] { segments := [(0, pdu)] } = some (.waits entry) := by
    simp [assemble, hheader, hentry]
  have hout : ({ s with rxWindow := [(s.rxNextReassembly, entry)] } : Rx).snInReassemblyWindow
      s.rxNextReassembly = false := by
    refine snInReassemblyWindow_highest _ ?_
    rw [h.next, mod_mod]
    exact h.highest.symm
  have hupdate : ({ s with rxWindow := [(s.rxNextReassembly, { segments := [(0, pdu)] })] } :
      Rx).handleRxBufferUpdate s.rxNextReassembly =
      some { s with rxWindow := [(s.rxNextReassembly, entry)]
                    rxNextHighest := s.rxNextReassembly + 1 } := by
    simp only [handleRxBufferUpdate, lookup_cons, beq_self_eq_true, hassemble, map_some,
      assign, ne_eq, not_true_eq_false, decide_false, filter_cons, false_eq_true,
      if_false, filter_nil, emplace, hout]
    refine congrArg some (raiseWindow_next _ h.timer ?_ rfl)
    rw [h.next]
    exact mod_lt _ n
  have hpdu : s.handlePdu pdu = ({ s with
      rxWindow := [(s.rxNextReassembly, { segments := [(0, pdu)] })] } :
      Rx).handleRxBufferUpdate s.rxNextReassembly := by
    simp [handlePdu, hheader, ← h.next, snInvalidForRxBuffer_next, h.rxWindow, updateTotalSduLength,
      emplace, assign]
  refine ⟨_, hpdu.trans hupdate, ⟨?_, h.next, ?_, h.timer, h.nullRead⟩, rfl, rfl⟩
  · rw [← h.next]
  · rw [← h.next]

/-- `handle_data_pdu` with a later segment of the SDU reassembled next. -/
theorem Holds.handlePdu_eq (h : Holds n buf s) {pdu : Pdu} (hsn : pdu.header.sn = n % s.snSize.mod)
    (hfull : pdu.header.si ≠ .fullSdu) :
    s.handlePdu pdu = ({ s with rxWindow := [(s.rxNextReassembly,
      { sdu := some buf, nextExpectedSo := buf.bytes.length, segments := [(pdu.header.so, pdu)],
        totalSduLength := if pdu.header.si = .lastSegment
          then pdu.header.so + pdu.buf.bytes.length else 0 })] } :
      Rx).handleRxBufferUpdate s.rxNextReassembly := by
  have hsn' := hsn.trans h.next.symm
  have hwindow := h.rxWindow
  rw [← h.next] at hwindow
  simp only [handlePdu, hfull, if_false, hsn', snInvalidForRxBuffer_next, false_eq_true, hwindow,
    lookup_cons, beq_self_eq_true, getD_some, updateTotalSduLength, assign, ne_eq,
    not_true_eq_false, decide_false, filter_cons, filter_nil]
  split
  · rfl
  · rfl

theorem Buf.not_tailroom_lt {k : ℕ} (h : buf.stripped + buf.bytes.length + k ≤ emptyTailroom) :
    ¬ buf.tailroom < k := by
  have htail : emptyTailroom = 12237 := rfl
  rw [Buf.tailroom, sub32, sub32, htail]
  omega

theorem advanceNextReassembly_highest (s : Rx) (fuel : ℕ)
    (h : s.rxNextReassembly % s.snSize.mod = s.rxNextHighest % s.snSize.mod) :
    advanceNextReassembly fuel s = s := by
  cases fuel with
  | zero => rfl
  | succ fuel =>
    rw [advanceNextReassembly, rxModBase_highest s h, rxModBase_highest s rfl, if_neg (lt_irrefl _)]

section

variable (h : Holds n buf s) (pdu : Pdu) (hne : buf.bytes ≠ [])
  (hfit : buf.stripped + buf.bytes.length + pdu.buf.bytes.length ≤ emptyTailroom)
include h hne hfit

theorem Holds.handlePdu_middle (hheader : pdu.header =
      ⟨.neitherFirstNorLastSegment, s.snSize, n % s.snSize.mod, buf.bytes.length⟩) :
    ∃ t, s.handlePdu pdu = some t ∧
      Holds n { buf with bytes := buf.bytes ++ pdu.buf.bytes } t ∧ t.delivered = s.delivered ∧
      t.snSize = s.snSize := by
  have hpos : buf.bytes.length ≠ 0 := by simpa using hne
  set entry : PduSegments :=
    { sdu := some { buf with bytes := buf.bytes ++ pdu.buf.bytes }
      nextExpectedSo := (buf.bytes ++ pdu.buf.bytes).length } with hentry
  have hassemble : assemble [(buf.bytes.length, pdu)] []
      { sdu := some buf, nextExpectedSo := buf.bytes.length,
        segments := [(buf.bytes.length, pdu)] } = some (.waits entry) := by
    have hend : ¬ buf.bytes.length + pdu.buf.bytes.length = 0 := by omega
    simp [assemble, hheader, hpos, Buf.not_tailroom_lt hfit, hentry]
  have hin : ({ s with rxWindow := [(s.rxNextReassembly, entry)] } : Rx).snInReassemblyWindow
      s.rxNextReassembly := by
    refine snInReassemblyWindow_pred _ ?_ ?_
    · rw [h.next]
      exact h.highest
    · rw [h.next]
      exact mod_lt _ n
  have hpdu : s.handlePdu pdu = _ := h.handlePdu_eq (by rw [hheader]) (by simp [hheader])
  rw [hheader] at hpdu
  simp only [reduceCtorEq, if_false] at hpdu
  refine ⟨{ s with rxWindow := [(s.rxNextReassembly, entry)] }, ?_,
    ⟨?_, h.next, h.highest, h.timer, h.nullRead⟩, rfl, rfl⟩
  · rw [hpdu]
    simp [handleRxBufferUpdate, hassemble, assign, emplace, hin]
  · rw [← h.next]

theorem Holds.handlePdu_last
    (hheader : pdu.header = ⟨.lastSegment, s.snSize, n % s.snSize.mod, buf.bytes.length⟩) :
    ∃ t, s.handlePdu pdu = some t ∧ Idle (n + 1) t ∧
      t.delivered = s.delivered ++ [buf.bytes ++ pdu.buf.bytes] ∧ t.snSize = s.snSize := by
  have hpos : buf.bytes.length ≠ 0 := by simpa using hne
  set entry : PduSegments :=
    { sdu := some buf, nextExpectedSo := buf.bytes.length, segments := [(buf.bytes.length, pdu)],
      totalSduLength := buf.bytes.length + pdu.buf.bytes.length } with hentry
  have hassemble : assemble entry.segments [] entry =
      some (.complete (buf.bytes ++ pdu.buf.bytes)) := by
    simp [assemble, hheader, hpos, Buf.not_tailroom_lt hfit, hentry]
  have hpdu : s.handlePdu pdu = _ := h.handlePdu_eq (by rw [hheader]) (by simp [hheader])
  rw [hheader] at hpdu
  set t : Rx := { s with rxWindow := [(s.rxNextReassembly, entry)] } with ht
  have hupdate : t.handleRxBufferUpdate s.rxNextReassembly =
      some (t.deliver s.rxNextReassembly (buf.bytes ++ pdu.buf.bytes)) := by
    simp [handleRxBufferUpdate, ht, hassemble]
  have hnext : (n + 1) % s.snSize.mod = (s.rxNextReassembly + 1) % s.snSize.mod := by
    rw [h.next, mod_add_mod]
  have hhighest : s.rxNextHighest % s.snSize.mod = (n + 1) % s.snSize.mod := by
    rw [h.highest, mod_add_mod]
  have hle : s.rxNextHighest ≤ s.snSize.mod := by
    rw [h.highest]
    exact mod_lt _ n
  have hdeliver : t.deliver s.rxNextReassembly (buf.bytes ++ pdu.buf.bytes) =
      { s with rxWindow := []
               rxNextReassembly := (s.rxNextReassembly + 1) % s.snSize.mod
               delivered := s.delivered ++ [buf.bytes ++ pdu.buf.bytes] } := by
    simp only [deliver, ht, if_true]
    rw [advanceNextReassembly_highest _ _ (by rw [mod_mod, ← hnext]; exact hhighest.symm)]
    simp [erase]
  exact ⟨_, (hpdu.trans hupdate).trans (congrArg some hdeliver),
    ⟨rfl, hnext.symm, hhighest, hle, h.timer, h.nullRead⟩, rfl, rfl⟩

end

end Rx

/-! ## The transmitter -/

namespace Tx

variable {s : Tx} {nofBytes : ℕ} {sdu rest : List UInt8} {queue : List (List UInt8)}

/-- The room for a PDU with a grant of `nofBytes`. -/
def space (nofBytes : ℕ) : ℕ := min nofBytes ByteBuffer.emptyTailroom

theorem space_le (nofBytes : ℕ) : space nofBytes ≤ 12237 := Nat.min_le_right _ _

theorem buildDataPdu_of_lt_two (h : nofBytes < 2) : s.buildDataPdu nofBytes = (s, none) := by
  unfold buildDataPdu
  rw [if_pos h]
  simp

theorem buildDataPdu_full (htx : s.txSdu = none) (hqueue : s.txSduQueue = sdu :: queue)
    (hspace : 2 < space nofBytes) (hfit : sdu.length + 1 ≤ space nofBytes) :
    s.buildDataPdu nofBytes =
      ({ s with txSduQueue := queue, nextSo := sdu.length },
        some (Header.write { snSize := s.snSize } ++ sdu)) := by
  have hle := space_le nofBytes
  have hbytes : ¬ nofBytes < 2 := by
    unfold space at hspace
    omega
  have hfull : sdu.length ≤ sub32 (space nofBytes) headLenFull := by
    rw [sub32, headLenFull]
    omega
  have hmove : toMove (space nofBytes) 1 sdu = sdu.length := if_pos (by omega)
  have hlen : ¬ space nofBytes ≤ 1 + 1 := by omega
  simp only [space] at hfull hmove hlen
  simp [buildDataPdu, htx, hqueue, hbytes, selectSdu, hfull, Header.packedLength, hlen, hmove,
    Header.write]

theorem buildDataPdu_first (htx : s.txSdu = none) (hqueue : s.txSduQueue = sdu :: queue)
    (hspace : snBytes s.snSize + 1 < space nofBytes) (hfit : space nofBytes < sdu.length + 1) :
    s.buildDataPdu nofBytes =
      ({ s with
          txSdu := some (sdu.drop (space nofBytes - snBytes s.snSize))
          txSduQueue := queue
          nextSo := space nofBytes - snBytes s.snSize },
        some (Header.write ⟨.firstSegment, s.snSize, s.txNext, 0⟩ ++
          sdu.take (space nofBytes - snBytes s.snSize))) := by
  have hle := space_le nofBytes
  have hpos := snBytes_pos s.snSize
  have hbytes : ¬ nofBytes < 2 := by
    unfold space at hspace
    omega
  have hfirst : ¬ sdu.length ≤ sub32 (space nofBytes) headLenFull := by
    rw [sub32, headLenFull]
    omega
  have hmove : toMove (space nofBytes) (snBytes s.snSize) sdu =
      space nofBytes - snBytes s.snSize := if_neg (by omega)
  have hlen : ¬ space nofBytes ≤ snBytes s.snSize + 1 := by omega
  have hrest : ¬ sdu.length ≤ space nofBytes - snBytes s.snSize := by omega
  simp only [space] at hfirst hmove hlen hrest
  simp [buildDataPdu, htx, hqueue, hbytes, selectSdu, hfirst, Header.packedLength, hlen, hmove,
    hrest, Nat.sub_eq_zero_iff_le, space]

/-- A cut SDU goes on: nothing is sent, a middle segment or all of the rest. -/
theorem buildDataPdu_rest (htx : s.txSdu = some rest) (hso : s.nextSo ≠ 0) (hlt : s.nextSo < 2 ^ 16)
    (hgrant : s.snSize = .size12bits → rest.length + 3 = space nofBytes → space nofBytes ≤ 5) :
    s.buildDataPdu nofBytes = (s, none) ∨
    (∃ k, 0 < k ∧ k < rest.length ∧ s.buildDataPdu nofBytes =
      ({ s with txSdu := some (rest.drop k), nextSo := s.nextSo + k },
        some (Header.write ⟨.neitherFirstNorLastSegment, s.snSize, s.txNext, s.nextSo⟩ ++
          rest.take k))) ∨
    s.buildDataPdu nofBytes =
      ({ s with txSdu := none, nextSo := 0, txNext := (s.txNext + 1) % s.snSize.mod },
        some (Header.write ⟨.lastSegment, s.snSize, s.txNext, s.nextSo⟩ ++ rest)) := by
  have hle := space_le nofBytes
  by_cases hbytes : nofBytes < 2
  · exact .inl (buildDataPdu_of_lt_two hbytes)
  have hseg : headLenSegment = 3 := rfl
  -- the header is longer than `headLenSegment` when the sequence number has 12 bits
  have hhead : snBytes s.snSize = 1 ∨ s.snSize = .size12bits ∧ snBytes s.snSize = 2 := by
    cases hsize : s.snSize with
    | size6bits => exact .inl rfl
    | size12bits => exact .inr ⟨rfl, rfl⟩
  by_cases hspace : space nofBytes ≤ snBytes s.snSize + 2 + 1
  · left
    simp only [space] at hspace
    by_cases hlast : rest.length ≤ sub32 (min nofBytes emptyTailroom) headLenSegment
    all_goals
      simp only [buildDataPdu, htx, isNone_some, Bool.false_and, false_eq_true, if_false,
        hbytes, selectSdu, hlast, if_true, Header.packedLength, reduceCtorEq, mod_eq_of_lt hlt,
        hso, hspace]
  right
  have hspace' := hspace
  simp only [space] at hspace'
  by_cases hlast : rest.length ≤ sub32 (space nofBytes) headLenSegment
  · right
    rw [sub32, hseg] at hlast
    have hmove : toMove (space nofBytes) (snBytes s.snSize + 2) rest = rest.length := by
      refine if_pos ?_
      rcases hhead with hhead | ⟨hsize, hhead⟩
      · omega
      · have := hgrant hsize
        omega
    rw [← hseg, ← sub32] at hlast
    simp only [space] at hlast hmove
    simp only [buildDataPdu, htx, isNone_some, Bool.false_and, false_eq_true, if_false,
      hbytes, selectSdu, hlast, if_true, Header.packedLength, reduceCtorEq, mod_eq_of_lt hlt, hso,
      hspace', hmove, Nat.sub_self, take_length]
  · left
    rw [sub32, hseg] at hlast
    have hmove : toMove (space nofBytes) (snBytes s.snSize + 2) rest =
        space nofBytes - (snBytes s.snSize + 2) := if_neg (by omega)
    have hmore : ¬ rest.length ≤ space nofBytes - (snBytes s.snSize + 2) := by omega
    rw [← hseg, ← sub32] at hlast
    refine ⟨space nofBytes - (snBytes s.snSize + 2), by omega, by omega, ?_⟩
    simp only [space] at hlast hmove hmore
    simp only [buildDataPdu, htx, isNone_some, Bool.false_and, false_eq_true, if_false,
      hbytes, selectSdu, hlast, Header.packedLength, reduceCtorEq, mod_eq_of_lt hlt, hso,
      hspace', hmove, Nat.sub_eq_zero_iff_le, hmore, space]

end Tx

/-! ## Runs -/

/-- A transmitter, its receiver, and the SDUs written. The receiver is `none` after a PDU with which
it does not return. -/
structure Link where
  tx : Tx
  rx : Option Rx
  sdus : List (List UInt8) := []

/-- The events of a link. What is sent is received at once. -/
inductive LinkAction
  | writeSdu (sdu : List UInt8)
  | grant (nofBytes : ℕ)
  | timerExpired

namespace Link

def step (st : Link) : LinkAction → Option Link
  | .writeSdu sdu =>
    if sdu = [] then none
    else some { st with tx := st.tx.writeSdu sdu, sdus := st.sdus ++ [sdu] }
  | .grant nofBytes =>
    let built := st.tx.buildDataPdu nofBytes
    some { st with
      tx := built.1
      rx :=
        match built.2 with
        | none => st.rx
        | some pdu => st.rx.bind (·.handleDataPdu pdu) }
  | .timerExpired =>
    if st.rx.any (·.reassemblyTimer) then some { st with rx := st.rx.map Rx.timerExpired }
    else none

end Link

/-- Both sides have the same length of sequence numbers. -/
def linkSystem : System Link LinkAction where
  Init st := ∃ size, st = { tx := { snSize := size }, rx := some { snSize := size } }
  step := Link.step

/-- The SDUs were delivered up to those still to be sent, the first of which may have been sent in
part, and no null pointer was read. -/
def Link.Exact (st : Link) : Prop :=
  ∃ rx part, st.rx = some rx ∧ rx.nullRead = false ∧
    st.sdus = rx.delivered ++ joinFirst part st.tx.pending ∧ (st.tx.txSdu = none → part = [])

/-- A grant that does not break a segmentation: it is too small for anything to be looked at, or
large enough for the first byte of a new SDU, which fits the buffer of its first segment; and with
12 bits it is not the one byte short that `head_len_segment` overlooks. -/
def Tx.GrantFits (s : Tx) (nofBytes : ℕ) : Prop :=
  match s.txSdu, s.txSduQueue with
  | none, [] => True
  | none, sdu :: _ =>
    nofBytes < 2 ∨ sdu.length + 1 ≤ space nofBytes ∧ 2 < space nofBytes ∨
      space nofBytes < sdu.length + 1 ∧ Header.snBytes s.snSize + 1 < space nofBytes ∧
        Header.snBytes s.snSize + sdu.length ≤ ByteBuffer.emptyTailroom
  | some rest, _ =>
    s.snSize = .size12bits → rest.length + 3 = space nofBytes → space nofBytes ≤ 5

instance : (s : Tx) → (nofBytes : ℕ) → Decidable (s.GrantFits nofBytes)
  | ⟨_, _, _, none, []⟩, _ => isTrue trivial
  | ⟨_, _, _, none, _ :: _⟩, _ => inferInstanceAs (Decidable (_ ∨ _ ∨ _))
  | ⟨_, _, _, some _, _⟩, _ => inferInstanceAs (Decidable (_ → _ → _))

/-- Every grant fits. -/
def Link.GrantsFit (st : Link) : LinkAction → Prop
  | .grant nofBytes => st.tx.GrantFits nofBytes
  | _ => True

instance (st : Link) : (a : LinkAction) → Decidable (st.GrantsFit a)
  | .grant nofBytes => inferInstanceAs (Decidable (st.tx.GrantFits nofBytes))
  | .writeSdu _ | .timerExpired => isTrue trivial

/-- After `n` segmented SDUs: both sides are between two SDUs, or agree on what was sent of one. -/
inductive Tx.Agrees (n : ℕ) : Tx → Rx → List UInt8 → Prop
  | idle {tx : Tx} {rx : Rx} (htx : tx.txSdu = none) (hrx : rx.Idle n) : Agrees n tx rx []
  | sending {tx : Tx} {rx : Rx} {part rest : List UInt8} (htx : tx.txSdu = some rest)
      (hso : tx.nextSo = part.length) (hpart : part ≠ [])
      (hfit : Header.snBytes tx.snSize + part.length + rest.length ≤ ByteBuffer.emptyTailroom)
      (hrx : rx.Holds n ⟨Header.snBytes tx.snSize, part⟩) : Agrees n tx rx part

/-- What holds in every run with fitting grants. -/
structure Link.Inv (n : ℕ) (rx : Rx) (part : List UInt8) (st : Link) : Prop where
  rx_eq : st.rx = some rx
  size : rx.snSize = st.tx.snSize
  txNext : st.tx.txNext = n % st.tx.snSize.mod
  agrees : st.tx.Agrees n rx part
  sdus : st.sdus = rx.delivered ++ joinFirst part st.tx.pending

namespace Link

variable {n : ℕ} {rx : Rx} {part : List UInt8} {st : Link}

theorem Inv.exact (h : Inv n rx part st) : st.Exact := by
  refine ⟨rx, part, h.rx_eq, ?_, h.sdus, fun hnone => ?_⟩
  · cases h.agrees with
    | idle _ hrx | sending _ _ _ _ hrx => exact hrx.nullRead
  · cases h.agrees with
    | idle => rfl
    | sending htx => simp [hnone] at htx

theorem Inv.writeSdu (h : Inv n rx part st) (sdu : List UInt8) :
    Inv n rx part { st with tx := st.tx.writeSdu sdu, sdus := st.sdus ++ [sdu] } := by
  refine ⟨h.rx_eq, h.size, h.txNext, ?_, ?_⟩
  · cases h.agrees with
    | idle htx hrx => exact .idle htx hrx
    | sending htx hso hpart hfit hrx => exact .sending htx hso hpart hfit hrx
  · have hpending : (st.tx.writeSdu sdu).pending = st.tx.pending ++ [sdu] := by
      simp [Tx.pending, Tx.writeSdu]
    rw [hpending, h.sdus]
    by_cases hne : st.tx.pending = []
    · cases h.agrees with
      | idle => simp
      | sending htx => simp [pending, htx] at hne
    · rw [joinFirst_append hne, append_assoc]

theorem handleDataPdu_write {header : Header} (hvalid : header.Valid)
    (hsize : rx.snSize = header.snSize) (bytes : List UInt8) :
    rx.handleDataPdu (header.write ++ bytes) =
      rx.handlePdu ⟨header, ⟨header.packedLength, bytes⟩⟩ := by
  have hdrop : (header.write ++ bytes).drop header.packedLength = bytes := by
    rw [← length_write, drop_left]
  rw [Rx.handleDataPdu, hsize, read_write_append hvalid]
  dsimp only
  rw [hdrop]

theorem Inv.sn_lt (h : Inv n rx part st) : st.tx.txNext < st.tx.snSize.mod := by
  rw [h.txNext]
  exact Rx.mod_lt _ n

variable {st' : Link} {nofBytes : ℕ}

theorem Inv.grant_none (h : Inv n rx part st) (hbuild : st.tx.buildDataPdu nofBytes = (st.tx, none))
    (hstep : st.step (.grant nofBytes) = some st') : Inv n rx part st' := by
  simp only [step, hbuild] at hstep
  cases hstep
  exact { h with }

theorem Inv.step_grant (h : Inv n rx part st) {tx : Tx} {rx' : Rx} {pdu : List UInt8}
    (hbuild : st.tx.buildDataPdu nofBytes = (tx, some pdu))
    (hrx : rx.handleDataPdu pdu = some rx') (hstep : st.step (.grant nofBytes) = some st') :
    st' = { tx := tx, rx := some rx', sdus := st.sdus } := by
  simp only [step, hbuild, h.rx_eq, bind_some, hrx] at hstep
  exact (some.inj hstep).symm

theorem Inv.grant_new (h : Inv n rx [] st) (htx : st.tx.txSdu = none) (hidle : rx.Idle n)
    (hgrant : st.tx.GrantFits nofBytes) (hstep : st.step (.grant nofBytes) = some st') :
    ∃ rx' part', Inv n rx' part' st' := by
  cases hqueue : st.tx.txSduQueue with
  | nil =>
    refine ⟨rx, [], h.grant_none ?_ hstep⟩
    simp [buildDataPdu, htx, hqueue]
  | cons sdu queue =>
    simp only [Tx.GrantFits, htx, hqueue] at hgrant
    have hsdus := h.sdus
    simp only [pending, htx, hqueue, toList_none, nil_append, joinFirst_nil_left] at hsdus
    rcases hgrant with hlt | ⟨hfit, hspace⟩ | ⟨hcut, hspace, hbuf⟩
    · exact ⟨rx, [], h.grant_none (buildDataPdu_of_lt_two hlt) hstep⟩
    · have hvalid : Header.Valid { snSize := st.tx.snSize } :=
        ⟨zero_lt_of_lt h.sn_lt, Nat.two_pow_pos 16, by simp [Si.hasSo], fun _ => rfl⟩
      have hrx : rx.handleDataPdu (Header.write { snSize := st.tx.snSize } ++ sdu) =
          some { rx with delivered := rx.delivered ++ [sdu] } := by
        rw [handleDataPdu_write hvalid h.size]
        rfl
      obtain rfl := h.step_grant (buildDataPdu_full htx hqueue hspace hfit) hrx hstep
      refine ⟨_, [], rfl, h.size, h.txNext, .idle htx ?_, ?_⟩
      · exact { hidle with }
      · simp [pending, htx, hsdus]
    · set k := space nofBytes - snBytes st.tx.snSize
      have hpos := snBytes_pos st.tx.snSize
      have htake : (sdu.take k).length = k := length_take_of_le (by omega)
      have hvalid : Header.Valid ⟨.firstSegment, st.tx.snSize, st.tx.txNext, 0⟩ :=
        ⟨h.sn_lt, Nat.two_pow_pos 16, by simp [Si.hasSo], by simp⟩
      have hlen : Header.packedLength ⟨.firstSegment, st.tx.snSize, st.tx.txNext, 0⟩ =
          snBytes st.tx.snSize := by
        rfl
      obtain ⟨rx', hrx, hholds, hdel, hsize⟩ := hidle.handlePdu_first
        (⟨⟨.firstSegment, st.tx.snSize, st.tx.txNext, 0⟩,
          ⟨snBytes st.tx.snSize, sdu.take k⟩⟩) (by rw [h.txNext, h.size])
      have hdata : rx.handleDataPdu _ = _ := handleDataPdu_write hvalid h.size (sdu.take k)
      rw [hlen, hrx] at hdata
      obtain rfl := h.step_grant (buildDataPdu_first htx hqueue hspace hcut) hdata hstep
      refine ⟨rx', sdu.take k, rfl, hsize.trans h.size, h.txNext, .sending rfl ?_ ?_ ?_ hholds, ?_⟩
      · exact htake.symm
      · intro hnil
        rw [hnil] at htake
        simp at htake
        omega
      · simp [htake]
        omega
      · have hjoin : joinFirst (sdu.take k) (sdu.drop k :: queue) = sdu :: queue := by
          simp
        rw [hdel, hsdus]
        exact congrArg (rx.delivered ++ ·) hjoin.symm

theorem Inv.grant_rest (h : Inv n rx part st) {rest : List UInt8} (htx : st.tx.txSdu = some rest)
    (hso : st.tx.nextSo = part.length) (hpart : part ≠ [])
    (hfit : snBytes st.tx.snSize + part.length + rest.length ≤ emptyTailroom)
    (hholds : rx.Holds n ⟨snBytes st.tx.snSize, part⟩) (hgrant : st.tx.GrantFits nofBytes)
    (hstep : st.step (.grant nofBytes) = some st') : ∃ n' rx' part', Inv n' rx' part' st' := by
  simp only [Tx.GrantFits, htx] at hgrant
  have hpos : part.length ≠ 0 := by simpa using hpart
  have htail : emptyTailroom = 12237 := rfl
  have hsdus := h.sdus
  simp only [pending, htx, toList_some, cons_append, nil_append, joinFirst_cons] at hsdus
  have hvalid : ∀ si : Si, si.hasSo →
      Header.Valid ⟨si, st.tx.snSize, st.tx.txNext, st.tx.nextSo⟩ := by
    intro si hsi
    refine ⟨h.sn_lt, ?_, ?_, ?_⟩
    · dsimp only
      omega
    · simp [hsi, hso, hpart]
    · rintro rfl
      simp [Si.hasSo] at hsi
  rcases buildDataPdu_rest htx (hso ▸ hpos) (by omega) hgrant with
    hbuild | ⟨k, hk, hlt, hbuild⟩ | hbuild
  · exact ⟨n, rx, part, h.grant_none hbuild hstep⟩
  · have hdata := handleDataPdu_write (hvalid .neitherFirstNorLastSegment rfl) h.size (rest.take k)
    have htake : (rest.take k).length = k := length_take_of_le (by omega)
    set pdu : Pdu := ⟨⟨.neitherFirstNorLastSegment, st.tx.snSize, st.tx.txNext, st.tx.nextSo⟩,
      ⟨Header.packedLength ⟨.neitherFirstNorLastSegment, st.tx.snSize, st.tx.txNext,
        st.tx.nextSo⟩, rest.take k⟩⟩ with hpdu
    obtain ⟨rx', hrx, hholds', hdel, hsize⟩ := hholds.handlePdu_middle pdu hpart (by
        simp only [hpdu, htake]
        omega) (by rw [hpdu, h.txNext, h.size, hso])
    obtain rfl := h.step_grant hbuild (hdata.trans hrx) hstep
    refine ⟨n, rx', part ++ rest.take k, rfl, hsize.trans h.size, h.txNext,
      .sending rfl ?_ (by simp [hpart]) ?_ hholds', ?_⟩
    · simp [hso, htake]
    · simp [htake]
      omega
    · simp [pending, hdel, hsdus]
  · have hdata := handleDataPdu_write (hvalid .lastSegment rfl) h.size rest
    set pdu : Pdu := ⟨⟨.lastSegment, st.tx.snSize, st.tx.txNext, st.tx.nextSo⟩,
      ⟨Header.packedLength ⟨.lastSegment, st.tx.snSize, st.tx.txNext, st.tx.nextSo⟩, rest⟩⟩
      with hpdu
    obtain ⟨rx', hrx, hidle, hdel, hsize⟩ := hholds.handlePdu_last pdu hpart (by
        omega) (by rw [hpdu, h.txNext, h.size, hso])
    obtain rfl := h.step_grant hbuild (hdata.trans hrx) hstep
    refine ⟨n + 1, rx', [], rfl, hsize.trans h.size, ?_, .idle rfl hidle, ?_⟩
    · rw [h.txNext, mod_add_mod]
    · simp [pending, hdel, hsdus, hpdu]

theorem Inv.step (h : Inv n rx part st) {a : LinkAction} (hguard : st.GrantsFit a)
    (hstep : st.step a = some st') : ∃ n' rx' part', Inv n' rx' part' st' := by
  cases a with
  | writeSdu sdu =>
    simp only [Link.step] at hstep
    split at hstep
    · cases hstep
    · cases hstep
      exact ⟨n, rx, part, h.writeSdu sdu⟩
  | grant nofBytes =>
    have hinv := h
    cases h.agrees with
    | idle htx hrx =>
      obtain ⟨rx', part', hinv'⟩ := hinv.grant_new htx hrx hguard hstep
      exact ⟨n, rx', part', hinv'⟩
    | sending htx hso hpart hfit hrx =>
      exact hinv.grant_rest htx hso hpart hfit hrx hguard hstep
  | timerExpired =>
    -- the timer never runs
    have htimer : rx.reassemblyTimer = false := by
      cases h.agrees with
      | idle _ hrx | sending _ _ _ _ hrx => exact hrx.timer
    simp [Link.step, h.rx_eq, htimer] at hstep

end Link

/-- In every run whose grants fit, the SDUs are delivered as written. -/
theorem um_nr_delivery_exact {st : Link}
    (hst : (linkSystem.restrict Link.GrantsFit).Reachable st) : st.Exact := by
  have hinv : ∃ n rx part, Link.Inv n rx part st := by
    refine hst.restrict_invariant (fun st => ∃ n rx part, Link.Inv n rx part st) ?_ ?_
    · rintro st ⟨size, rfl⟩
      exact ⟨0, _, [], rfl, rfl, (zero_mod _).symm,
        .idle rfl ⟨rfl, (zero_mod _).symm, rfl, zero_le _, rfl, rfl⟩, rfl⟩
    · rintro st a st' ⟨n, rx, part, h⟩ hguard hstep
      exact h.step hguard hstep
  obtain ⟨n, rx, part, h⟩ := hinv
  exact h.exact

/-- A run in which an SDU is cut in three. -/
theorem um_nr_delivery_exact_of_three_segments :
    ∃ st, (linkSystem.restrict Link.GrantsFit).Reachable st ∧ st.tx.pending = [] ∧ st.Exact ∧
      st.rx.map (·.delivered) = some [[1, 2, 3, 4, 5, 6, 7], [8]] := by
  have hinit : (linkSystem.restrict Link.GrantsFit).Init
      { tx := { snSize := .size12bits }, rx := some { snSize := .size12bits } } := ⟨_, rfl⟩
  have hrun : ∃ st, (linkSystem.restrict Link.GrantsFit).Reachable st ∧
      st.tx.pending = [] ∧ st.rx.map (·.delivered) = some [[1, 2, 3, 4, 5, 6, 7], [8]] :=
    System.exists_reachable_of_run hinit
      [.writeSdu [1, 2, 3, 4, 5, 6, 7], .grant 4, .grant 1, .writeSdu [8], .grant 7, .grant 12,
        .grant 3] (by rfl)
  obtain ⟨st, hst, hpending, hdelivered⟩ := hrun
  exact ⟨st, hst, hpending, um_nr_delivery_exact hst, hdelivered⟩

/-- A grant of two bytes takes the SDU from the queue; it is then sent as a last segment without
offset, and never delivered. With 12 bits, a rest that is one byte too long for the grant is sent as
a last segment, and the SDU delivered without its last byte. -/
theorem um_nr_delivery_not_exact :
    (∃ st, linkSystem.Reachable st ∧ st.sdus = [[1, 2, 3, 4, 5]] ∧ st.tx.pending = [] ∧
      st.rx.map (·.delivered) = some []) ∧
    ∃ st, linkSystem.Reachable st ∧ st.sdus = [List.replicate 20 1] ∧
      st.rx.map (·.delivered) = some [List.replicate 19 1] := by
  constructor
  · have hinit : linkSystem.Init
        { tx := { snSize := .size6bits }, rx := some { snSize := .size6bits } } := ⟨_, rfl⟩
    exact System.exists_reachable_of_run hinit
      [.writeSdu [1, 2, 3, 4, 5], .grant 2, .grant 20] (by rfl)
  · have hinit : linkSystem.Init
        { tx := { snSize := .size12bits }, rx := some { snSize := .size12bits } } := ⟨_, rfl⟩
    exact System.exists_reachable_of_run hinit
      [.writeSdu (replicate 20 1), .grant 10, .grant 15] (by rfl)

end MbmsTx.Rlc.UmNr
