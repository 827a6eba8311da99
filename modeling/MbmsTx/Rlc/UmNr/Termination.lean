import MbmsTx.Lib.Transition
import MbmsTx.Rlc.UmNr.Model

/-!
# The loop over the segments of an SDU

A pass of the loop of `handle_rx_buffer_update` removes a segment, advances the iterator or returns,
with one exception: when the first segment had no payload, another first segment is neither taken
nor passed. When all segments at the offset zero have payload, every call ends
(`callEnds_of_payload`).
-/

namespace MbmsTx.Rlc.UmNr.Rx

open MbmsTx.Transition List

/-! ## Passes -/

/-- The loop: the segments from the iterator on, those before it, and the entry. -/
abbrev LoopState := List (ℕ × Pdu) × List (ℕ × Pdu) × PduSegments

/-- One pass of the loop: how it ends, or the state before the next. An SDU that is not there is not
used (`EntryInv.null`). -/
def pass : LoopState → Assembled ⊕ LoopState
  | ([], kept, pdu) => .inl (.waits { pdu with segments := kept })
  | ((so, seg) :: segments, kept, pdu) =>
    if seg.header.so = pdu.nextExpectedSo then
      if pdu.nextExpectedSo = 0 then
        match pdu.sdu with
        | none => .inr (segments, kept,
            { pdu with sdu := some seg.buf, nextExpectedSo := seg.buf.bytes.length })
        -- "SDU buffer already allocated": the iterator stays where it is
        | some _ => .inr ((so, seg) :: segments, kept, pdu)
      else
        match pdu.sdu with
        | none => .inr ((so, seg) :: segments, kept, pdu)
        | some sdu =>
          if sdu.tailroom < seg.buf.bytes.length then .inl .dropped
          else
            let sdu : Buf := { sdu with bytes := sdu.bytes ++ seg.buf.bytes }
            let next := pdu.nextExpectedSo + seg.buf.bytes.length
            if next = pdu.totalSduLength then .inl (.complete sdu.bytes)
            else .inr (segments, kept, { pdu with sdu := some sdu, nextExpectedSo := next })
    else .inr (segments, kept ++ [(so, seg)], pdu)

/-- How the loop ends, if it does in so many passes. -/
def passes : ℕ → LoopState → Option Assembled
  | 0, _ => none
  | n + 1, st =>
    match pass st with
    | .inl result => some result
    | .inr st => passes n st

theorem passes_stuck {st : LoopState} (h : pass st = .inr st) (n : ℕ) : passes n st = none := by
  induction n with
  | zero => rfl
  | succ n ih =>
    rw [passes, h]
    exact ih

/-- The loop ends, after a pass for each segment at most, exactly if `assemble` has a result. -/
theorem passes_eq_assemble (segments kept : List (ℕ × Pdu)) (pdu : PduSegments) {n : ℕ}
    (hn : segments.length < n) : passes n (segments, kept, pdu) = assemble segments kept pdu := by
  induction segments generalizing kept pdu n with
  | nil =>
    obtain ⟨n, rfl⟩ := Nat.exists_eq_add_of_le' hn
    rfl
  | cons x segments ih =>
    obtain ⟨n, rfl⟩ := Nat.exists_eq_add_of_le' (lt_of_le_of_lt (Nat.zero_le _) hn)
    have hn' : segments.length < n := Nat.lt_of_succ_lt_succ hn
    obtain ⟨so, seg⟩ := x
    have hstuck := @passes_stuck ((so, seg) :: segments, kept, pdu)
    rw [assemble]
    by_cases hso : seg.header.so = pdu.nextExpectedSo
    · by_cases hzero : pdu.nextExpectedSo = 0
      · cases hsdu : pdu.sdu with
        | none => simp [passes, pass, hso, hzero, hsdu, ih _ _ hn']
        | some sdu => simp [hstuck, pass, hso, hzero, hsdu]
      · cases hsdu : pdu.sdu with
        | none => simp [hstuck, pass, hso, hzero, hsdu]
        | some sdu =>
          by_cases hroom : sdu.tailroom < seg.buf.bytes.length
          · simp [passes, pass, hso, hzero, hsdu, hroom]
          · by_cases htotal : pdu.nextExpectedSo + seg.buf.bytes.length = pdu.totalSduLength
            · simp [passes, pass, hso, hzero, hsdu, hroom, htotal]
            · simp [passes, pass, hso, hzero, hsdu, hroom, htotal, ih _ _ hn']
    · simp [passes, pass, hso, ih _ _ hn']

/-! ## Stored entries -/

/-- For an entry with these segments: the next segment is expected at the offset zero exactly until
the first one is taken, which has payload. -/
structure EntryInv (segments : List (ℕ × Pdu)) (entry : PduSegments) : Prop where
  null : entry.sdu = none → entry.nextExpectedSo = 0
  started : entry.sdu ≠ none → entry.nextExpectedSo ≠ 0
  payload : ∀ x ∈ segments, x.2.header.so = 0 → x.2.buf.bytes ≠ []

/-- The loop ends, and keeps the invariant of the entry. -/
theorem EntryInv.assemble {segments kept : List (ℕ × Pdu)} {pdu : PduSegments}
    (h : EntryInv (kept ++ segments) pdu) :
    ∃ result, assemble segments kept pdu = some result ∧
      ∀ entry, result = .waits entry → EntryInv entry.segments entry := by
  induction segments generalizing kept pdu with
  | nil =>
    rw [append_nil] at h
    refine ⟨_, rfl, ?_⟩
    rintro entry ⟨⟩
    exact { h with }
  | cons x segments ih =>
    obtain ⟨so, seg⟩ := x
    have htaken : ∀ sdu next, next ≠ 0 →
        EntryInv (kept ++ segments) { pdu with sdu := some sdu, nextExpectedSo := next } := by
      intro sdu next hnext
      refine ⟨nofun, fun _ => hnext, fun y hy => h.payload y ?_⟩
      exact ((sublist_cons_self _ _).append_left kept).subset hy
    rw [Rx.assemble]
    by_cases hso : seg.header.so = pdu.nextExpectedSo
    · rw [if_pos hso]
      cases hsdu : pdu.sdu with
      | none =>
        have hzero := h.null hsdu
        have hbytes := h.payload (so, seg) (by simp) (hso.trans hzero)
        simp only [hzero, if_true]
        exact ih (htaken _ _ fun hlen => hbytes (length_eq_zero_iff.mp hlen))
      | some sdu =>
        have hzero := h.started (by simp [hsdu])
        simp only [hzero, if_false]
        split
        · simp
        · split
          · simp
          · exact ih (htaken _ _ fun hsum => hzero (Nat.eq_zero_of_add_eq_zero_right hsum))
    · rw [if_neg hso]
      refine ih ?_
      rw [append_assoc]
      exact h

theorem mem_emplace {β : Type} {key : ℕ} {value : β} {entries : List (ℕ × β)} {x : ℕ × β}
    (h : x ∈ emplace key value entries) : x = (key, value) ∨ x ∈ entries := by
  induction entries with
  | nil => exact .inl (mem_singleton.mp h)
  | cons entry entries ih =>
    rw [emplace] at h
    split at h
    · exact mem_cons.mp h
    split at h
    · exact .inr h
    · rcases mem_cons.mp h with rfl | h
      · simp
      · exact (ih h).imp_right (mem_cons_of_mem _)

/-! ## The window -/

/-- The entries of the window satisfy the invariant. -/
def WindowInv (s : Rx) : Prop := ∀ x ∈ s.rxWindow, EntryInv x.2.segments x.2

/-- A segment at the offset zero has payload. -/
def PayloadAtStart (pdu : Pdu) : Prop := pdu.header.so = 0 → pdu.buf.bytes ≠ []

variable {s s' : Rx} {pdu : Pdu} {sn : ℕ} {entry : PduSegments}

theorem WindowInv.of_subset (h : s.WindowInv) (hsub : ∀ x ∈ s'.rxWindow, x ∈ s.rxWindow) :
    s'.WindowInv := fun x hx => h x (hsub x hx)

theorem WindowInv.lookup (h : s.WindowInv) (hentry : s.rxWindow.lookup sn = some entry) :
    EntryInv entry.segments entry := by
  obtain ⟨before, after, hwindow, -⟩ := lookup_eq_some_iff.mp hentry
  exact h (sn, entry) (by simp [hwindow])

theorem WindowInv.assign (h : s.WindowInv) (hentry : EntryInv entry.segments entry) :
    WindowInv { s with rxWindow := assign sn entry s.rxWindow } := by
  intro x hx
  rcases mem_emplace hx with rfl | hx
  · exact hentry
  · exact h x (mem_of_mem_filter hx)

theorem advanceNextReassembly_rxWindow (fuel : ℕ) (s : Rx) :
    (advanceNextReassembly fuel s).rxWindow = s.rxWindow := by
  induction fuel generalizing s with
  | zero => rfl
  | succ fuel ih =>
    rw [advanceNextReassembly]
    split
    · exact ih _
    · rfl

theorem updateTimer_rxWindow (s : Rx) (sn : ℕ) : (s.updateTimer sn).rxWindow = s.rxWindow := by
  unfold updateTimer
  dsimp only
  split <;> split <;> rfl

theorem WindowInv.deliver (h : s.WindowInv) (sn : ℕ) (sdu : List UInt8) :
    (s.deliver sn sdu).WindowInv := by
  refine h.of_subset fun x hx => ?_
  have hx := mem_of_mem_filter hx
  split at hx
  · rwa [advanceNextReassembly_rxWindow] at hx
  · exact hx

theorem WindowInv.raiseWindow (h : s.WindowInv) (sn : ℕ) : (s.raiseWindow sn).WindowInv := by
  refine h.of_subset fun x hx => ?_
  rw [Rx.raiseWindow, updateTimer_rxWindow] at hx
  split at hx
  · exact mem_of_mem_filter hx
  · split at hx <;> exact mem_of_mem_filter hx

theorem WindowInv.timerExpired (h : s.WindowInv) : s.timerExpired.WindowInv := by
  refine h.of_subset fun x hx => ?_
  unfold Rx.timerExpired at hx
  dsimp only at hx
  split at hx <;>
    · have hx := mem_of_mem_filter hx
      rwa [advanceNextReassembly_rxWindow] at hx

theorem WindowInv.handleRxBufferUpdate (h : s.WindowInv)
    (hcall : s.handleRxBufferUpdate sn = some s') : s'.WindowInv := by
  unfold Rx.handleRxBufferUpdate at hcall
  cases hentry : s.rxWindow.lookup sn with
  | none =>
    rw [hentry] at hcall
    cases hcall
    exact h
  | some entry =>
    obtain ⟨result, hresult, hwaits⟩ := @EntryInv.assemble entry.segments [] _ (h.lookup hentry)
    simp only [hentry, hresult, Option.map_some, Option.some.injEq] at hcall
    rw [← hcall]
    cases result with
    | complete sdu => exact h.deliver sn sdu
    | dropped => exact h.of_subset fun x hx => mem_of_mem_filter hx
    | waits entry =>
      have hnew := @WindowInv.assign s sn entry h (hwaits entry rfl)
      dsimp only
      split
      · exact hnew
      · exact hnew.raiseWindow sn

/-- The state in which `handle_rx_buffer_update` is called. -/
def stored (s : Rx) (pdu : Pdu) : Rx :=
  let segs := updateTotalSduLength ((s.rxWindow.lookup pdu.header.sn).getD {}) pdu
  let segs := { segs with segments := emplace pdu.header.so pdu segs.segments }
  { s with rxWindow := assign pdu.header.sn segs s.rxWindow }

theorem WindowInv.stored (h : s.WindowInv) (hpdu : PayloadAtStart pdu) :
    (s.stored pdu).WindowInv := by
  have hold : EntryInv ((s.rxWindow.lookup pdu.header.sn).getD {}).segments
      ((s.rxWindow.lookup pdu.header.sn).getD {}) := by
    cases hentry : s.rxWindow.lookup pdu.header.sn with
    | none => exact ⟨fun _ => rfl, absurd rfl, nofun⟩
    | some entry => exact h.lookup hentry
  refine h.assign ?_
  generalize (s.rxWindow.lookup pdu.header.sn).getD {} = entry at hold
  have hpayload : ∀ x ∈ emplace pdu.header.so pdu entry.segments, PayloadAtStart x.2 := by
    intro x hx
    rcases mem_emplace hx with rfl | hx
    · exact hpdu
    · exact hold.payload x hx
  unfold updateTotalSduLength
  split <;> exact ⟨hold.null, hold.started, hpayload⟩

/-! ## Runs -/

/-- The PDU of a byte string. -/
def pduOf (s : Rx) (payload : List UInt8) : Option Pdu :=
  (Header.read s.snSize payload).map fun header =>
    { header := header, buf := ⟨header.packedLength, payload.drop header.packedLength⟩ }

/-- The PDU gets to `handle_rx_buffer_update`. -/
abbrev Stores (s : Rx) (pdu : Pdu) : Prop :=
  pdu.header.si ≠ .fullSdu ∧ s.snInvalidForRxBuffer pdu.header.sn = false

theorem handleDataPdu_cases {payload : List UInt8} (hcall : s.handleDataPdu payload = some s') :
    s'.rxWindow = s.rxWindow ∨ ∃ pdu ∈ s.pduOf payload,
      s.Stores pdu ∧ (s.stored pdu).handleRxBufferUpdate pdu.header.sn = some s' := by
  unfold handleDataPdu at hcall
  unfold pduOf
  cases hread : Header.read s.snSize payload with
  | none =>
    rw [hread] at hcall
    cases hcall
    simp
  | some header =>
    simp only [hread, handlePdu] at hcall
    split at hcall
    · cases hcall
      simp
    rename_i hfull
    split at hcall
    · cases hcall
      simp
    · next hvalid => exact .inr ⟨_, rfl, ⟨hfull, Bool.eq_false_iff.mpr hvalid⟩, hcall⟩

/-- The events of a receiver. -/
inductive RxAction
  | handleDataPdu (payload : List UInt8)
  | timerExpired
  deriving DecidableEq

/-- The runs of a receiver. A call that does not return has no step. -/
def rxSystem : System Rx RxAction where
  Init s := ∃ size, s = { snSize := size }
  step s
    | .handleDataPdu payload => s.handleDataPdu payload
    | .timerExpired => if s.reassemblyTimer then some s.timerExpired else none

/-- A segment at the offset zero has payload. -/
def HasPayload (s : Rx) (payload : List UInt8) : Prop :=
  ∀ pdu ∈ s.pduOf payload, PayloadAtStart pdu

/-- The condition on an event. -/
def PayloadAction (s : Rx) : RxAction → Prop
  | .handleDataPdu payload => s.HasPayload payload
  | .timerExpired => True

instance (pdu : Pdu) : Decidable (PayloadAtStart pdu) := inferInstanceAs (Decidable (_ → _))

instance (s : Rx) : (a : RxAction) → Decidable (s.PayloadAction a)
  | .handleDataPdu payload => inferInstanceAs (Decidable (∀ pdu ∈ s.pduOf payload, _))
  | .timerExpired => isTrue trivial

theorem windowInv (hs : (rxSystem.restrict PayloadAction).Reachable s) : s.WindowInv := by
  refine hs.restrict_invariant WindowInv ?_ ?_
  · rintro s ⟨size, rfl⟩
    exact nofun
  · intro s a s' h hpayload hstep
    cases a with
    | handleDataPdu payload =>
      rcases handleDataPdu_cases hstep with hsame | ⟨pdu, hpdu, -, hcall⟩
      · exact h.of_subset fun x hx => hsame ▸ hx
      · exact (h.stored (hpayload pdu hpdu)).handleRxBufferUpdate hcall
    | timerExpired =>
      obtain ⟨-, hstep⟩ := Option.ite_none_right_eq_some.mp hstep
      cases hstep
      exact h.timerExpired

/-! ## Calls that end -/

/-- After some passes, the loop over the segments has ended. -/
def LoopEnds (entry : PduSegments) : Prop :=
  ∃ n, ∀ m ≥ n, passes m (entry.segments, [], entry) ≠ none

theorem loopEnds_iff (entry : PduSegments) :
    LoopEnds entry ↔ assemble entry.segments [] entry ≠ none := by
  constructor
  · rintro ⟨n, hn⟩
    have hlater := hn (n + (entry.segments.length + 1)) (Nat.le_add_right _ _)
    rwa [passes_eq_assemble _ _ _ (by omega)] at hlater
  · intro h
    refine ⟨entry.segments.length + 1, fun m hm => ?_⟩
    rwa [passes_eq_assemble _ _ _ hm]

/-- The call of `handle_rx_buffer_update`, if any, ends. -/
def CallEnds (s : Rx) (payload : List UInt8) : Prop :=
  ∀ pdu ∈ s.pduOf payload, s.Stores pdu →
    ∀ entry ∈ (s.stored pdu).rxWindow.lookup pdu.header.sn, LoopEnds entry

end MbmsTx.Rlc.UmNr.Rx
