import MbmsTx.Lib.SeqNum
import MbmsTx.Lib.Transition
import MbmsTx.Rlc.Am.Codec
import MbmsTx.Rlc.Am.Rx

/-!
# Runs of the receiver

The receiver under any interleaving of byte strings from the peer, expirations of the reordering
timer and requests for a status PDU. It takes no step after a fault. In every run the PDUs in the
receive window are of the 512 sequence numbers from `vr_r` on (`windowInv`).
-/

namespace MbmsTx.Rlc.Am

open MbmsTx.Transition Option

/-- The events of a receiver. The byte strings are data PDUs or segments; one that ends before its
header is neither. -/
inductive RxAction
  | writePdu (payload : List UInt8)
  | timerExpired
  | getStatusPdu (maxPduSize : ℕ)
deriving DecidableEq

/-- The state after an event. -/
def Rx.step (s : Rx) : RxAction → Option Rx
  | .writePdu payload => (readDataPduHeader payload).map s.writePdu
  | .timerExpired => if s.reorderingRunning then some s.timerExpired else none
  | .getStatusPdu maxPduSize => some (s.getStatusPdu maxPduSize).1

/-- The runs of a receiver from its initial state. -/
def rxSystem : System Rx RxAction where
  Init s := s = {}
  step s a := if s.fault.isSome then none else s.step a

namespace Rx

variable {s s' : Rx} {a : RxAction} {pdu segment : AmdPdu}

theorem getStatusPdu_eq (s : Rx) (maxPduSize : ℕ) : ∃ poll status, s.getStatusPdu maxPduSize =
      ({ s with pollReceived := poll, doStatus := status }, s.fillStatus maxPduSize) := by
  cases h : s.fillStatus maxPduSize with
  | none => exact ⟨s.pollReceived, s.doStatus, by rw [getStatusPdu, h]⟩
  | some status => exact ⟨false, false, by rw [getStatusPdu, h, resetStatus]⟩

/-- An event brings a PDU or leaves what is stored as it is. -/
theorem step_cases (h : rxSystem.step s a = some s') :
    (∃ payload pdu, a = .writePdu payload ∧ readDataPduHeader payload = some pdu ∧
        s' = s.writePdu pdu) ∨
      ∃ running vrX vrMs poll status, (s.vrX < snMod → s.vrH < snMod → vrX < snMod) ∧
        (s.vrX < snMod → s.vrMs < snMod → vrMs < snMod) ∧
        s' = { s with
          reorderingRunning := running, vrX := vrX, vrMs := vrMs, pollReceived := poll,
          doStatus := status } := by
  obtain ⟨-, h⟩ := ite_none_left_eq_some.mp h
  cases a with
  | writePdu payload =>
    obtain ⟨pdu, hpdu, rfl⟩ := map_eq_some_iff.mp h
    exact .inl ⟨payload, pdu, rfl, hpdu, rfl⟩
  | timerExpired =>
    obtain ⟨-, h⟩ := ite_none_right_eq_some.mp h
    obtain ⟨running, vrX, vrMs, status, hvrX, hvrMs, heq⟩ := s.timerExpired_eq
    exact .inr ⟨running, vrX, vrMs, _, status, hvrX, fun h _ => hvrMs h, (some.inj h) ▸ heq⟩
  | getStatusPdu maxPduSize =>
    obtain ⟨poll, status, heq⟩ := s.getStatusPdu_eq maxPduSize
    rw [step, heq] at h
    exact .inr ⟨_, _, _, poll, status, fun h _ => h, fun _ h => h, (some.inj h).symm⟩

/-! ## Properties of the store -/

/-- The receiver when a segment has been added to its list. -/
def withSegment (s : Rx) (segment : AmdPdu) (list : List AmdPdu) : Rx :=
  { s with doStatus := s.doStatus || segment.1.p }.setSegments segment.1.sn
    (some (RxSegments.addSegmentAndCheck list segment).1)

/-- `handle_data_pdu_segment` asks for a status report or ignores the segment, starts a list, or
adds the segment to its list. -/
theorem handleDataPduSegment_cases (s : Rx) (segment : AmdPdu) :
    (∃ status, (s.handleDataPduSegment segment).1 = { s with doStatus := status }) ∨
      s.insideRxWindow segment.1.sn ∧ s.rxSegments segment.1.sn = none ∧
        (s.handleDataPduSegment segment).1 = s.startSegments segment ∨
      ∃ list, s.rxSegments segment.1.sn = some list ∧
        (s.handleDataPduSegment segment).1 =
          match (RxSegments.addSegmentAndCheck list segment).2 with
          | .incomplete => s.withSegment segment list
          | .emptyList => { s.withSegment segment list with fault := some .emptySegments }
          | .complete pdu =>
            ((s.withSegment segment list).handleDataPdu pdu).setSegments segment.1.sn none := by
  unfold Rx.handleDataPduSegment
  dsimp only
  split
  · simp
  rename_i hin
  rw [Bool.not_eq_true', Bool.not_eq_false] at hin
  split
  · exact .inl ⟨s.doStatus, rfl⟩
  · cases hlist : s.rxSegments segment.1.sn with
    | none => exact .inr (.inl ⟨hin, rfl, rfl⟩)
    | some list =>
      refine .inr (.inr ⟨list, rfl, ?_⟩)
      dsimp only [withSegment]
      generalize RxSegments.addSegmentAndCheck list segment = added
      obtain ⟨list', result⟩ := added
      cases result <;> rfl

/-- The store is the same, and the other state variables are still sequence numbers. -/
structure SameStore (s t : Rx) : Prop where
  vrR : t.vrR = s.vrR
  vrMr : t.vrMr = s.vrMr
  rxWindow : t.rxWindow = s.rxWindow
  rxSegments : t.rxSegments = s.rxSegments
  fault : t.fault = s.fault := by rfl
  vrX_lt : s.vrX < snMod → s.vrH < snMod → t.vrX < snMod := by exact fun h _ => h
  vrMs_lt : s.vrX < snMod → s.vrMs < snMod → t.vrMs < snMod := by exact fun _ h => h
  vrH_lt : s.vrH < snMod → t.vrH < snMod := by exact id

/-- `handle_data_pdu_segment` keeps a property of the store and the fault. -/
theorem handleDataPduSegment_induction {P : Rx → Prop} (h : P s)
    (hsame : ∀ {s t : Rx}, P s → s.SameStore t → P t)
    (hstart : s.insideRxWindow segment.1.sn → P (s.setSegments segment.1.sn (some [segment])))
    (hadd : ∀ list, s.rxSegments segment.1.sn = some list →
      P (s.setSegments segment.1.sn (some (RxSegments.addSegmentAndCheck list segment).1)))
    (hempty : ∀ list, s.rxSegments segment.1.sn = some list →
      (RxSegments.addSegmentAndCheck list segment).2 = .emptyList →
      P (s.withSegment segment list) →
      P { s.withSegment segment list with fault := some .emptySegments })
    (hcomplete : ∀ list pdu, s.rxSegments segment.1.sn = some list →
      (RxSegments.addSegmentAndCheck list segment).2 = .complete pdu →
      P (s.withSegment segment list) →
      P (((s.withSegment segment list).handleDataPdu pdu).setSegments segment.1.sn none)) :
    P (s.handleDataPduSegment segment).1 := by
  rcases s.handleDataPduSegment_cases segment with
    ⟨status, heq⟩ | ⟨hin, -, heq⟩ | ⟨list, hlist, heq⟩
  · rw [heq]
    exact hsame h { vrR := rfl, vrMr := rfl, rxWindow := rfl, rxSegments := rfl }
  · obtain ⟨vrH, poll, status, hlt, hstarted⟩ := s.startSegments_eq segment
    rw [heq, hstarted]
    exact hsame (hstart hin) ⟨rfl, rfl, rfl, rfl, rfl, fun h _ => h, fun _ h => h, hlt⟩
  · have hadded : P (s.withSegment segment list) :=
      hsame (hadd list hlist) { vrR := rfl, vrMr := rfl, rxWindow := rfl, rxSegments := rfl }
    rw [heq]
    cases hresult : (RxSegments.addSegmentAndCheck list segment).2 with
    | incomplete => exact hadded
    | emptyList => exact hempty list hlist hresult hadded
    | complete pdu => exact hcomplete list pdu hlist hresult hadded

/-- A property of the store that holds again when the window has moved past a PDU. -/
structure StoreInv (P : Rx → Prop) : Prop where
  same : ∀ {s t : Rx}, P s → s.SameStore t → P t
  fault : ∀ {s : Rx} fault, P s → P { s with fault := fault }
  moveWindow : ∀ {s : Rx}, P s → s.rxWindow.contains s.vrR → P s.moveWindow

section

variable {P : Rx → Prop} (hP : StoreInv P)
include hP

theorem StoreInv.reassembleLoop (h : P s) (fuel : ℕ) : P (reassembleLoop fuel s) := by
  induction fuel generalizing s with
  | zero => exact h
  | succ fuel ih =>
    rw [Rx.reassembleLoop]
    cases hget : s.rxWindow.get? s.vrR with
    | none => exact h
    | some pdu =>
      cases hsdu : s.rxSdu with
      | none =>
        have hnull := hP.fault (some .nullSdu) h
        rw [hsdu] at hnull
        exact hnull
      | some part =>
        refine ih (hP.moveWindow (hP.same h ?_) (isSome_iff_exists.mpr ⟨pdu, hget⟩))
        exact { vrR := rfl, vrMr := rfl, rxWindow := rfl, rxSegments := rfl }

theorem StoreInv.receivePdu (h : P { s with rxWindow := s.rxWindow.overwrite pdu.1.sn pdu }) :
    P (s.receivePdu pdu) := by
  obtain ⟨vrH, vrMs, poll, status, running, vrX, hvrH, hvrMs, hvrX, heq⟩ := s.receivePdu_eq pdu
  rw [heq]
  generalize hu : Rx.reassembleLoop _ _ = u at hvrX ⊢
  have hloop : P u := by
    rw [← hu]
    refine hP.reassembleLoop (hP.same h ?_) _
    exact ⟨rfl, rfl, rfl, rfl, rfl, fun h _ => h, fun _ => hvrMs, hvrH⟩
  exact hP.same hloop ⟨rfl, rfl, rfl, rfl, rfl, hvrX, fun _ h => h, id⟩

theorem StoreInv.handleDataPdu (h : P s) (hover : s.insideRxWindow pdu.1.sn → ∀ p,
    P { s with rxWindow := s.rxWindow.overwrite pdu.1.sn p }) : P (s.handleDataPdu pdu) := by
  unfold Rx.handleDataPdu
  dsimp only
  split
  · exact h
  split
  · exact hP.same h { vrR := rfl, vrMr := rfl, rxWindow := rfl, rxSegments := rfl }
  rename_i hout
  rw [Bool.or_eq_true, not_or, Bool.not_eq_true', Bool.not_eq_false] at hout
  split
  · exact hover hout.1 _
  · exact hP.receivePdu (hover hout.1 pdu)

end

/-! ## The receive window -/

/-- The state variables are sequence numbers, and the window holds PDUs of the 512 from `vr_r` on.
-/
structure WindowInv (s : Rx) : Prop where
  vrR_lt : s.vrR < snMod
  vrMr_eq : s.vrMr = (s.vrR + windowSize) % snMod
  vrX_lt : s.vrX < snMod
  vrMs_lt : s.vrMs < snMod
  vrH_lt : s.vrH < snMod
  window : ∀ sn, s.rxWindow.contains sn = true → sn < snMod ∧ seqDist snMod s.vrR sn < windowSize
  segments : ∀ sn, ∀ list ∈ s.rxSegments sn, ∀ t ∈ list, t.1.sn < snMod

theorem modBase_eq {x : ℕ} (hvrR : s.vrR < snMod) (hx : x < snMod) :
    s.modBase x = seqDist snMod s.vrR x := by
  simp only [modBase, sub32, seqDist, snMod] at *
  omega

section

variable {Q : ℕ → AmdPdu → Prop} (h : ∀ sn, ∀ list ∈ s.rxSegments sn, ∀ t ∈ list, Q sn t)
include h

theorem forall_segments_moveWindow :
    ∀ sn, ∀ list ∈ s.moveWindow.rxSegments sn, ∀ t ∈ list, Q sn t := by
  intro sn list hlist
  change list ∈ (if sn = s.vrR then (s.rxSegments sn).map fun _ => [] else s.rxSegments sn) at hlist
  split at hlist
  · obtain ⟨-, -, rfl⟩ := map_eq_some_iff.mp hlist
    simp
  · exact h sn list hlist

theorem forall_segments_setSegments {sn : ℕ} {list : Option (List AmdPdu)}
    (hlist : ∀ l ∈ list, ∀ t ∈ l, Q sn t) :
    ∀ i, ∀ l ∈ (s.setSegments sn list).rxSegments i, ∀ t ∈ l, Q i t := by
  intro i l hl
  change l ∈ (if i = sn then list else s.rxSegments i) at hl
  split at hl
  · next hi =>
    rw [hi]
    exact hlist l hl
  · exact h i l hl

end

section

variable (h : s.WindowInv)
include h

theorem WindowInv.dist_lt_of_inside {sn : ℕ} (hsn : sn < snMod)
    (hin : s.insideRxWindow sn) : seqDist snMod s.vrR sn < windowSize := by
  have hvrR := h.vrR_lt
  have hmr : s.modBase s.vrMr = windowSize := by
    rw [h.vrMr_eq]
    simp only [modBase, sub32, windowSize, snMod] at *
    omega
  rw [insideRxWindow, Bool.and_eq_true, decide_eq_true_eq, decide_eq_true_eq, hmr,
    modBase_eq h.vrR_lt hsn] at hin
  exact hin.2

theorem WindowInv.moveWindow : s.moveWindow.WindowInv where
  vrR_lt := Nat.mod_lt _ (by decide)
  vrMr_eq := by
    have hvrMr := h.vrMr_eq
    change (s.vrMr + 1) % snMod = ((s.vrR + 1) % snMod + windowSize) % snMod
    simp only [windowSize, snMod] at *
    omega
  vrX_lt := h.vrX_lt
  vrMs_lt := h.vrMs_lt
  vrH_lt := h.vrH_lt
  window := by
    intro sn hsn
    obtain ⟨hne, hsn⟩ := (CircularMap.contains_erase sn).mp hsn
    obtain ⟨hlt, hdist⟩ := h.window sn hsn
    refine ⟨hlt, ?_⟩
    change seqDist snMod (seqSucc snMod s.vrR) sn < windowSize
    rw [seqDist_seqSucc_base h.vrR_lt hlt hne]
    omega
  segments := forall_segments_moveWindow h.segments

omit h in
theorem storeInv_windowInv : StoreInv WindowInv where
  same h hsame := by
    refine ⟨?_, ?_, hsame.vrX_lt h.vrX_lt h.vrH_lt, hsame.vrMs_lt h.vrX_lt h.vrMs_lt,
      hsame.vrH_lt h.vrH_lt, ?_, ?_⟩
    · rw [hsame.vrR]
      exact h.vrR_lt
    · rw [hsame.vrR, hsame.vrMr]
      exact h.vrMr_eq
    · rw [hsame.vrR, hsame.rxWindow]
      exact h.window
    · rw [hsame.rxSegments]
      exact h.segments
  fault _ h := { h with }
  moveWindow h _ := h.moveWindow

theorem WindowInv.handleDataPdu (hsn : pdu.1.sn < snMod) : (s.handleDataPdu pdu).WindowInv := by
  refine storeInv_windowInv.handleDataPdu h fun hin p => { h with window := fun other hother => ?_ }
  rcases (CircularMap.contains_overwrite other).mp hother with rfl | ⟨-, hother⟩
  · exact ⟨hsn, h.dist_lt_of_inside hsn hin⟩
  · exact h.window other hother

theorem WindowInv.setSegments {sn : ℕ} {list : Option (List AmdPdu)}
    (hlist : ∀ l ∈ list, ∀ t ∈ l, t.1.sn < snMod) : (s.setSegments sn list).WindowInv :=
  { h with segments := forall_segments_setSegments h.segments hlist }

theorem WindowInv.handleDataPduSegment (hsn : segment.1.sn < snMod) :
    (s.handleDataPduSegment segment).1.WindowInv := by
  have hadd : ∀ list, s.rxSegments segment.1.sn = some list → _ := fun list hlist =>
    RxSegments.addSegmentAndCheck_sn (P := fun sn => sn < snMod) (h.segments _ list hlist) hsn
  refine handleDataPduSegment_induction h storeInv_windowInv.same (fun _ => ?_)
    (fun list hlist => ?_) (fun _ _ _ h => { h with }) fun list pdu hlist hpdu ht => ?_
  · refine h.setSegments fun l hl t ht => ?_
    rw [← some.inj hl, List.mem_singleton] at ht
    rw [ht]
    exact hsn
  · refine h.setSegments fun l hl => ?_
    rw [← some.inj hl]
    exact (hadd list hlist).1
  · refine WindowInv.setSegments (ht.handleDataPdu ((hadd list hlist).2 pdu hpdu)) fun l hl => ?_
    exact absurd hl (not_mem_none l)

theorem WindowInv.writePdu (hsn : pdu.1.sn < snMod) : (s.writePdu pdu).WindowInv := by
  unfold Rx.writePdu
  split
  · exact h.handleDataPduSegment hsn
  · exact h.handleDataPdu hsn

theorem WindowInv.step (hstep : rxSystem.step s a = some s') : s'.WindowInv := by
  obtain ⟨payload, pdu, rfl, hpdu, rfl⟩ | ⟨running, vrX, vrMs, poll, status, hvrX, hvrMs, rfl⟩ :=
    step_cases hstep
  · exact h.writePdu (readDataPduHeader_sn hpdu)
  · exact storeInv_windowInv.same h ⟨rfl, rfl, rfl, rfl, rfl, hvrX, hvrMs, id⟩

end

theorem windowInv_init : WindowInv {} where
  vrR_lt := by decide
  vrMr_eq := by decide
  vrX_lt := by decide
  vrMs_lt := by decide
  vrH_lt := by decide
  window := by
    simp
  segments := by
    simp

theorem windowInv (hs : rxSystem.Reachable s) : s.WindowInv := by
  have hinit : ∀ s, rxSystem.Init s → s.WindowInv := by
    rintro s rfl
    exact windowInv_init
  exact hs.invariant WindowInv hinit fun s a s' h hstep => h.step hstep

end Rx

end MbmsTx.Rlc.Am
