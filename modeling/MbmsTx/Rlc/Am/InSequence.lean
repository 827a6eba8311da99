import MbmsTx.Lib.Transition
import MbmsTx.Rlc.Am.DataStream

/-!
# In-sequence delivery

The data PDUs of a transmitter arrive in some order, with losses and duplicates. The receiver
numbers them modulo 1024 and accepts those in a window of 512 from the lowest one it misses. As long
as what arrives is not further away than the window is wide, a PDU in the window is told from one
before it, and the SDUs handed to PDCP are those in the PDUs before the first one that is missing
(`in_sequence_delivery`).
-/

namespace MbmsTx.Rlc.Am

open MbmsTx.Transition List Option Nat CircularMap

variable {part : List UInt8} {frames : List (Frame UInt8)} {pdus : List AmdPdu} {pdu : AmdPdu}
  {m : ℕ}

/-! ## The receiver -/

/-- The sequence number of the PDU with the absolute number `n`. -/
def snOf (n : ℕ) : ℕ := n % snMod

/-- The receiver after the PDUs `accepted` arrived, when all those before `k` are among them. Those
from `k` on wait in the window. -/
structure RxInv (frames : List (Frame UInt8)) (pdus : List AmdPdu) (accepted : List ℕ) (k : ℕ)
    (s : Rx) : Prop where
  vrR : s.vrR = snOf k
  vrMr : s.vrMr = snOf (k + windowSize)
  window : ∀ sn pdu, s.rxWindow.get? sn = some pdu ↔
    ∃ n ∈ accepted, k ≤ n ∧ snOf n = sn ∧ pdus[n]? = some pdu
  before : ∀ n < k, n ∈ accepted
  lt : ∀ n ∈ accepted, n < k + windowSize
  lt_length : ∀ n ∈ accepted, n < pdus.length
  unframe_eq : unframe (frames.take k) = (s.delivered, s.rxSdu.getD [])
  fault : s.fault = none

namespace RxInv

variable {accepted : List ℕ} {k n : ℕ} {s : Rx}

section

variable (h : RxInv frames pdus accepted k s)
include h

theorem modBase_eq : s.modBase (snOf n) = seqDist snMod (snOf k) (snOf n) := by
  have hM : snMod = 1024 := rfl
  simp only [Rx.modBase, sub32, h.vrR, seqDist, snOf, hM]
  omega

theorem insideRxWindow_iff (hlow : k ≤ n + windowSize)
    (hhigh : n < k + windowSize) : s.insideRxWindow (snOf n) ↔ k ≤ n := by
  have hM : snMod = 1024 := rfl
  have hW : windowSize = 512 := rfl
  have hmr : s.modBase s.vrMr = seqDist snMod (snOf k) (snOf (k + windowSize)) := by
    rw [h.vrMr]
    exact h.modBase_eq
  have hr : s.modBase s.vrR = seqDist snMod (snOf k) (snOf k) := by
    rw [h.vrR]
    exact h.modBase_eq
  rw [Rx.insideRxWindow, hmr, hr, h.modBase_eq]
  simp [seqDist, snOf, hM, hW] at *
  omega

omit h in
theorem eq_of_slot (hn : k ≤ n) (hn' : n < k + windowSize) (hm : k ≤ m)
    (hm' : m < k + windowSize) (hslot : snOf n % windowSize = snOf m % windowSize) : n = m := by
  have hM : snMod = 1024 := rfl
  have hW : windowSize = 512 := rfl
  simp only [snOf, hM, hW] at *
  omega

theorem contains_iff (hn : k ≤ n) (hn' : n < k + windowSize)
    (hlen : n < pdus.length) : s.rxWindow.contains (snOf n) ↔ n ∈ accepted := by
  rw [CircularMap.contains, isSome_iff_exists]
  constructor
  · rintro ⟨pdu, hpdu⟩
    obtain ⟨m, hm, hkm, hsn, -⟩ := (h.window _ _).mp hpdu
    rw [eq_of_slot hn hn' hkm (h.lt m hm) (by rw [hsn])]
    exact hm
  · intro hmem
    exact ⟨pdus[n], (h.window _ _).mpr ⟨n, hmem, hn, rfl, getElem?_eq_getElem hlen⟩⟩

theorem le_length : k ≤ pdus.length := by
  cases k with
  | zero => omega
  | succ k => exact h.lt_length k (h.before k (lt_succ_self k))

theorem edge_eq (hget : s.rxWindow.get? s.vrR = some pdu) : k ∈ accepted ∧ pdus[k]? = some pdu := by
  obtain ⟨n, hn, hkn, hsn, hpdu⟩ := (h.window _ _).mp hget
  rw [h.vrR] at hsn
  have hW : windowSize = 512 := rfl
  have heq : n = k := eq_of_slot hkn (h.lt n hn) (le_refl k) (by omega) (by rw [hsn])
  rw [heq] at hn hpdu
  exact ⟨hn, hpdu⟩

/-- One round of `reassemble_rx_sdus` moves the lower edge past a PDU. -/
theorem round (hpdus : Carried frames pdus)
    (hsdu : s.rxSdu = some part) (hget : s.rxWindow.get? s.vrR = some pdu) :
    (Rx.takePdu part pdu).rxSdu.isSome ∧
      RxInv frames pdus accepted (k + 1)
        { s with
            rxSdu := (Rx.takePdu part pdu).rxSdu
            delivered := s.delivered ++ (Rx.takePdu part pdu).sdus }.moveWindow := by
  obtain ⟨hk, hpdu⟩ := h.edge_eq hget
  have hlen := h.lt_length k hk
  obtain ⟨f, hf, hsent⟩ := hpdus.sent k pdu hpdu
  have hunframe := h.unframe_eq
  rw [hsdu, getD_some] at hunframe
  have hfit := hpdus.wellFramed k f hf
  rw [hunframe] at hfit
  have htaken := hsent.takePdu_eq hfit
  have hM : snMod = 1024 := rfl
  have hW : windowSize = 512 := rfl
  rw [htaken]
  refine ⟨rfl, ?_, ?_, ?_, ?_, ?_, h.lt_length, ?_, h.fault⟩
  · change (s.vrR + 1) % snMod = snOf (k + 1)
    rw [h.vrR, snOf, snOf, mod_add_mod]
  · change (s.vrMr + 1) % snMod = snOf (k + 1 + windowSize)
    rw [h.vrMr, snOf, snOf, mod_add_mod, add_right_comm]
  · intro sn q
    change (s.rxWindow.erase s.vrR).get? sn = some q ↔ _
    rw [get?_erase, h.vrR]
    constructor
    · intro hq
      split at hq
      · cases hq
      rename_i hne
      obtain ⟨n, hn, hkn, hsn, hnpdu⟩ := (h.window _ _).mp hq
      have hnk : n ≠ k := fun heq => hne (by rw [← hsn, heq])
      exact ⟨n, hn, by omega, hsn, hnpdu⟩
    · rintro ⟨n, hn, hkn, hsn, hnpdu⟩
      have hlt := h.lt n hn
      rw [if_neg, (h.window _ _).mpr ⟨n, hn, by omega, hsn, hnpdu⟩]
      rw [← hsn, snOf, snOf, hM]
      omega
  · intro n hn
    rcases Nat.lt_succ_iff_lt_or_eq.mp hn with hlt | rfl
    · exact h.before n hlt
    · exact hk
  · intro n hn
    have hlt := h.lt n hn
    omega
  · rw [unframe_take_succ hf, hunframe]
    rfl

/-- The loop of `reassemble_rx_sdus` moves the lower edge to the first missing PDU. -/
theorem reassembleLoop {fuel : ℕ} (hpdus : Carried frames pdus) (hsdu : s.rxSdu.isSome)
    (hm : ∀ n ∈ accepted, n < m) (hfuel : m < fuel + k) :
    ∃ k', RxInv frames pdus accepted k' (Rx.reassembleLoop fuel s) ∧ k' ∉ accepted ∧ k ≤ k' := by
  induction fuel generalizing k s with
  | zero =>
    -- every round took one of the PDUs below `m`
    have hlt := hm (k - 1) (h.before (k - 1) (by omega))
    omega
  | succ fuel ih =>
    rw [Rx.reassembleLoop]
    cases hget : s.rxWindow.get? s.vrR with
    | none =>
      refine ⟨k, h, fun hk => ?_, le_refl k⟩
      have hW : windowSize = 512 := rfl
      have hcontains := (h.contains_iff (le_refl k) (by omega) (h.lt_length k hk)).mpr hk
      rw [CircularMap.contains, ← h.vrR, hget] at hcontains
      cases hcontains
    | some pdu =>
      obtain ⟨part, hpart⟩ := isSome_iff_exists.mp hsdu
      obtain ⟨hsome, hnext⟩ := h.round hpdus hpart hget
      rw [hpart]
      obtain ⟨k', hk', hmiss, hle⟩ := ih hnext hsome (by omega)
      exact ⟨k', hk', hmiss, by omega⟩

/-- The PDU `n` arrived, and the window is one that holds it. -/
theorem arrived {w : CircularMap windowSize AmdPdu} (hlen : n < pdus.length)
    (hlt : n < k + windowSize)
    (hw : ∀ sn pdu, w.get? sn = some pdu ↔
      ∃ m ∈ n :: accepted, k ≤ m ∧ snOf m = sn ∧ pdus[m]? = some pdu) :
    RxInv frames pdus (n :: accepted) k { s with rxWindow := w } where
  vrR := h.vrR
  vrMr := h.vrMr
  window := hw
  before := fun m hm => mem_cons_of_mem _ (h.before m hm)
  lt := forall_mem_cons.mpr ⟨hlt, h.lt⟩
  lt_length := forall_mem_cons.mpr ⟨hlen, h.lt_length⟩
  unframe_eq := h.unframe_eq
  fault := h.fault

theorem again (hn : n < k ∨ n ∈ accepted) (hlen : n < pdus.length)
    (hlt : n < k + windowSize) : RxInv frames pdus (n :: accepted) k s := by
  refine h.arrived hlen hlt fun sn pdu => ?_
  rw [h.window]
  constructor
  · rintro ⟨m, hm, hrest⟩
    exact ⟨m, mem_cons_of_mem _ hm, hrest⟩
  · rintro ⟨m, hm, hkm, hrest⟩
    rcases mem_cons.mp hm with rfl | hm
    · rcases hn with hlt | hmem
      · omega
      · exact ⟨m, hmem, hkm, hrest⟩
    · exact ⟨m, hm, hkm, hrest⟩

theorem overwrite (hpdu : pdus[n]? = some pdu) (hlow : k ≤ n)
    (hhigh : n < k + windowSize) (hnew : n ∉ accepted) :
    RxInv frames pdus (n :: accepted) k
      { s with rxWindow := s.rxWindow.overwrite (snOf n) pdu } := by
  refine h.arrived (List.getElem?_eq_some_iff.mp hpdu).1 hhigh fun sn q => ?_
  rw [get?_overwrite]
  constructor
  · intro hq
    split at hq
    · next heq =>
      exact ⟨n, mem_cons_self, hlow, heq.symm, hpdu.trans hq⟩
    split at hq
    · cases hq
    · obtain ⟨m, hm, hrest⟩ := (h.window _ _).mp hq
      exact ⟨m, mem_cons_of_mem _ hm, hrest⟩
  · rintro ⟨m, hm, hkm, rfl, hmpdu⟩
    rcases mem_cons.mp hm with rfl | hm
    · rw [if_pos rfl, ← hpdu, hmpdu]
    have hslot : snOf m % windowSize ≠ snOf n % windowSize := fun heq =>
      hnew (eq_of_slot hkm (h.lt m hm) hlow hhigh heq ▸ hm)
    have hne : snOf m ≠ snOf n := fun heq => hslot (by rw [heq])
    rw [if_neg hne, if_neg hslot]
    exact (h.window _ _).mpr ⟨m, hm, hkm, rfl, hmpdu⟩

theorem receivePdu (hpdus : Carried frames pdus) (hpdu : pdus[n]? = some pdu)
    (hsn : pdu.1.sn = snOf n) (hlow : k ≤ n) (hhigh : n < k + windowSize) (hnew : n ∉ accepted) :
    ∃ k', RxInv frames pdus (n :: accepted) k' (s.receivePdu pdu) ∧
      k' ∉ n :: accepted ∧ k ≤ k' := by
  have hstored := h.overwrite hpdu hlow hhigh hnew
  obtain ⟨vrH, vrMs, poll, status, running, vrX, -, -, -, heq⟩ := s.receivePdu_eq pdu
  rw [heq, hsn]
  generalize hu : Rx.reassembleLoop _ _ = u
  have hloop : ∃ k', RxInv frames pdus (n :: accepted) k' u ∧ k' ∉ n :: accepted ∧ k ≤ k' := by
    rw [← hu]
    refine RxInv.reassembleLoop ?_ hpdus rfl hstored.lt (by omega)
    exact { hstored with }
  obtain ⟨k', hk', hmiss, hle⟩ := hloop
  exact ⟨k', { hk' with }, hmiss, hle⟩

theorem writePdu (hk : k ∉ accepted) (hpdus : Carried frames pdus) (hpdu : pdus[n]? = some pdu)
    (hlow : k ≤ n + windowSize) (hhigh : n < k + windowSize) :
    ∃ k', RxInv frames pdus (n :: accepted) k' (s.writePdu pdu) ∧ k' ∉ n :: accepted ∧ k ≤ k' ∧
      k' ≤ k + windowSize := by
  have hlen : n < pdus.length := (List.getElem?_eq_some_iff.mp hpdu).1
  obtain ⟨f, -, hsent⟩ := hpdus.sent n pdu hpdu
  have hsn : pdu.1.sn = snOf n := hsent.sn
  have hli := not_lt.mpr hsent.sum_le
  have hroom := not_lt.mpr hsent.length_le
  rw [Rx.writePdu, hsent.rf, if_neg (by simp), Rx.handleDataPdu, hsn]
  simp only [if_neg hli, if_neg hroom]
  by_cases hbefore : n < k ∨ n ∈ accepted
  · -- the PDU was received before: it is outside of the window, or stored in it
    have hdiscard : (!s.insideRxWindow (snOf n) || s.rxWindow.contains (snOf n)) := by
      by_cases hlt : n < k
      · have hout := (h.insideRxWindow_iff hlow hhigh).not.mpr (not_le.mpr hlt)
        simp [hout]
      · have hmem := hbefore.resolve_left hlt
        have hin := (h.contains_iff (not_lt.mp hlt) hhigh hlen).mpr hmem
        simp [hin]
    rw [if_pos hdiscard]
    have hagain := h.again hbefore hlen hhigh
    refine ⟨k, { hagain with }, ?_, le_refl k, le_add_right _ _⟩
    rw [mem_cons, not_or]
    refine ⟨fun heq => ?_, hk⟩
    rcases hbefore with hlt | hmem
    · omega
    · exact hk (heq ▸ hmem)
  · rw [not_or] at hbefore
    have hkn : k ≤ n := not_lt.mp hbefore.1
    have hin := (h.insideRxWindow_iff hlow hhigh).mpr hkn
    have hnew : s.rxWindow.contains (snOf n) = false := by
      rw [Bool.eq_false_iff]
      exact (h.contains_iff hkn hhigh hlen).not.mpr hbefore.2
    rw [if_neg (by simp [hin, hnew])]
    obtain ⟨k', hk', hmiss, hle⟩ := h.receivePdu hpdus hpdu hsn hkn hhigh hbefore.2
    refine ⟨k', hk', hmiss, hle, ?_⟩
    -- the last PDU that was taken lies in the old window
    by_contra hgt
    rcases mem_cons.mp (hk'.before (k' - 1) (by omega)) with heq | hmem
    · omega
    · have hlt := h.lt _ hmem
      omega

/-- The lower edge moves as far as its sequence number does. -/
theorem edge_add {arrived : List ℕ} {k' : ℕ} {t : Rx} (h' : RxInv frames pdus arrived k' t)
    (hle : k ≤ k') (hle' : k' ≤ k + windowSize) : k + seqDist snMod s.vrR t.vrR = k' := by
  have hM : snMod = 1024 := rfl
  have hW : windowSize = 512 := rfl
  rw [h.vrR, h'.vrR]
  simp only [seqDist, snOf, hM]
  omega

end

end RxInv

/-! ## Runs -/

/-- The receiver, its lower edge as a number, and the PDUs that arrived. -/
structure Receiving where
  rx : Rx := {}
  edge : ℕ := 0
  received : List ℕ := []

/-- A PDU arrives, or the reordering timer expires. -/
inductive RxEvent
  | arrive (n : ℕ)
  | expire
deriving DecidableEq

/-- The receiver of whole PDUs. -/
def receivingSystem (pdus : List AmdPdu) : System Receiving RxEvent where
  Init st := st = {}
  step st
    | .arrive n => pdus[n]?.map fun pdu =>
      { rx := st.rx.writePdu pdu
        edge := st.edge + seqDist snMod st.rx.vrR (st.rx.writePdu pdu).vrR
        received := n :: st.received }
    | .expire => some { st with rx := st.rx.timerExpired }

/-- The PDU is at most 512 before the lower edge, and less than 512 behind it. -/
def WithinWindow (st : Receiving) : RxEvent → Prop
  | .arrive n => st.edge ≤ n + windowSize ∧ n < st.edge + windowSize
  | .expire => True

instance (st : Receiving) : (event : RxEvent) → Decidable (WithinWindow st event)
  | .arrive _ => inferInstanceAs (Decidable (_ ∧ _))
  | .expire => isTrue trivial

/-- The PDUs before `k` have arrived, and the PDU `k` has not. -/
def GapFreePrefix (received : List ℕ) (k : ℕ) : Prop := (∀ n < k, n ∈ received) ∧ k ∉ received

theorem GapFreePrefix.unique {received : List ℕ} {k k' : ℕ} (h : GapFreePrefix received k)
    (h' : GapFreePrefix received k') : k = k' := by
  rcases lt_trichotomy k k' with hlt | heq | hlt
  · exact absurd (h'.1 k hlt) h.2
  · exact heq
  · exact absurd (h.1 k' hlt) h'.2

/-- The number of bytes in the first `k` PDUs. -/
def bytesBefore (pdus : List AmdPdu) (k : ℕ) : ℕ := ((pdus.take k).map fun pdu => pdu.2.length).sum

theorem Carried.bytesBefore_eq (h : Carried frames pdus) (k : ℕ) :
    bytesBefore pdus k = ((frames.take k).flatMap Frame.elements).length := by
  have hdata := congrArg (fun l => ((l.take k).map length).sum) h.data_eq
  rw [bytesBefore, length_flatMap]
  simpa [← map_take, Function.comp_def] using hdata

/-- The invariant of the receiver, at its lower edge. -/
def Receiving.Inv (frames : List (Frame UInt8)) (pdus : List AmdPdu) (st : Receiving) : Prop :=
  RxInv frames pdus st.received st.edge st.rx ∧ st.edge ∉ st.received

theorem Receiving.inv_init (frames : List (Frame UInt8)) (pdus : List AmdPdu) :
    Receiving.Inv frames pdus {} := by
  refine ⟨⟨rfl, rfl, ?_, by simp, by simp, by simp, rfl, rfl⟩, by simp⟩
  intro sn pdu
  simp [get?, empty]

theorem Receiving.Inv.step {st st' : Receiving} {event : RxEvent} (h : st.Inv frames pdus)
    (hpdus : Carried frames pdus) (hwithin : WithinWindow st event)
    (hstep : (receivingSystem pdus).step st event = some st') : st'.Inv frames pdus := by
  obtain ⟨hinv, hmiss⟩ := h
  cases event with
  | expire =>
    cases hstep
    obtain ⟨running, vrX, vrMs, status, -, -, heq⟩ := st.rx.timerExpired_eq
    refine ⟨?_, hmiss⟩
    rw [heq]
    exact { hinv with }
  | arrive n =>
    obtain ⟨pdu, hpdu, rfl⟩ := map_eq_some_iff.mp hstep
    obtain ⟨k', hk', hmiss', hle, hle'⟩ :=
      hinv.writePdu hmiss hpdus hpdu hwithin.1 hwithin.2
    rw [hinv.edge_add hk' hle hle']
    exact ⟨hk', hmiss'⟩

/-- In-sequence, exactly-once delivery: the SDUs handed to PDCP are those complete in the PDUs
before the first one that did not arrive. -/
theorem in_sequence_delivery {tx : Tx} {sdus : List (List UInt8)} {pdus : List AmdPdu}
    (hsend : SendRun tx sdus pdus) {st : Receiving}
    (hst : ((receivingSystem pdus).restrict WithinWindow).Reachable st) {k : ℕ}
    (hk : GapFreePrefix st.received k) :
    st.rx.delivered = wholeItems (bytesBefore pdus k) sdus := by
  obtain ⟨frames, hsent, hcarried⟩ := hsend.inv
  obtain ⟨hrx, hmiss⟩ : st.Inv frames pdus := by
    refine hst.restrict_invariant (Receiving.Inv frames pdus) ?_ ?_
    · rintro st rfl
      exact Receiving.inv_init frames pdus
    · intro st event st' h hwithin hstep
      exact h.step hcarried hwithin hstep
  obtain rfl := hk.unique ⟨hrx.before, hmiss⟩
  have hwhole := hsent.cut.wholeItems_take hsent.ne_nil st.edge
  rw [hrx.unframe_eq] at hwhole
  rw [hcarried.bytesBefore_eq, hwhole]

/-! ## The end of the window -/

/-- The PDU is at most 512 before or behind the lower edge. -/
def WithinOrAtEnd (st : Receiving) : RxEvent → Prop
  | .arrive n => st.edge ≤ n + windowSize ∧ n ≤ st.edge + windowSize
  | .expire => True

instance (st : Receiving) : (event : RxEvent) → Decidable (WithinOrAtEnd st event)
  | .arrive _ => inferInstanceAs (Decidable (_ ∧ _))
  | .expire => isTrue trivial

theorem SendRun.sendByte {tx : Tx} {sdus : List (List UInt8)} (h : SendRun tx sdus pdus)
    (hsdu : tx.txSdu = none) (hqueue : tx.txSduQueue = []) :
    ∃ t pdu, SendRun t (sdus ++ [[0]]) (pdus ++ [pdu]) ∧ t.txSdu = none ∧ t.txSduQueue = [] := by
  set s : Tx := { cfg := exampleTxCfg, vtS := tx.vtS }
  have hidle : SendRun s sdus pdus := h.other hsdu.symm hqueue.symm rfl
  have hroom : (s.txEnabled && decide (s.txSduQueue.length < s.cfg.txQueueLength)) := rfl
  have hwrite := @SendRun.write s sdus pdus hidle ⟨[0], 0⟩ (by decide) hroom
  set t := s.writeSdu ⟨[0], 0⟩
  have htqueue : t.txSduQueue = [some ⟨[0], 0⟩] := rfl
  have hpool : t.tracking.hasSegments := by
    change SegmentTracking.init.hasSegments
    simp [SegmentTracking.hasSegments, SegmentTracking.init, maxPoolSize]
  have hrefuses : t.refusesData 3 = false := by
    rw [Tx.refusesData, hpool, htqueue]
    rfl
  have hbuild := @Tx.buildDataPdu_firstSdu t _ _ rfl htqueue (le_refl 3) hrefuses hpool
  generalize hg : ({ (t.addPdu t.vtS).fillEmpty 3 with txSduQueue := [] } : Tx.Fill) = g at hbuild
  have hspace : g.pduSpace = min 3 (tailroom 0) ∧ g.headLen = 2 ∧ g.txSduQueue = [] := by
    rw [← hg]
    exact ⟨rfl, rfl, rfl⟩
  -- the byte of the SDU fits
  have hmove : Tx.toMove g ⟨[0], 0⟩ = 1 := by
    have htail : 3 ≤ tailroom 0 := by decide
    have hfit : ([0] : List UInt8).length ≤ g.pduSpace - g.headLen := by
      rw [hspace.1, hspace.2.1, min_eq_left htail]
      rfl
    rw [Tx.toMove, if_pos hfit]
    rfl
  have hsent : (g.addSdu t.vtS ⟨[0], 0⟩).txSdu = none := by
    change Tx.sduRest ⟨[0], 0⟩ (Tx.toMove g ⟨[0], 0⟩) = none
    rw [hmove]
    rfl
  have hfin := Tx.finished_finishData (t.addPdu t.vtS) t.txSdu.isSome (g.addSdu t.vtS ⟨[0], 0⟩)
  obtain ⟨p, hpdu⟩ :=
    Tx.finishData_snd (t.addPdu t.vtS) t.txSdu.isSome (g.addSdu t.vtS ⟨[0], 0⟩)
  rw [← hbuild] at hfin hpdu
  cases hout : t.buildDataPdu 3 with
  | mk u out =>
    rw [hout] at hfin hpdu
    subst hpdu
    exact ⟨u, _, hwrite.build hout, hfin.txSdu.trans hsent, hfin.txSduQueue.trans hspace.2.2⟩

theorem exists_sendRun (n : ℕ) :
    ∃ tx pdus, SendRun tx (replicate n [0]) pdus ∧ pdus.length = n ∧ tx.txSdu = none ∧
      tx.txSduQueue = [] := by
  induction n with
  | zero => exact ⟨_, [], SendRun.init exampleTxCfg, rfl, rfl, rfl⟩
  | succ n ih =>
    obtain ⟨tx, pdus, hrun, hlen, hsdu, hqueue⟩ := ih
    obtain ⟨t, pdu, hnext, hsdu', hqueue'⟩ := hrun.sendByte hsdu hqueue
    refine ⟨t, pdus ++ [pdu], ?_, by simp [hlen], hsdu', hqueue'⟩
    rw [replicate_succ']
    exact hnext

/-- At most 512 PDUs may arrive in any order and any number of times. -/
theorem reachable_of_few (hlen : pdus.length ≤ windowSize) (hpdus : Carried frames pdus)
    {received : List ℕ} (h : ∀ n ∈ received, n < pdus.length) :
    ∃ st, ((receivingSystem pdus).restrict WithinWindow).Reachable st ∧ st.Inv frames pdus ∧
      st.received = received := by
  induction received with
  | nil => exact ⟨{}, .init rfl, Receiving.inv_init frames pdus, rfl⟩
  | cons n received ih =>
    obtain ⟨hn, hrest⟩ := forall_mem_cons.mp h
    obtain ⟨st, hst, hinv, rfl⟩ := ih hrest
    have hedge := hinv.1.le_length
    have hwithin : WithinWindow st (.arrive n) := ⟨by omega, by omega⟩
    obtain ⟨st', hstep, hreceived⟩ : ∃ st', (receivingSystem pdus).step st (.arrive n) = some st' ∧
        st'.received = n :: st.received := by
      simp [receivingSystem, getElem?_eq_getElem hn]
    exact ⟨st', hst.step (System.step_restrict_eq_some.mpr ⟨hwithin, hstep⟩),
      hinv.step hpdus hwithin hstep, hreceived⟩

/-- Of five PDUs with an SDU of one byte each, the fourth is lost, the second arrives first, and the
last arrives twice. -/
theorem delivery_out_of_order : ∃ tx pdus st, SendRun tx (replicate 5 [0]) pdus ∧
      ((receivingSystem pdus).restrict WithinWindow).Reachable st ∧
      st.received = [4, 2, 0, 4, 1] ∧ GapFreePrefix st.received 3 ∧
      st.rx.delivered = wholeItems (bytesBefore pdus 3) (replicate 5 [0]) := by
  obtain ⟨tx, pdus, hrun, hlen, -, -⟩ := exists_sendRun 5
  obtain ⟨frames, -, hcarried⟩ := hrun.inv
  obtain ⟨st, hst, -, hreceived⟩ := reachable_of_few (by rw [hlen]; decide) hcarried
    (show ∀ n ∈ [4, 2, 0, 4, 1], n < pdus.length by rw [hlen]; decide)
  have hprefix : GapFreePrefix st.received 3 := by
    rw [hreceived]
    exact ⟨by decide, by decide⟩
  exact ⟨tx, pdus, st, hrun, hst, hreceived, hprefix, in_sequence_delivery hrun hst hprefix⟩

/-- The PDU right behind the window is discarded when it arrives first; then those before it arrive
in order, and the lower edge follows. -/
theorem reachable_without_end (hlen : windowSize < pdus.length)
    (hpdus : Carried frames pdus) (hm : m ≤ windowSize) :
    ∃ st, ((receivingSystem pdus).restrict WithinOrAtEnd).Reachable st ∧
      st.received = (range m).reverse ++ [windowSize] ∧ st.edge = m ∧
      RxInv frames pdus (range m).reverse m st.rx := by
  have hW : windowSize = 512 := rfl
  induction m with
  | zero =>
    have hpdu := getElem?_eq_getElem hlen
    obtain ⟨f, -, hend⟩ := hpdus.sent _ _ hpdu
    generalize pdus[windowSize] = pdu at hpdu hend
    have hwrite : ({} : Rx).writePdu pdu = { ({} : Rx) with doStatus := pdu.1.p } := by
      have hli := not_lt.mpr hend.sum_le
      have hout : ({} : Rx).insideRxWindow (windowSize % snMod) = false := by decide
      rw [Rx.writePdu, hend.rf, if_neg (by simp), Rx.handleDataPdu, hend.sn]
      simp [hli, hout]
    obtain ⟨hinit, -⟩ := Receiving.inv_init frames pdus
    have hstep : ((receivingSystem pdus).restrict WithinOrAtEnd).step {} (.arrive windowSize) =
        some { rx := { ({} : Rx) with doStatus := pdu.1.p }, received := [windowSize] } := by
      rw [System.step_restrict_eq_some]
      refine ⟨⟨by decide, by decide⟩, ?_⟩
      simp only [receivingSystem, hpdu, map_some, hwrite]
      rfl
    exact ⟨_, (System.Reachable.init rfl).step hstep, rfl, rfl, { hinit with }⟩
  | succ m ih =>
    obtain ⟨st, hst, hreceived, hedge, hinv⟩ := ih (by omega)
    have hpdu : pdus[m]? = some pdus[m] := getElem?_eq_getElem (by omega)
    have hrange : (range (m + 1)).reverse = m :: (range m).reverse := by
      rw [range_succ, reverse_append, reverse_singleton, singleton_append]
    obtain ⟨k', hk', hmiss, hle, hle'⟩ :=
      hinv.writePdu (by simp) hpdus hpdu (by omega) (by omega)
    rw [← hrange] at hk' hmiss
    have hkm : k' = m + 1 := by
      rw [mem_reverse, mem_range] at hmiss
      by_contra hne
      have hbefore := hk'.before (m + 1) (by omega)
      rw [mem_reverse, mem_range] at hbefore
      omega
    subst hkm
    have hstep : ((receivingSystem pdus).restrict WithinOrAtEnd).step st (.arrive m) =
        some { rx := st.rx.writePdu pdus[m]
               edge := st.edge + seqDist snMod st.rx.vrR (st.rx.writePdu pdus[m]).vrR
               received := m :: st.received } := by
      rw [System.step_restrict_eq_some]
      refine ⟨⟨by omega, by omega⟩, ?_⟩
      simp [receivingSystem, hpdu]
    refine ⟨_, hst.step hstep, ?_, ?_, hk'⟩
    · rw [hrange, hreceived, cons_append]
    · rw [hedge]
      exact hinv.edge_add hk' hle hle'

/-- A PDU 512 behind the lower edge is discarded, although it completes the PDUs that arrive after
it. -/
theorem end_of_window_skipped : ∃ tx sdus pdus st, SendRun tx sdus pdus ∧
      ((receivingSystem pdus).restrict WithinOrAtEnd).Reachable st ∧
      GapFreePrefix st.received 513 ∧
      st.rx.delivered ≠ wholeItems (bytesBefore pdus 513) sdus := by
  obtain ⟨tx, pdus, hrun, hlen, hsdu, hqueue⟩ := exists_sendRun 513
  have hW : windowSize = 512 := rfl
  obtain ⟨frames, hsent, hcarried⟩ := hrun.inv
  obtain ⟨st, hst, hreceived, -, hinv⟩ :=
    reachable_without_end (by omega) hcarried (le_refl windowSize)
  refine ⟨tx, _, pdus, st, hrun, hst, ?_, fun heq => ?_⟩
  · rw [hreceived, hW]
    constructor
    · intro n hn
      simp
      omega
    · simp
  -- all SDUs are complete in the 513 PDUs, and the first 512 of them have fewer bytes
  have hlen' : frames.length = 513 := hcarried.length_eq ▸ hlen
  have hwhole := hsent.cut.wholeItems_take hsent.ne_nil 513
  have hnil : (unframe frames).2 = [] := by
    by_contra hne
    have hsome := hsent.unfinished.mpr hne
    rw [hsdu] at hsome
    cases hsome
  rw [← hcarried.bytesBefore_eq, take_of_length_le (by omega), ← heq] at hwhole
  have hall := flatten_unframe frames
  have hfirst := flatten_unframe (frames.take windowSize)
  rw [hnil, append_nil, ← hwhole] at hall
  rw [hinv.unframe_eq] at hfirst
  dsimp only at hfirst
  have hsplit : frames = frames.take windowSize ++ [frames[windowSize]] := by
    rw [take_append_getElem, take_of_length_le (by omega)]
  have hlast := (hsent.cut.wellFramed windowSize _ (getElem?_eq_getElem (by omega))).last_ne
  have hcount := congrArg length hall
  have hcount' := congrArg length hfirst
  rw [hsplit, flatMap_append, length_append, flatMap_singleton, Frame.elements, length_append]
    at hcount
  rw [length_append] at hcount'
  have hpos := length_pos_iff.mpr hlast
  omega

end MbmsTx.Rlc.Am
