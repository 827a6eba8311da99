import MbmsTx.Rlc.Am.RxFaults

/-!
# The store of the receiver

Whole PDUs wait in the receive window, segments in lists by sequence number. The window moves past
an SN when the PDU is there as a whole; a list that is there as well is cleared, but its key stays
behind and meets the PDU that uses the SN next. In the runs in which an SN has only one of the two,
the keys are SNs of the window and no list is empty (`storeInside_of_soundAction`).

A PDU that is not taken leaves the store as it was, unless it is larger than a buffer: by then its
SN has been entered (`handleDataPdu_leaves_no_trace_iff`).
-/

namespace MbmsTx.Rlc.Am.Rx

open MbmsTx.Transition Option CircularMap

variable {s s' : Rx} {i sn : ℕ} {pdu segment : AmdPdu} {a : RxAction} {G : List AmdPdu → Prop}

/-! ## The list of one SN -/

/-- An SN with a list of segments is of the window, has no PDU in the window, and the list satisfies
`G`. -/
structure Stored (G : List AmdPdu → Prop) (s : Rx) (i : ℕ) : Prop where
  vrR_lt : s.vrR < snMod
  list : ∀ list ∈ s.rxSegments i, G list ∧ i < snMod ∧ seqDist snMod s.vrR i < windowSize ∧
    s.rxWindow.contains i = false

section

variable (h : s.Stored G i)
include h

theorem Stored.moveWindow (hvrR : s.rxWindow.contains s.vrR) : s.moveWindow.Stored G i where
  vrR_lt := Nat.mod_lt _ (by decide)
  list := by
    intro list hlist
    change list ∈ (if i = s.vrR then (s.rxSegments i).map fun _ => [] else s.rxSegments i) at hlist
    split at hlist
    · next hi =>
      -- the PDU that the window passes has no list
      obtain ⟨before, hbefore, -⟩ := map_eq_some_iff.mp hlist
      obtain ⟨-, -, -, hfree⟩ := h.list before hbefore
      rw [hi, hvrR] at hfree
      cases hfree
    · next hne =>
      obtain ⟨hG, hlt, hdist, hfree⟩ := h.list list hlist
      refine ⟨hG, hlt, ?_, ?_⟩
      · change seqDist snMod (seqSucc snMod s.vrR) i < windowSize
        rw [seqDist_seqSucc_base h.vrR_lt hlt hne]
        omega
      · rw [← Bool.not_eq_true] at hfree ⊢
        exact fun hin => hfree ((contains_erase i).mp hin).2

omit h in
theorem storeInv_stored : StoreInv (Stored G · i) where
  same h hsame := by
    refine ⟨?_, ?_⟩
    · rw [hsame.vrR]
      exact h.vrR_lt
    · rw [hsame.vrR, hsame.rxWindow, hsame.rxSegments]
      exact h.list
  fault _ h := { h with }
  moveWindow h := h.moveWindow

theorem Stored.handleDataPdu (hnew : i = pdu.1.sn → s.rxSegments i = none) :
    (s.handleDataPdu pdu).Stored G i := by
  refine storeInv_stored.handleDataPdu h fun _ p => ⟨h.vrR_lt, fun list hlist => ?_⟩
  obtain ⟨hG, hlt, hdist, hfree⟩ := h.list list hlist
  refine ⟨hG, hlt, hdist, ?_⟩
  rw [← Bool.not_eq_true] at hfree ⊢
  intro hin
  rcases (contains_overwrite i).mp hin with hi | ⟨-, hin⟩
  · rw [mem_def, hnew hi] at hlist
    cases hlist
  · exact hfree hin

omit h in
theorem vrR_lt_handleDataPdu (h : s.vrR < snMod) : (s.handleDataPdu pdu).vrR < snMod := by
  have hinv : StoreInv fun s => s.vrR < snMod :=
    ⟨fun h hsame => hsame.vrR ▸ h, fun _ h => h, fun _ _ => Nat.mod_lt _ (by decide)⟩
  exact hinv.handleDataPdu h fun _ _ => h

theorem Stored.setSegments_ne {lists : Option (List AmdPdu)} (hne : i ≠ sn) :
    (s.setSegments sn lists).Stored G i where
  vrR_lt := h.vrR_lt
  list := by
    intro list hlist
    change list ∈ (if i = sn then lists else s.rxSegments i) at hlist
    rw [if_neg hne] at hlist
    exact h.list list hlist

theorem Stored.setSegments_some {list : List AmdPdu} (hG : G list) (hlt : i < snMod)
    (hdist : seqDist snMod s.vrR i < windowSize)
    (hfree : s.rxWindow.contains i = false) : (s.setSegments i (some list)).Stored G i where
  vrR_lt := h.vrR_lt
  list := by
    intro l hl
    change l ∈ (if i = i then some list else s.rxSegments i) at hl
    rw [if_pos rfl, mem_def, some.injEq] at hl
    rw [← hl]
    exact ⟨hG, hlt, hdist, hfree⟩

theorem Stored.handleDataPduSegment (hwindow : s.WindowInv)
    (hlists : ∀ list ∈ s.rxSegments segment.1.sn, ∀ t ∈ list, t.1.sn = segment.1.sn)
    (hsn : segment.1.sn < snMod) (hfree : s.rxWindow.contains segment.1.sn = false)
    (hG : i = segment.1.sn → G [segment] ∧
      ∀ list, G list → G (RxSegments.addSegmentAndCheck list segment).1) :
    (s.handleDataPduSegment segment).1.Stored G i := by
  refine handleDataPduSegment_induction h storeInv_stored.same (fun hin => ?_)
    (fun list hlist => ?_) (fun _ _ _ h => { h with }) fun list pdu hlist hpdu ht => ?_
  · by_cases hi : i = segment.1.sn
    · have hdist := hwindow.dist_lt_of_inside hsn hin
      rw [← hi] at hdist hsn hfree ⊢
      exact h.setSegments_some (hG hi).1 hsn hdist hfree
    · exact h.setSegments_ne hi
  · by_cases hi : i = segment.1.sn
    · rw [← hi] at hlist ⊢
      obtain ⟨hold, hlt, hdist, hfree⟩ := h.list list hlist
      exact h.setSegments_some ((hG hi).2 list hold) hlt hdist hfree
    · exact h.setSegments_ne hi
  · by_cases hi : i = segment.1.sn
    · -- the list is erased after the call
      refine ⟨vrR_lt_handleDataPdu ht.vrR_lt, fun l hl => ?_⟩
      change l ∈ (if i = segment.1.sn then none else _) at hl
      rw [if_pos hi] at hl
      cases hl
    · obtain ⟨-, hcomplete⟩ :=
        RxSegments.addSegmentAndCheck_sn (P := fun n => n = segment.1.sn) (hlists list hlist) rfl
      refine (ht.handleDataPdu fun hsn => ?_).setSegments_ne hi
      exact absurd (hsn.trans (hcomplete pdu hpdu)) hi

/-! ## Runs -/

/-- The condition on what is received: a whole PDU without a list of its SN, or a segment without a
PDU of its SN in the window that is not empty at the offset zero. -/
abbrev StoresSoundly (s : Rx) (pdu : AmdPdu) : Prop :=
  if pdu.1.rf then s.rxWindow.contains pdu.1.sn = false ∧ ¬ (pdu.1.so = 0 ∧ pdu.2 = [])
  else (s.rxSegments pdu.1.sn).isNone

/-- The condition on an event. -/
def SoundAction (s : Rx) : RxAction → Prop
  | .writePdu payload => ∀ pdu ∈ readDataPduHeader payload, s.StoresSoundly pdu
  | _ => True

instance (s : Rx) : (a : RxAction) → Decidable (s.SoundAction a)
  | .writePdu payload => inferInstanceAs (Decidable (∀ pdu ∈ readDataPduHeader payload, _))
  | .timerExpired | .getStatusPdu _ => isTrue trivial

/-- What is known of the list of an SN. -/
def ListOf (i : ℕ) (list : List AmdPdu) : Prop :=
  list ≠ [] ∧ ∀ t ∈ list, t.1.sn = i ∧ ¬ (t.1.so = 0 ∧ t.2 = [])

theorem Stored.step (hwindow : s.WindowInv) (hlists : ∀ sn, s.Stored (ListOf sn) sn)
    (hsound : s.SoundAction a) (hstep : rxSystem.step s a = some s')
    (hG : ∀ payload segment, a = .writePdu payload → readDataPduHeader payload = some segment →
      segment.1.rf → ¬ (segment.1.so = 0 ∧ segment.2 = []) → i = segment.1.sn →
      G [segment] ∧ ∀ list, G list → G (RxSegments.addSegmentAndCheck list segment).1) :
    s'.Stored G i := by
  obtain ⟨payload, pdu, rfl, hpdu, rfl⟩ | ⟨running, vrX, vrMs, poll, status, -, -, rfl⟩ :=
    step_cases hstep
  · have hpdu' := hsound pdu hpdu
    unfold StoresSoundly at hpdu'
    unfold Rx.writePdu
    split
    · next hrf =>
      rw [if_pos hrf] at hpdu'
      refine h.handleDataPduSegment hwindow (fun list hlist t ht => ?_)
        (readDataPduHeader_sn hpdu) hpdu'.1 (hG payload pdu rfl hpdu hrf hpdu'.2)
      exact (((hlists _).list list hlist).1.2 t ht).1
    · next hrf =>
      rw [if_neg hrf, isNone_iff_eq_none] at hpdu'
      exact h.handleDataPdu fun hi => by rw [hi]; exact hpdu'
  · exact { h with }

end

/-- The keys are SNs of the window, and every list has a segment. -/
structure StoreInside (s : Rx) : Prop where
  window : ∀ sn, s.rxWindow.contains sn = true → sn < snMod ∧ seqDist snMod s.vrR sn < windowSize
  segments : ∀ sn, ∀ list ∈ s.rxSegments sn, sn < snMod ∧ seqDist snMod s.vrR sn < windowSize ∧
    list ≠ []

theorem stored_of_reachable (hs : (rxSystem.restrict SoundAction).Reachable s) :
    s.WindowInv ∧ ∀ sn, s.Stored (ListOf sn) sn := by
  refine hs.restrict_invariant (fun s => s.WindowInv ∧ ∀ sn, s.Stored (ListOf sn) sn) ?_ ?_
  · rintro s rfl
    refine ⟨windowInv_init, fun sn => ⟨by decide, fun list hlist => ?_⟩⟩
    exact absurd hlist (not_mem_none list)
  · rintro s a s' ⟨hwindow, hlists⟩ hsound hstep
    refine ⟨hwindow.step hstep, fun sn => ?_⟩
    refine (hlists sn).step hwindow hlists hsound hstep ?_
    rintro payload segment - - - hsegment rfl
    refine ⟨⟨by simp, fun t ht => ?_⟩, fun list hlist => ?_⟩
    · rw [List.mem_singleton.mp ht]
      exact ⟨rfl, hsegment⟩
    · obtain ⟨hne, hmem, -⟩ := addSegmentAndCheck_safe hlist.2 rfl hsegment
      exact ⟨hne, hmem⟩

/-- The event brings a segment of the SN. -/
def BringsSegment (sn : ℕ) (a : RxAction) : Prop :=
  ∃ payload segment, a = .writePdu payload ∧ readDataPduHeader payload = some segment ∧
    segment.1.rf = true ∧ sn = segment.1.sn

theorem rxSegments_eq_none_of_run {actions : List RxAction}
    (hs : (rxSystem.restrict SoundAction).Reachable s) (hnone : s.rxSegments sn = none)
    (hactions : ∀ a ∈ actions, ¬ BringsSegment sn a)
    (hrun : (rxSystem.restrict SoundAction).run s actions = some s') :
    s'.rxSegments sn = none := by
  induction actions generalizing s with
  | nil =>
    cases hrun
    exact hnone
  | cons a actions ih =>
    obtain ⟨t, ht, hrun⟩ := bind_eq_some_iff.mp hrun
    obtain ⟨hwindow, hlists⟩ := stored_of_reachable hs
    obtain ⟨hsound, hstep⟩ := System.step_restrict_eq_some.mp ht
    have hfirst : s.Stored (fun _ => False) sn :=
      ⟨hwindow.vrR_lt, fun list hlist => by rw [hnone] at hlist; cases hlist⟩
    have hnext := hfirst.step hwindow hlists hsound hstep
      fun payload segment ha hsegment hrf _ hsn =>
        absurd ⟨payload, segment, ha, hsegment, hrf, hsn⟩ (hactions a List.mem_cons_self)
    refine ih (hs.step ht) ?_ (fun b hb => hactions b (List.mem_cons_of_mem _ hb)) hrun
    exact eq_none_iff_forall_not_mem.mpr fun list hlist => (hnext.list list hlist).1

/-- Why `handle_data_pdu` does not take a PDU. -/
def Rejects (s : Rx) (pdu : AmdPdu) : Prop :=
  pdu.2.length < pdu.1.li.sum ∨ s.insideRxWindow pdu.1.sn = false ∨
    s.rxWindow.contains pdu.1.sn = true ∨ tailroom 0 < pdu.2.length

/-- Nothing but `do_status` differs. -/
def NoTrace (s s' : Rx) : Prop := ∃ status, s' = { s with doStatus := status }

/-- A PDU that is not taken leaves no trace, unless its size is the only reason. -/
theorem handleDataPdu_leaves_no_trace_iff (s : Rx) (pdu : AmdPdu) :
    (s.Rejects pdu → s.NoTrace (s.handleDataPdu pdu)) ↔
      (pdu.2.length < pdu.1.li.sum ∨ s.insideRxWindow pdu.1.sn = false ∨
        s.rxWindow.contains pdu.1.sn = true ∨ pdu.2.length ≤ tailroom 0) := by
  unfold Rx.handleDataPdu Rejects
  by_cases hli : pdu.2.length < pdu.1.li.sum
  · rw [if_pos hli]
    exact ⟨fun _ => .inl hli, fun _ _ => ⟨s.doStatus, rfl⟩⟩
  rw [if_neg hli]
  by_cases hskip : (!s.insideRxWindow pdu.1.sn || s.rxWindow.contains pdu.1.sn)
  · rw [if_pos hskip]
    rw [Bool.or_eq_true, Bool.not_eq_true'] at hskip
    exact ⟨fun _ => .inr (hskip.imp_right Or.inl), fun _ _ => ⟨_, rfl⟩⟩
  rw [if_neg hskip]
  rw [Bool.or_eq_true, Bool.not_eq_true', not_or] at hskip
  by_cases hsize : tailroom 0 < pdu.2.length
  · -- the SN is in the window now
    rw [if_pos hsize]
    have htrace : ¬ s.NoTrace { s with rxWindow := s.rxWindow.overwrite pdu.1.sn ({}, []) } := by
      rintro ⟨status, heq⟩
      have hin : (s.rxWindow.overwrite pdu.1.sn ({}, [])).contains pdu.1.sn :=
        (contains_overwrite _).mpr (.inl rfl)
      rw [show s.rxWindow.overwrite pdu.1.sn ({}, []) = s.rxWindow from
        congrArg Rx.rxWindow heq] at hin
      exact hskip.2 hin
    simp [hli, hskip.1, hskip.2, hsize, htrace]
  · simp [hli, hskip.1, hskip.2, hsize, Nat.le_of_not_lt hsize]

/-- A PDU of one byte more than a buffer has room for. -/
theorem not_noTrace_oversized : let pdu : AmdPdu := ({}, List.replicate (tailroom 0 + 1) 0)
    Rejects {} pdu ∧ ¬ NoTrace {} (handleDataPdu {} pdu) := by
  have hsize : tailroom 0 < (List.replicate (tailroom 0 + 1) (0 : UInt8)).length := by
    simp
  refine ⟨.inr (.inr (.inr hsize)), ?_⟩
  rintro ⟨status, heq⟩
  have hin := congrArg (fun s => s.rxWindow.contains 0) heq
  rw [handleDataPdu, if_neg (by simp), if_neg (by decide), if_pos hsize] at hin
  have hnew : ((empty windowSize AmdPdu).overwrite 0 ({}, [])).contains 0 :=
    (contains_overwrite 0).mpr (.inl rfl)
  exact Bool.false_ne_true (hin.symm.trans hnew)

end MbmsTx.Rlc.Am.Rx
