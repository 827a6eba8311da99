import Mathlib.Data.Finset.Option
import MbmsTx.Rlc.Am.TxLifecycle

/-!
# The list of buffered SDUs

`buffered_pdcp_pdu_list` counts its entries by hand. `clear_pdcp_sdu` clears the place of an SN,
which may hold another SN with the same remainder, and `clear` forgets the place of the status
reports. In runs without these two cases the count is right (`bookkeeping_of_reachable`).
-/

namespace MbmsTx.Rlc.Am

open Transition SegmentTracking Option Finset

/-- The calls of the list. -/
inductive ListOp
  | add (sn : ℕ)
  | clearSdu (sn : ℕ)
  | clear

/-- An SN that the list accepts. -/
def ValidSn (sn : ℕ) : Prop := sn ≤ 262143 ∨ sn = statusReportSn

instance (sn : ℕ) : Decidable (ValidSn sn) := inferInstanceAs (Decidable (_ ∨ _))

/-- Calls with valid SNs; only SNs not in the list are added. -/
def sduListSystem : System SegmentTracking ListOp where
  Init t := t = init
  step t
    | .add sn => if ValidSn sn ∧ t.hasPdcpSn sn = false then some (t.addPdcpSdu sn) else none
    | .clearSdu sn => if ValidSn sn then some (t.clearPdcpSdu sn) else none
    | .clear => some t.clear

/-- The places with an entry. -/
def validPlaces (t : SegmentTracking) : Finset (Option ℕ) :=
  (Finset.insertNone (Finset.range pdcpBufferSize)).filter fun i => (t.pdus i).sn.isSome

/-- What a call must leave. -/
def ListOp.Kept (t t' : SegmentTracking) : ListOp → Prop
  | .add _ => True
  | .clearSdu sn => ∀ sn' ≠ sn, t.hasPdcpSn sn' = true → t'.hasPdcpSn sn' = true
  | .clear => ∀ sn, t'.hasPdcpSn sn = false

/-- A call removes what it should: the place to be cleared holds no other SN, and there is no status
report when everything is cleared. -/
def ListOp.OwnPlace (t : SegmentTracking) : ListOp → Prop
  | .add _ => True
  | .clearSdu sn => (t.pdus (pduIndex sn)).sn = none ∨ (t.pdus (pduIndex sn)).sn = some sn
  | .clear => (t.pdus none).sn = none

instance (t : SegmentTracking) (op : ListOp) : Decidable (op.OwnPlace t) := by
  cases op <;> unfold ListOp.OwnPlace <;> infer_instance

section Steps

variable (t : SegmentTracking) (sn : ℕ) (i : Option ℕ)

theorem pduIndex_mem_places : pduIndex sn ∈ insertNone (Finset.range pdcpBufferSize) := by
  rw [mem_insertNone, pduIndex]
  intro a ha
  split at ha
  · cases ha
  · obtain rfl := mem_some_iff.mp ha
    exact mem_range.mpr (Nat.mod_lt sn (by decide))

theorem sn_clearPdcpSdu :
    ((t.clearPdcpSdu sn).pdus i).sn = if i = pduIndex sn then none else (t.pdus i).sn := by
  rw [clearPdcpSdu]
  split
  · change ((t.clearPdu sn).pdus i).sn = _
    rw [(cleared_clearPdu t sn).pdus]
    split <;> rfl
  rename_i hnone
  split
  · next hi => rwa [hi, ← not_isSome_iff_eq_none]
  · rfl

theorem sn_addPdcpSdu :
    ((t.addPdcpSdu sn).pdus i).sn = if i = pduIndex sn then some sn else (t.pdus i).sn := by
  have hclear := sn_clearPdcpSdu t sn i
  rw [addPdcpSdu, ← clearPdcpSdu]
  change (if i = pduIndex sn then { (t.clearPdcpSdu sn).pdus i with sn := some sn } else
    (t.clearPdcpSdu sn).pdus i).sn = _
  split
  · rfl
  · next hi => rw [hclear, if_neg hi]

theorem validPlaces_clearPdcpSdu :
    validPlaces (t.clearPdcpSdu sn) = (validPlaces t).erase (pduIndex sn) := by
  ext i
  simp only [validPlaces, mem_filter, mem_erase, sn_clearPdcpSdu]
  by_cases hi : i = pduIndex sn <;> simp [hi]

theorem validPlaces_addPdcpSdu :
    validPlaces (t.addPdcpSdu sn) = insert (pduIndex sn) (validPlaces t) := by
  ext i
  simp only [validPlaces, mem_filter, mem_insert, sn_addPdcpSdu]
  by_cases hi : i = pduIndex sn
  · simp [hi, pduIndex_mem_places, -mem_insertNone]
  · simp [hi]

theorem sn_clear : (t.clear.pdus i).sn =
    if i ∈ (List.range pdcpBufferSize).map pduIndex then none else (t.pdus i).sn := by
  rw [pdus_clear]
  split <;> rfl

/-- Without a status report, `clear` removes all entries. -/
theorem hasPdcpSn_clear (h : (t.pdus none).sn = none) : t.clear.hasPdcpSn sn = false := by
  refine decide_eq_false ?_
  rw [sn_clear]
  by_cases hreport : sn = statusReportSn
  · rw [(pduIndex_eq_none_iff sn).mpr hreport, if_neg none_notMem_range, h]
    simp
  · rw [if_pos (pduIndex_mem_range hreport)]
    simp

theorem validPlaces_clear (h : (t.pdus none).sn = none) : validPlaces t.clear = ∅ := by
  refine filter_eq_empty_iff.mpr ?_
  intro i hi
  rw [sn_clear]
  cases i with
  | none => simp [none_notMem_range, h]
  | some j =>
    have hj : j < pdcpBufferSize := by simpa using hi
    have hne : j ≠ statusReportSn := by
      have hlarge : pdcpBufferSize < statusReportSn := by decide
      omega
    have hmem := pduIndex_mem_range hne
    rw [pduIndex, if_neg hne, Nat.mod_eq_of_lt (show j < 4096 from hj)] at hmem
    simp [hmem]

end Steps

/-- The counter is the number of the places with an entry. -/
def Counted (t : SegmentTracking) : Prop := t.count.toNat = (validPlaces t).card

theorem Counted.clearPdcpSdu {t : SegmentTracking} (h : Counted t) (sn : ℕ) :
    Counted (t.clearPdcpSdu sn) := by
  rw [Counted, validPlaces_clearPdcpSdu, SegmentTracking.clearPdcpSdu]
  by_cases hvalid : (t.pdus (pduIndex sn)).sn.isSome
  · have hmem : pduIndex sn ∈ validPlaces t :=
      mem_filter.mpr ⟨pduIndex_mem_places sn, hvalid⟩
    have hpos := card_pos.mpr ⟨_, hmem⟩
    rw [if_pos hvalid, card_erase_of_mem hmem, ← h] at *
    exact BitVec.toNat_sub_of_le (Nat.succ_le_of_lt hpos)
  · have hmem : pduIndex sn ∉ validPlaces t := fun hmem => hvalid (mem_filter.mp hmem).2
    rwa [if_neg hvalid, erase_eq_of_notMem hmem]

theorem Counted.addPdcpSdu {t : SegmentTracking} (h : Counted t) (sn : ℕ) :
    Counted (t.addPdcpSdu sn) := by
  have hclear := h.clearPdcpSdu sn
  have hle : (validPlaces (t.clearPdcpSdu sn)).card ≤ 4097 := by
    refine (card_filter_le _ _).trans ?_
    rw [card_insertNone, card_range]
    rfl
  have hinsert : validPlaces (t.addPdcpSdu sn) =
      insert (pduIndex sn) (validPlaces (t.clearPdcpSdu sn)) := by
    rw [validPlaces_addPdcpSdu, validPlaces_clearPdcpSdu]
    ext i
    by_cases hi : i = pduIndex sn <;> simp [hi]
  have hnew : pduIndex sn ∉ validPlaces (t.clearPdcpSdu sn) := by
    rw [validPlaces_clearPdcpSdu]
    simp
  rw [Counted] at hclear
  rw [Counted, hinsert, card_insert_of_notMem hnew, ← hclear]
  refine (BitVec.toNat_add _ _).trans (Nat.mod_eq_of_lt ?_)
  exact lt_of_le_of_lt (Nat.add_le_add_right (hclear.trans_le hle) _) (by decide)

/-- If every call removes what it should, the count is right, `clear_pdcp_sdu` removes no other SN,
and `clear` removes all. -/
theorem bookkeeping_of_reachable {t : SegmentTracking}
    (ht : (sduListSystem.restrict fun t op => op.OwnPlace t).Reachable t) :
    t.count.toNat = (validPlaces t).card ∧
      ∀ op t', op.OwnPlace t → sduListSystem.step t op = some t' → op.Kept t t' := by
  constructor
  · refine ht.restrict_invariant Counted ?_ ?_
    · rintro t rfl
      simp [Counted, validPlaces, init]
    · intro t op t' h hown hstep
      cases op with
      | add sn =>
        obtain rfl := some.inj (ite_none_right_eq_some.mp hstep).2
        exact h.addPdcpSdu sn
      | clearSdu sn =>
        obtain rfl := some.inj (ite_none_right_eq_some.mp hstep).2
        exact h.clearPdcpSdu sn
      | clear =>
        obtain rfl := some.inj hstep
        rw [Counted, validPlaces_clear t hown]
        rfl
  · intro op t' hown hstep
    cases op with
    | add sn => trivial
    | clearSdu sn =>
      obtain rfl := some.inj (ite_none_right_eq_some.mp hstep).2
      intro sn' hne hhas
      have hsn' := of_decide_eq_true hhas
      refine decide_eq_true ?_
      rw [sn_clearPdcpSdu, if_neg ?_]
      · exact hsn'
      · intro hplace
        rw [hplace] at hsn'
        rcases hown with hnone | hsn
        · exact absurd (hsn'.symm.trans hnone) (by simp)
        · exact hne (some.inj (hsn'.symm.trans hsn))
    | clear =>
      obtain rfl := some.inj hstep
      exact fun sn => hasPdcpSn_clear t sn hown

theorem bookkeeping_two_sdus : (sduListSystem.restrict fun t op => op.OwnPlace t).Reachable
        ((init.addPdcpSdu 0).addPdcpSdu statusReportSn) ∧
      ((init.addPdcpSdu 0).addPdcpSdu statusReportSn).count.toNat =
        (validPlaces ((init.addPdcpSdu 0).addPdcpSdu statusReportSn)).card := by
  have hrun : (sduListSystem.restrict fun t op => op.OwnPlace t).Reachable
      ((init.addPdcpSdu 0).addPdcpSdu statusReportSn) :=
    System.reachable_of_run rfl
      (show System.run _ init [.add 0, .add statusReportSn] = some _ from rfl)
  exact ⟨hrun, (bookkeeping_of_reachable hrun).1⟩

/-- The SN 4096 clears the SN 0, and a status report outlives `clear`. -/
theorem not_kept_other_sn :
    (∃ t t', sduListSystem.Reachable t ∧ sduListSystem.step t (.clearSdu 4096) = some t' ∧
      ¬ (ListOp.clearSdu 4096).Kept t t') ∧
    ∃ t, sduListSystem.Reachable t ∧ t.count.toNat = 0 ∧ t.hasPdcpSn statusReportSn = true := by
  constructor
  · refine ⟨init.addPdcpSdu 0, (init.addPdcpSdu 0).clearPdcpSdu 4096,
      System.reachable_of_run rfl (show System.run _ init [.add 0] = some _ from rfl), rfl, ?_⟩
    intro hkept
    exact absurd (hkept 0 (by decide) rfl) (by decide)
  · refine ⟨(init.addPdcpSdu statusReportSn).clear,
      System.reachable_of_run rfl
        (show System.run _ init [.add statusReportSn, .clear] = some _ from rfl), rfl, ?_⟩
    refine decide_eq_true ?_
    rw [sn_clear, (pduIndex_eq_none_iff _).mpr rfl, if_neg none_notMem_range]
    rfl

end MbmsTx.Rlc.Am
