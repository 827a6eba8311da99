import MbmsTx.Lib.Filing
import MbmsTx.Rlc.Am.SegmentPool

/-!
# Conservation of the segment resources

A segment resource is in the free list of the pool, or in the lists of the RLC PDU and of the SDU
that its sequence numbers name. `PoolInv` says this for the whole pool, with the lists of the RLC
PDUs as a parameter; every operation keeps it.
-/

namespace MbmsTx.Rlc.Am.SegmentTracking

open MbmsTx.Filing List
open Function (update update_apply update_eq_self)

/-- The resources are where their sequence numbers say. The list of the RLC PDU `sn` is `lists sn`.
-/
structure PoolInv (t : SegmentTracking) (lists : ℕ → List ℕ) : Prop where
  free : Free (· < maxPoolSize) t.rlcSn t.pdcpSn t.freeList
  rlc : Filed t.rlcSn lists
  pdcp : Filed (fun id => (t.pdcpSn id).map pduIndex) fun i => (t.pdus i).list
  sn_eq : ∀ {i id}, id ∈ (t.pdus i).list → (t.pdus i).sn = t.pdcpSn id
  index : ∀ {i sn}, (t.pdus i).sn = some sn → pduIndex sn = i

variable {t u : SegmentTracking} {lists : ℕ → List ℕ} {ids : List ℕ} {id sn : ℕ}

theorem freeList_init : init.freeList = (List.range maxPoolSize).reverse := by
  simp only [init]

theorem poolInv_init : PoolInv init fun _ => [] := by
  refine ⟨⟨fun h => ?_, ?_, ?_⟩, ⟨fun _ => nodup_nil, ?_⟩, ⟨fun _ => nodup_nil, ?_⟩, fun h => ?_,
    fun h => ?_⟩
  · exact absurd h (by simp [init])
  · rw [freeList_init, nodup_reverse]
    exact nodup_range
  · intro id
    rw [freeList_init, mem_reverse, mem_range]
    exact ⟨fun h => ⟨h, rfl, rfl⟩, And.left⟩
  · exact ⟨fun h => absurd h (by simp), fun h => absurd h (by simp [init])⟩
  · exact ⟨fun h => absurd h (by simp [init]), fun h => absurd h (by simp [init])⟩
  · rfl
  · exact absurd h (by simp [init])

section

variable (h : PoolInv t lists)
include h

theorem PoolInv.mem_lists : id ∈ lists sn ↔ t.rlcSn id = some sn := h.rlc.mem

theorem PoolInv.mem_pdus {i : Option ℕ} :
    id ∈ (t.pdus i).list ↔ ∃ sn, t.pdcpSn id = some sn ∧ pduIndex sn = i :=
  h.pdcp.mem.trans Option.map_eq_some_iff

theorem PoolInv.list_eq_nil {i : Option ℕ} (hsn : (t.pdus i).sn = none) : (t.pdus i).list = [] := by
  apply eq_nil_iff_forall_not_mem.mpr
  intro id hid
  obtain ⟨sn, hpdcp, -⟩ := h.mem_pdus.mp hid
  have heq := h.sn_eq hid
  rw [hsn, hpdcp] at heq
  cases heq

/-! ## Releasing resources -/

/-- The resources `ids` were released by their RLC PDU. -/
structure Released (t : SegmentTracking) (ids : List ℕ) (u : SegmentTracking) : Prop where
  rlcSn : ∀ id, u.rlcSn id = if id ∈ ids then none else t.rlcSn id
  pdcpSn : u.pdcpSn = t.pdcpSn
  pdus : u.pdus = t.pdus
  mem_free : ∀ {id}, id ∈ u.freeList ↔ id ∈ t.freeList ∨ id ∈ ids ∧ t.pdcpSn id = none
  free_nodup : t.freeList.Nodup → ids.Nodup → (∀ id ∈ ids, id ∉ t.freeList) → u.freeList.Nodup

omit h in
theorem mem_freeList_releaseRlcSn {other : ℕ} : other ∈ (t.releaseRlcSn id).freeList ↔
      other ∈ t.freeList ∨ other = id ∧ t.pdcpSn id = none := by
  unfold releaseRlcSn
  split
  · next h => simp [h, or_comm]
  · next h => simp [h]

omit h in
/-- The destructor of an RLC PDU with the segments `ids`. -/
theorem released_releasePdu (t : SegmentTracking) (ids : List ℕ) :
    Released t ids (t.releasePdu ids) := by
  induction ids generalizing t with
  | nil => exact ⟨by simp [releasePdu], rfl, rfl, by simp [releasePdu], fun h _ _ => h⟩
  | cons id ids ih =>
    have hrest := ih (t.releaseRlcSn id)
    refine ⟨fun other => ?_, hrest.pdcpSn, hrest.pdus, ?_, ?_⟩
    · refine (hrest.rlcSn other).trans ?_
      simp only [releaseRlcSn, mem_cons]
      by_cases hmem : other ∈ ids
      · simp [hmem]
      · simp [hmem]
    · intro other
      refine hrest.mem_free.trans ?_
      rw [mem_freeList_releaseRlcSn, mem_cons]
      by_cases heq : other = id
      · rw [heq]
        tauto
      · tauto
    · intro hnodup hids hfresh
      obtain ⟨hnew, hids⟩ := nodup_cons.mp hids
      refine hrest.free_nodup ?_ hids ?_
      · unfold releaseRlcSn
        split
        · exact nodup_cons.mpr ⟨hfresh id mem_cons_self, hnodup⟩
        · exact hnodup
      · intro other hother hfree
        rcases mem_freeList_releaseRlcSn.mp hfree with hold | ⟨rfl, -⟩
        · exact hfresh other (mem_cons_of_mem _ hother) hold
        · exact hnew hother

/-- The destructor of the RLC PDU `sn` empties its list. -/
theorem PoolInv.releasePdu (sn : ℕ) : PoolInv (t.releasePdu (lists sn)) (update lists sn []) := by
  have hreleased := released_releasePdu t (lists sn)
  generalize t.releasePdu (lists sn) = u at hreleased
  have hheld : ∀ id ∈ lists sn, t.rlcSn id = some sn := fun _ => h.mem_lists.mp
  refine ⟨?_, h.rlc.release hreleased.rlcSn (update_apply lists sn [])
    hheld nodup_nil (by simp), ?_, ?_, ?_⟩
  · rw [hreleased.pdcpSn]
    exact h.free.release hreleased.rlcSn (fun id hid => by simp [hheld id hid]) hreleased.mem_free
      (hreleased.free_nodup h.free.nodup (h.rlc.nodup sn))
  · rw [hreleased.pdus, hreleased.pdcpSn]
    exact h.pdcp
  · rw [hreleased.pdus, hreleased.pdcpSn]
    exact h.sn_eq
  · rw [hreleased.pdus]
    exact h.index

/-- The two sides of the resources exchanged. -/
def swap (t : SegmentTracking) : SegmentTracking :=
  { t with rlcSn := t.pdcpSn, pdcpSn := t.rlcSn }

omit h in
/-- Releasing resources for the SDU is releasing them for the RLC PDU with the sides exchanged. -/
theorem foldl_releasePdcpSn (t : SegmentTracking) (ids : List ℕ) :
    ids.foldl releasePdcpSn t = (t.swap.releasePdu ids).swap := by
  induction ids generalizing t with
  | nil => rfl
  | cons id ids ih => exact ih (t.releasePdcpSn id)

/-- `pdcp_pdu_info::clear`, and `ack_segment`: the SDU releases the resources `ids`, and what is
known of it is replaced. -/
structure Cleared (t : SegmentTracking) (i : Option ℕ) (ids : List ℕ) (info : PdcpPduInfo)
    (u : SegmentTracking) : Prop where
  rlcSn : u.rlcSn = t.rlcSn
  pdcpSn : ∀ id, u.pdcpSn id = if id ∈ ids then none else t.pdcpSn id
  pdus : ∀ j, u.pdus j = if j = i then info else t.pdus j
  mem_free : ∀ {id}, id ∈ u.freeList ↔ id ∈ t.freeList ∨ id ∈ ids ∧ t.rlcSn id = none
  free_nodup : t.freeList.Nodup → ids.Nodup → (∀ id ∈ ids, id ∉ t.freeList) → u.freeList.Nodup

omit h in
theorem cleared_clearPdu (t : SegmentTracking) (sn : ℕ) :
    Cleared t (pduIndex sn) (t.pdus (pduIndex sn)).list {} (t.clearPdu sn) := by
  have hreleased := released_releasePdu t.swap (t.pdus (pduIndex sn)).list
  rw [clearPdu, foldl_releasePdcpSn]
  refine ⟨hreleased.pdcpSn, hreleased.rlcSn, fun j => ?_, hreleased.mem_free, hreleased.free_nodup⟩
  change (if j = pduIndex sn then {} else (t.swap.releasePdu _).pdus j) = _
  rw [hreleased.pdus]
  rfl

omit h in
theorem cleared_ackSegment (t : SegmentTracking) (sn id : ℕ) : Cleared t (pduIndex sn) [id]
      { t.pdus (pduIndex sn) with list := (t.pdus (pduIndex sn)).list.erase id }
      (t.ackSegment sn id) := by
  have hreleased := released_releasePdu
    (t.modifyPdu sn fun info => { info with list := info.list.erase id }).swap [id]
  have heq : t.ackSegment sn id =
      ((t.modifyPdu sn fun info => { info with list := info.list.erase id }).swap.releasePdu
        [id]).swap := rfl
  rw [heq]
  refine ⟨hreleased.pdcpSn, hreleased.rlcSn, fun j => ?_, hreleased.mem_free, hreleased.free_nodup⟩
  change ((t.modifyPdu sn fun info => { info with list := info.list.erase id }).swap.releasePdu
        [id]).pdus j = _
  rw [hreleased.pdus]
  change (if j = pduIndex sn then _ else _) = _
  split
  · next hj => rw [hj]
  · rfl

theorem PoolInv.cleared {i : Option ℕ} {info : PdcpPduInfo} (hcleared : Cleared t i ids info u)
    (hids : ids.Nodup) (hmem : ∀ id ∈ ids, id ∈ (t.pdus i).list) (hnodup : info.list.Nodup)
    (hlist : ∀ id, id ∈ info.list ↔ id ∈ (t.pdus i).list ∧ id ∉ ids)
    (hsn : info.list ≠ [] → info.sn = (t.pdus i).sn)
    (hindex : ∀ sn, info.sn = some sn → pduIndex sn = i) : PoolInv u lists := by
  have hheld : ∀ id ∈ ids, (t.pdcpSn id).map pduIndex = some i := fun id hid =>
    h.pdcp.mem.mp (hmem id hid)
  have hfiled : Filed (fun id => (u.pdcpSn id).map pduIndex) fun i => (u.pdus i).list := by
    refine h.pdcp.release (fun id => ?_) (fun j => ?_) hheld hnodup hlist
    · rw [hcleared.pdcpSn, apply_ite (Option.map pduIndex), Option.map_none]
    · rw [hcleared.pdus, apply_ite PdcpPduInfo.list]
  refine ⟨?_, ?_, hfiled, fun {j id} hin => ?_, fun {j sn} hsome => ?_⟩
  · rw [hcleared.rlcSn]
    refine (h.free.symm.release hcleared.pdcpSn (fun id hid hnone => ?_) hcleared.mem_free
      (hcleared.free_nodup h.free.nodup hids)).symm
    exact absurd (hheld id hid) (by simp [hnone])
  · rw [hcleared.rlcSn]
    exact h.rlc
  · have hkept : u.pdcpSn id = t.pdcpSn id := by
      have hsome := hfiled.mem.mp hin
      rw [hcleared.pdcpSn] at hsome ⊢
      split at hsome
      · cases hsome
      · next hnot => rw [if_neg hnot]
    rw [hkept]
    rw [hcleared.pdus] at hin ⊢
    split at hin
    · next hj =>
      rw [if_pos hj, hsn (ne_nil_of_mem hin)]
      exact h.sn_eq ((hlist id).mp hin).1
    · next hj =>
      rw [if_neg hj]
      exact h.sn_eq hin
  · rw [hcleared.pdus] at hsome
    split at hsome
    · next hj => rw [hj, hindex sn hsome]
    · exact h.index hsome

theorem PoolInv.clearPdu (sn : ℕ) : PoolInv (t.clearPdu sn) lists :=
  h.cleared (cleared_clearPdu t sn) (h.pdcp.nodup _) (fun _ hid => hid) nodup_nil (by simp)
    (absurd rfl) (by simp)

theorem PoolInv.ackSegment (hid : t.pdcpSn id = some sn) : PoolInv (t.ackSegment sn id) lists := by
  have hmem := h.mem_pdus.mpr ⟨sn, hid, rfl⟩
  have hnodup := h.pdcp.nodup (pduIndex sn)
  refine h.cleared (cleared_ackSegment t sn id) (nodup_singleton id) ?_ (hnodup.erase id) ?_
    (fun _ => rfl) fun sn' hsn' => h.index hsn'
  · intro other hother
    rw [mem_singleton.mp hother]
    exact hmem
  · intro other
    rw [hnodup.mem_erase_iff, mem_singleton]
    exact and_comm

/-! ## SDUs and segments -/

theorem PoolInv.clearPdcpSdu (sn : ℕ) : PoolInv (t.clearPdcpSdu sn) lists := by
  unfold SegmentTracking.clearPdcpSdu
  split
  · exact { h.clearPdu sn with }
  · exact h

theorem PoolInv.markFullyTxed (sn left : ℕ) : PoolInv (t.markFullyTxed sn left) lists := by
  unfold SegmentTracking.markFullyTxed
  split
  · have hlist : ∀ i, ((t.modifyPdu sn fun info => { info with fullyTxed := true }).pdus i).list =
        (t.pdus i).list ∧ ((t.modifyPdu sn fun info => { info with fullyTxed := true }).pdus i).sn =
          (t.pdus i).sn := by
      intro i
      unfold modifyPdu
      dsimp only
      split
      · exact ⟨rfl, rfl⟩
      · exact ⟨rfl, rfl⟩
    refine ⟨h.free, h.rlc, ?_, fun {i id} => ?_, fun {i sn} => ?_⟩
    · simp only [hlist]
      exact h.pdcp
    · rw [(hlist i).1, (hlist i).2]
      exact h.sn_eq
    · rw [(hlist i).2]
      exact h.index
  · exact h

omit h in
theorem sn_addPdcpSdu (t : SegmentTracking) (sn : ℕ) :
    ((t.addPdcpSdu sn).pdus (pduIndex sn)).sn = some sn := by
  simp [addPdcpSdu, modifyPdu]

theorem PoolInv.addPdcpSdu (sn : ℕ) : PoolInv (t.addPdcpSdu sn) lists := by
  -- the place of the SDU is without segments before it gets its SN
  have hadd : ∀ u : SegmentTracking, PoolInv u lists → (u.pdus (pduIndex sn)).list = [] →
      PoolInv (u.modifyPdu sn fun info => { info with sn := some sn }) lists := by
    intro u hu hnil
    have hlist : ∀ i, ((u.modifyPdu sn fun info => { info with sn := some sn }).pdus i).list =
        (u.pdus i).list := by
      intro i
      unfold modifyPdu
      dsimp only
      split
      · rfl
      · rfl
    refine ⟨hu.free, hu.rlc, ?_, fun {i id} hid => ?_, fun {i sn'} hsn' => ?_⟩
    · simp only [hlist]
      exact hu.pdcp
    · rw [hlist] at hid
      have hi : i ≠ pduIndex sn := fun heq => by simp [heq, hnil] at hid
      simp only [modifyPdu, if_neg hi]
      exact hu.sn_eq hid
    · unfold modifyPdu at hsn'
      dsimp only at hsn'
      split at hsn'
      · next hi => rw [hi, Option.some.inj hsn']
      · exact hu.index hsn'
  have hopened : PoolInv
        (if (t.pdus (pduIndex sn)).sn.isSome then { t.clearPdu sn with count := t.count - 1 }
         else t) lists ∧
      ((if (t.pdus (pduIndex sn)).sn.isSome then { t.clearPdu sn with count := t.count - 1 }
        else t).pdus (pduIndex sn)).list = [] := by
    split
    · refine ⟨{ h.clearPdu sn with }, ?_⟩
      rw [(cleared_clearPdu t sn).pdus, if_pos rfl]
    · next hnone => exact ⟨h, h.list_eq_nil (by simpa using hnone)⟩
  unfold SegmentTracking.addPdcpSdu
  generalize (if (t.pdus (pduIndex sn)).sn.isSome = true then _ else t) = u at hopened ⊢
  exact { hadd u hopened.1 hopened.2 with }

/-- `make_segment` for the RLC PDU `rlcSn` and an SDU in its place. -/
theorem PoolInv.makeSegment {rlcSn : ℕ} (hsn : (t.pdus (pduIndex sn)).sn = some sn) :
    PoolInv (t.makeSegment rlcSn sn (lists rlcSn)).1
      (update lists rlcSn (t.makeSegment rlcSn sn (lists rlcSn)).2) := by
  unfold SegmentTracking.makeSegment
  split
  · rw [update_eq_self]
    exact h
  rename_i id free hfree
  have hfreeInv := h.free
  rw [hfree] at hfreeInv
  obtain ⟨-, hrlc, hpdcp⟩ := hfreeInv.mem.mp mem_cons_self
  have hpdus : ∀ i, (t.modifyPdu sn fun info => { info with list := id :: info.list }).pdus i =
      if i = pduIndex sn then { t.pdus i with list := id :: (t.pdus i).list }
      else t.pdus i := fun _ => rfl
  have hsame : ∀ i, ((t.modifyPdu sn fun info => { info with list := id :: info.list }).pdus i).sn =
      (t.pdus i).sn := by
    intro i
    rw [hpdus, apply_ite PdcpPduInfo.sn, ite_self]
  have hkey : ∀ other, (if other = id then some sn else t.pdcpSn other).map pduIndex =
      if other = id then some (pduIndex sn) else (t.pdcpSn other).map pduIndex := fun other => by
    rw [apply_ite (Option.map pduIndex), Option.map_some]
  have hfiled := h.pdcp.insert (by simp [hpdcp]) hkey
    fun i => (congrArg PdcpPduInfo.list (hpdus i)).trans (apply_ite PdcpPduInfo.list ..)
  refine ⟨hfreeInv.take (fun _ => rfl) fun _ => rfl,
    h.rlc.insert hrlc (fun _ => rfl) fun other => ?_,
    hfiled, fun {i other} hin => ?_, fun {i sn'} hsome => ?_⟩
  · rw [update_apply]
    split
    · next heq => rw [heq]
    · rfl
  · have hkey := hfiled.mem.mp hin
    rw [hsame]
    dsimp only at hkey ⊢
    split at hkey
    · next heq =>
      rw [if_pos heq, ← Option.some.inj hkey]
      exact hsn
    · next heq =>
      rw [if_neg heq]
      exact h.sn_eq (h.pdcp.mem.mpr hkey)
  · rw [hsame] at hsome
    exact h.index hsome

end

theorem PoolInv.ackRound {capacity : ℕ} {st : SegmentTracking × List ℕ} (h : PoolInv st.1 lists)
    (id : ℕ) : PoolInv (ackOne capacity st id).1 lists := by
  unfold SegmentTracking.ackOne
  split
  · exact h
  · next sn hsn =>
    dsimp only
    split
    · exact (h.ackSegment hsn).clearPdcpSdu sn
    · exact h.ackSegment hsn

/-- `update_notification_ack_info`. -/
theorem PoolInv.updateNotificationAckInfo {capacity : ℕ} {st : SegmentTracking × List ℕ}
    (h : PoolInv st.1 lists) (ids : List ℕ) :
    PoolInv (updateNotificationAckInfo capacity ids st).1 lists :=
  foldlRecOn (motive := fun st' => PoolInv (Prod.fst st') lists) ids _ h
    fun _ h id _ => h.ackRound id

end MbmsTx.Rlc.Am.SegmentTracking
