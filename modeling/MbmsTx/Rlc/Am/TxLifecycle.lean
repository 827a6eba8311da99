import MbmsTx.Rlc.Am.PoolInv
import MbmsTx.Rlc.Am.TxFill
import MbmsTx.Rlc.Am.TxRuns

/-!
# Stopping and re-establishing the transmitter

In all configurations and re-establishments of a transmitter its segment resources are conserved:
each is free, or held by the RLC PDU and the SDU that its sequence numbers name.

`stop` is meant to bring all of them back to the free list. It clears the window and the list of the
SDUs, but `clear` does not reach the place of the status reports, so a status report that was sent
and not acknowledged keeps its resources.
-/

namespace MbmsTx.Rlc.Am

open MbmsTx.Transition List Function SegmentTracking CircularMap
open Function (update)

/-! ## The model -/

/-- `buffered_pdcp_pdu_list::buffer_size`. -/
def pdcpBufferSize : ℕ := 4096

/-- `buffered_pdcp_pdu_list::clear`, but for the status reports. -/
def SegmentTracking.clear (t : SegmentTracking) : SegmentTracking :=
  { (List.range pdcpBufferSize).foldl clearPdu t with count := 0 }

/-- `tx_window.clear`: the PDUs are destroyed in slot order. -/
def SegmentTracking.releaseWindow (t : SegmentTracking) (window : CircularMap windowSize TxPdu) :
    SegmentTracking :=
  window.entries.foldl (fun t entry => t.releasePdu entry.2.list) t

def rlcTxQueueLen : ℕ := 256

namespace Tx

/-- `empty_queue_nolock`. -/
def emptyQueue (s : Tx) : Tx :=
  { s with
      txSduQueue := []
      txSdu := none
      tracking :=
        match s.txSdu with
        | some sdu => s.tracking.clearPdcpSdu sdu.pdcpSn
        | none => s.tracking }

/-- `configure`. Too large a queue length is refused. -/
def configure (s : Tx) (cfg : TxCfg) : Tx :=
  if rlcTxQueueLen < cfg.txQueueLength then s
  else { s.emptyQueue with cfg := cfg, txEnabled := true }

/-- `stop_nolock`. -/
def stop (s : Tx) : Tx :=
  { s.emptyQueue with
      txEnabled := false
      pollRetxTimer := .stopped
      statusProhibitTimer := .stopped
      vtA := 0
      vtMs := windowSize
      vtS := 0
      pollSn := 0
      pduWithoutPoll := 0
      byteWithoutPoll := 0
      txWindow := .empty windowSize TxPdu
      retxQueue := []
      tracking := (s.emptyQueue.tracking.releaseWindow s.txWindow).clear }

def reestablish (s : Tx) : Tx := { s.stop with txEnabled := true }

end Tx

/-- The events of a transmitter over its whole life. -/
inductive TxLifeAction
  | event (a : TxAction)
  | emptyQueue
  | configure (cfg : TxCfg)
  | stop
  | reestablish

/-- The state after an event. A call of `handle_control_pdu` under way goes on. -/
def TxState.lifeStep (st : TxState) : TxLifeAction → Option TxState
  | .event a => st.step a
  | .emptyQueue => some { st with tx := st.tx.emptyQueue }
  | .configure cfg => some { st with tx := st.tx.configure cfg }
  | .stop => some { st with tx := st.tx.stop }
  | .reestablish => some { st with tx := st.tx.reestablish }

/-- The runs of a transmitter from its first configuration on. -/
def txLifeSystem : System TxState TxLifeAction where
  Init st := ∃ cfg, st = { tx := { cfg := cfg } }
  step := TxState.lifeStep

/-! ## Conservation -/

namespace Tx

variable {s t : Tx} {f g : Fill}

/-- The segments of the RLC PDU `sn` of the window. -/
def lists (s : Tx) (sn : ℕ) : List ℕ :=
  match s.txWindow.get? sn with
  | some pdu => pdu.list
  | none => []

/-- The segment resources are where their sequence numbers say. -/
def Conserved (s : Tx) : Prop := s.tracking.PoolInv s.lists

variable {sn : ℕ}

theorem lists_of_get? {pdu : TxPdu} (h : s.txWindow.get? sn = some pdu) :
    s.lists sn = pdu.list := by
  rw [lists, h]

theorem lists_of_none (h : s.txWindow.get? sn = none) : s.lists sn = [] := by
  rw [lists, h]

theorem lists_of_ite {c : Prop} [Decidable c]
    (h : t.txWindow.get? sn = if c then none else s.txWindow.get? sn) :
    t.lists sn = if c then [] else s.lists sn := by
  by_cases hc : c
  · rw [if_pos hc] at h ⊢
    exact lists_of_none h
  · rw [if_neg hc] at h ⊢
    rw [lists, h, lists]

theorem SamePdus.lists (h : s.SamePdus t) : t.lists = s.lists := by
  funext sn
  have hpdus := h.pdus sn
  cases hs : s.txWindow.get? sn with
  | none =>
    rw [hs, Option.map_none, Option.map_eq_none_iff] at hpdus
    rw [lists_of_none hs, lists_of_none hpdus]
  | some pdu =>
    rw [hs, Option.map_some, Option.map_eq_some_iff] at hpdus
    obtain ⟨pdu', hpdu', hsent⟩ := hpdus
    have hlist := congrArg TxPdu.list hsent
    rw [lists_of_get? hs, lists_of_get? hpdu']
    exact hlist

theorem Conserved.of_samePdus (hs : s.Conserved) (h : s.SamePdus t) : t.Conserved := by
  rw [Conserved, h.tracking, h.lists]
  exact hs

theorem lists_addPdu (s : Tx) (sn other : ℕ) : (s.addPdu sn).lists other =
      if other % windowSize = sn % windowSize then [] else s.lists other := by
  have hwindow : (s.addPdu sn).txWindow = s.txWindow.overwrite sn { rlcSn := sn } := rfl
  rw [lists, hwindow, get?_overwrite]
  by_cases hother : other = sn
  · simp [hother]
  · by_cases hslot : other % windowSize = sn % windowSize
    · simp [hother, hslot]
    · simp [hother, hslot, lists]

theorem Conserved.addPdu (hs : s.Conserved) (sn : ℕ) : (s.addPdu sn).Conserved := by
  unfold Conserved Tx.addPdu
  cases hevicted : s.txWindow.evicted sn with
  | none =>
    have hlists : (s.addPdu sn).lists = s.lists := by
      funext other
      rw [lists_addPdu]
      split
      · next hslot =>
        have hnone : s.txWindow.get? other = none := by
          rw [evicted, ← hslot] at hevicted
          simp [get?, hevicted]
        rw [lists_of_none hnone]
      · rfl
    simp only [Tx.addPdu, hevicted] at hlists
    simp only [hlists]
    exact hs
  | some entry =>
    obtain ⟨key, pdu⟩ := entry
    have hkey := s.txWindow.key_mod hevicted
    have hpdu : s.txWindow.get? key = some pdu := by
      rw [evicted, ← hkey] at hevicted
      simp [get?, hevicted]
    have hlists : (s.addPdu sn).lists = update s.lists key [] := by
      funext other
      rw [lists_addPdu]
      by_cases hother : other = key
      · rw [hother, update_self, if_pos hkey]
      rw [update_of_ne hother]
      split
      · next hslot =>
        rw [evicted, ← hslot] at hevicted
        rw [lists_of_none (by simp [get?, hevicted, Ne.symm hother])]
      · rfl
    simp only [Tx.addPdu, hevicted] at hlists
    simp only [hlists]
    rw [← lists_of_get? hpdu]
    exact hs.releasePdu key

/-- What holds of the segments while the PDU `sn` is filled. -/
def Fill.Conserved (sn : ℕ) (lists : ℕ → List ℕ) (f : Fill) : Prop :=
  f.tracking.PoolInv (update lists sn f.list)

theorem Fill.Conserved.makeSegment {sn pdcpSn : ℕ} {lists : ℕ → List ℕ} {list : List ℕ}
    {tracking : SegmentTracking} (h : tracking.PoolInv (update lists sn list))
    (hsn : (tracking.pdus (pduIndex pdcpSn)).sn = some pdcpSn) :
    (tracking.makeSegment sn pdcpSn list).1.PoolInv
      (update lists sn (tracking.makeSegment sn pdcpSn list).2) := by
  have hmade := @SegmentTracking.PoolInv.makeSegment _ _ _ h sn hsn
  rw [update_self, update_idem] at hmade
  exact hmade

theorem Fill.Conserved.addSdu {sn : ℕ} {lists : ℕ → List ℕ} {sdu : Sdu} (h : f.Conserved sn lists) :
    (f.addSdu sn sdu).Conserved sn lists := by
  have hplace : (if f.tracking.hasPdcpSn sdu.pdcpSn then f.tracking
        else f.tracking.addPdcpSdu sdu.pdcpSn).PoolInv (update lists sn f.list) ∧
      ((if f.tracking.hasPdcpSn sdu.pdcpSn then f.tracking
        else f.tracking.addPdcpSdu sdu.pdcpSn).pdus (pduIndex sdu.pdcpSn)).sn =
        some sdu.pdcpSn := by
    split
    · next hhas => exact ⟨h, by simpa [hasPdcpSn] using hhas⟩
    · exact ⟨h.addPdcpSdu _, sn_addPdcpSdu _ _⟩
  exact (Fill.Conserved.makeSegment hplace.1 hplace.2).markFullyTxed _ _

theorem Fill.Conserved.addSegment {lists : ℕ → List ℕ} {sdu : Sdu} (h : f.Conserved sn lists) :
    (f.addSegment sn sdu).Conserved sn lists := by
  unfold Fill.addSegment Fill.Conserved
  split
  · next hhas =>
    have hsn : (f.tracking.pdus (pduIndex sdu.pdcpSn)).sn = some sdu.pdcpSn := by
      simpa [hasPdcpSn] using hhas
    exact (Fill.Conserved.makeSegment h hsn).markFullyTxed _ _
  · exact h

theorem Conserved.fillEmpty (hs : s.Conserved) (hlist : s.lists s.vtS = []) (nofBytes : ℕ) :
    (s.fillEmpty nofBytes).Conserved s.vtS s.lists := by
  have hlists : update s.lists s.vtS [] = s.lists := by
    rw [← hlist, update_eq_self]
  change s.tracking.PoolInv (update s.lists s.vtS [])
  rw [hlists]
  exact hs

theorem Fill.Conserved.pull {sn fuel : ℕ} {lists : ℕ → List ℕ} (hf : f.Conserved sn lists)
    (h : Fill.pull sn fuel f = .ok g ∨ Fill.pull sn fuel f = .error g) : g.Conserved sn lists := by
  refine pull_invariant (Fill.Conserved sn lists) ?_ ?_ hf h
  · intro f g hf hends
    rw [Fill.Conserved, hends.tracking, hends.list]
    exact hf
  · intro f sdu queue hf _ _ _
    exact @Fill.Conserved.addSdu (f.opened queue) sn lists sdu hf

/-- `build_data_pdu` keeps the segments where they belong. -/
theorem Conserved.buildDataPdu (hs : s.Conserved) (nofBytes : ℕ) :
    (s.buildDataPdu nofBytes).1.Conserved := by
  cases hrefuses : s.refusesData nofBytes with
  | true =>
    rw [buildDataPdu_of_refuses hrefuses]
    exact hs
  | false =>
    have hlist : (s.addPdu s.vtS).lists s.vtS = [] := by rw [lists_addPdu, if_pos rfl]
    have hinit : ((s.addPdu s.vtS).fillInit nofBytes).Conserved s.vtS (s.addPdu s.vtS).lists := by
      have hempty := (hs.addPdu s.vtS).fillEmpty hlist nofBytes
      unfold Tx.fillInit
      split
      · exact hempty.addSegment
      · exact hempty
    rcases buildDataPdu_cases hrefuses with ⟨f, hpull, hbuild⟩ | ⟨f, hpull, hbuild⟩
    · have hf := hinit.pull (.inl hpull)
      have hfinished := finished_finishData (s.addPdu s.vtS) s.txSdu.isSome f
      obtain ⟨header, -, hget⟩ := hfinished.get?
      have hlists : ((s.addPdu s.vtS).finishData s.txSdu.isSome f).1.lists =
          update (s.addPdu s.vtS).lists s.vtS f.list := by
        funext sn
        by_cases hsn : sn = s.vtS
        · rw [hsn, update_self]
          exact lists_of_get? ((hget s.vtS).trans (if_pos rfl))
        · rw [update_of_ne hsn, lists_addPdu]
          exact lists_of_ite ((hget sn).trans (if_neg hsn))
      rw [hbuild, Conserved, hfinished.tracking, hlists]
      exact hf
    · have hf := hinit.pull (.inr hpull)
      have hreleased := SegmentTracking.PoolInv.releasePdu hf s.vtS
      rw [update_self, update_idem] at hreleased
      have hlists : ((s.addPdu s.vtS).abortData f).lists =
          update (s.addPdu s.vtS).lists s.vtS [] := by
        funext sn
        by_cases hsn : sn = s.vtS
        · rw [hsn, update_self]
          exact lists_of_none ((get?_abortData s f s.vtS).trans (if_pos rfl))
        · rw [update_of_ne hsn, lists_addPdu]
          exact lists_of_ite (get?_abortData s f sn)
      rw [hbuild, Conserved, hlists]
      exact hreleased

theorem Conserved.ackPdu (hs : s.Conserved) (i : ℕ) : (s.ackPdu i).Conserved := by
  unfold Tx.ackPdu
  split
  · exact hs
  rename_i pdu hpdu
  simp only [removePdu, hpdu]
  have hlists : lists { s with txWindow := s.txWindow.erase i } = update s.lists i [] := by
    funext sn
    by_cases hsn : sn = i
    · rw [hsn, update_self]
      exact lists_of_none (by rw [get?_erase, if_pos rfl])
    · rw [update_of_ne hsn]
      simp only [lists, get?_erase, if_neg hsn]
  have hacked : (updateNotificationAckInfo maxSdusToNotify (s.lists i)
      (s.tracking, s.notifyInfoVec)).1.PoolInv s.lists :=
    @SegmentTracking.PoolInv.updateNotificationAckInfo _ _ (s.tracking, s.notifyInfoVec) hs _
  rw [← lists_of_get? hpdu]
  change SegmentTracking.PoolInv _ (lists { s with txWindow := s.txWindow.erase i })
  rw [hlists]
  exact hacked.releasePdu i

theorem Conserved.readPdu (hs : s.Conserved) (rx : RxView) (nofBytes : ℕ) :
    (s.readPdu rx nofBytes).1.Conserved := by
  rcases readPdu_cases s rx nofBytes with ⟨-, hsame⟩ | ⟨-, u, hsame, -, hread⟩
  · exact hs.of_samePdus hsame
  · rw [hread]
    exact (hs.of_samePdus hsame).buildDataPdu nofBytes

theorem Conserved.controlStep (hs : s.Conserved) (run : ControlRun) :
    (s.controlStep run).1.Conserved := by
  rcases controlStep_cases s run with hsame | hends | ⟨-, hacked | hacked⟩
  · exact hs.of_samePdus hsame
  · rw [hends]
    exact hs
  · rw [hacked]
    exact hs.ackPdu run.i
  · rw [hacked]
    exact hs.ackPdu run.i

/-! ## The end of a run -/

theorem Conserved.emptyQueue (hs : s.Conserved) : s.emptyQueue.Conserved := by
  unfold Tx.emptyQueue Conserved
  split
  · exact hs.clearPdcpSdu _
  · exact hs

end Tx

namespace SegmentTracking

variable {t : SegmentTracking} {lists : ℕ → List ℕ}

/-- Destroying the PDUs of `entries`, with different keys, empties their lists. -/
theorem PoolInv.releaseEntries {entries : List (ℕ × TxPdu)} (h : PoolInv t lists)
    (hkeys : (entries.map Prod.fst).Nodup)
    (hlists : ∀ entry ∈ entries, lists entry.1 = entry.2.list) :
    PoolInv (entries.foldl (fun t entry => t.releasePdu entry.2.list) t) fun sn =>
      if sn ∈ entries.map Prod.fst then [] else lists sn := by
  induction entries generalizing t lists with
  | nil => simpa using h
  | cons entry entries ih =>
    obtain ⟨hnew, hkeys⟩ := nodup_cons.mp hkeys
    have hfirst : PoolInv (t.releasePdu entry.2.list) (update lists entry.1 []) := by
      rw [← hlists entry mem_cons_self]
      exact h.releasePdu entry.1
    have hrest : ∀ other ∈ entries, update lists entry.1 [] other.1 = other.2.list := by
      intro other hother
      have hne : other.1 ≠ entry.1 := fun heq =>
        hnew (heq ▸ mem_map_of_mem hother)
      rw [update_of_ne hne]
      exact hlists other (mem_cons_of_mem _ hother)
    have heq : (fun sn => if sn ∈ (entry :: entries).map Prod.fst then [] else lists sn) =
        fun sn => if sn ∈ entries.map Prod.fst then [] else update lists entry.1 [] sn := by
      funext sn
      by_cases hsn : sn = entry.1
      · simp [hsn]
      · simp only [update_of_ne hsn, map_cons, mem_cons, hsn, false_or]
    rw [heq]
    exact ih hfirst hkeys hrest

theorem PoolInv.releaseWindow {window : CircularMap windowSize TxPdu} (h : PoolInv t lists)
    (hlists : ∀ sn, lists sn = match window.get? sn with | some pdu => pdu.list | none => []) :
    PoolInv (t.releaseWindow window) fun _ => [] := by
  have hentries : ∀ entry ∈ window.entries, lists entry.1 = entry.2.list := by
    intro entry hentry
    rw [hlists, mem_entries.mp hentry]
  have heq : (fun sn => if sn ∈ window.entries.map Prod.fst then [] else lists sn) =
      fun _ => [] := by
    funext sn
    split
    · rfl
    rename_i hsn
    rw [hlists]
    split
    · next pdu hpdu =>
      exact absurd (mem_map_of_mem (mem_entries.mpr hpdu)) hsn
    · rfl
  rw [← heq]
  exact h.releaseEntries (nodup_keys_entries window) hentries

theorem pdus_foldl_clearPdu (t : SegmentTracking) (sns : List ℕ) (i : Option ℕ) :
    (sns.foldl SegmentTracking.clearPdu t).pdus i =
      if i ∈ sns.map pduIndex then {} else t.pdus i := by
  induction sns generalizing t with
  | nil => simp
  | cons sn sns ih =>
    refine (ih (t.clearPdu sn)).trans ?_
    rw [(cleared_clearPdu t sn).pdus]
    by_cases hi : i = pduIndex sn
    · simp [hi]
    · simp [hi]

theorem pduIndex_eq_none_iff (sn : ℕ) : pduIndex sn = none ↔ sn = statusReportSn := by
  unfold pduIndex
  simp

/-- `clear` walks the places other than that of the status reports. -/
theorem pduIndex_mem_range {sn : ℕ} (h : sn ≠ statusReportSn) :
    pduIndex sn ∈ (List.range pdcpBufferSize).map pduIndex := by
  have hlt : sn % 4096 < pdcpBufferSize := Nat.mod_lt _ (by decide)
  have hne : sn % 4096 ≠ statusReportSn := by
    have hlarge : pdcpBufferSize < statusReportSn := by decide
    omega
  refine mem_map.mpr ⟨sn % 4096, mem_range.mpr hlt, ?_⟩
  rw [pduIndex, if_neg hne, pduIndex, if_neg h, Nat.mod_mod]

theorem none_notMem_range : none ∉ (List.range pdcpBufferSize).map pduIndex := by
  intro hmem
  obtain ⟨sn, hsn, hnone⟩ := mem_map.mp hmem
  have hlt := mem_range.mp hsn
  have hlarge : pdcpBufferSize < statusReportSn := by decide
  rw [pduIndex_eq_none_iff] at hnone
  omega

-- The two lemmas on `clear` are proved for any places: the loop is not run to compare terms.

/-- `clear` empties the places that it walks. -/
theorem pdus_clear (t : SegmentTracking) (i : Option ℕ) : t.clear.pdus i =
    if i ∈ (List.range pdcpBufferSize).map pduIndex then {} else t.pdus i := by
  have hall : ∀ sns : List ℕ, pdus { sns.foldl SegmentTracking.clearPdu t with count := 0 } i =
      if i ∈ sns.map pduIndex then {} else t.pdus i := fun sns => pdus_foldl_clearPdu t sns i
  rw [SegmentTracking.clear]
  exact hall (List.range pdcpBufferSize)

theorem PoolInv.of_clear (h : PoolInv t lists) : PoolInv t.clear lists := by
  have hall : ∀ sns : List ℕ,
      PoolInv { sns.foldl SegmentTracking.clearPdu t with count := 0 } lists := fun sns =>
    { foldlRecOn (motive := fun u => PoolInv u lists) sns SegmentTracking.clearPdu h
        fun _ hu sn _ => hu.clearPdu sn with }
  rw [SegmentTracking.clear]
  exact hall (List.range pdcpBufferSize)

/-- `clear` releases all segments but those of the status report. -/
theorem PoolInv.clear (h : PoolInv t lists) :
    PoolInv t.clear lists ∧ ∀ id, t.clear.pdcpSn id = none ↔ id ∉ (t.pdus none).list := by
  have hclear := h.of_clear
  have hstatus : t.clear.pdus none = t.pdus none := by
    rw [pdus_clear, if_neg none_notMem_range]
  refine ⟨hclear, fun id => ⟨fun hnone hmem => ?_, fun hnot => ?_⟩⟩
  · rw [← hstatus] at hmem
    obtain ⟨sn, hsome, -⟩ := hclear.mem_pdus.mp hmem
    exact absurd (hnone.symm.trans hsome) (by simp)
  · cases hsn : t.clear.pdcpSn id with
    | none => rfl
    | some sn =>
      have hmem := hclear.mem_pdus.mpr ⟨sn, hsn, rfl⟩
      by_cases hreport : sn = statusReportSn
      · rw [(pduIndex_eq_none_iff sn).mpr hreport, hstatus] at hmem
        exact absurd hmem hnot
      · rw [pdus_clear, if_pos (pduIndex_mem_range hreport)] at hmem
        cases hmem

end SegmentTracking

namespace Tx

variable {s : Tx}

theorem pdus_releaseWindow (t : SegmentTracking) (window : CircularMap windowSize TxPdu) :
    (t.releaseWindow window).pdus = t.pdus := by
  unfold releaseWindow
  induction window.entries generalizing t with
  | nil => rfl
  | cons entry entries ih =>
    exact (ih _).trans (released_releasePdu t entry.2.list).pdus

/-- `stop` keeps the segments where they belong, and brings all back to the free list but those that
the status report has after the queue was emptied. -/
theorem Conserved.stop (hs : s.Conserved) : s.stop.Conserved ∧ ∀ id, id ∈ s.stop.tracking.freeList ↔
      id < maxPoolSize ∧ id ∉ (s.emptyQueue.tracking.pdus none).list := by
  have hwindow : (s.emptyQueue.tracking.releaseWindow s.txWindow).PoolInv fun _ => [] :=
    hs.emptyQueue.releaseWindow fun _ => rfl
  obtain ⟨hclear, hpdcp⟩ := hwindow.clear
  have hrlc : ∀ id, s.stop.tracking.rlcSn id = none := by
    intro id
    cases hsn : s.stop.tracking.rlcSn id with
    | none => rfl
    | some sn => exact absurd (hclear.mem_lists.mpr hsn) (by simp)
  have hpdcp : ∀ id, s.stop.tracking.pdcpSn id = none ↔
      id ∉ (s.emptyQueue.tracking.pdus none).list := by
    rw [← pdus_releaseWindow s.emptyQueue.tracking s.txWindow]
    exact hpdcp
  refine ⟨hclear, fun id => hclear.free.mem.trans ?_⟩
  change id < maxPoolSize ∧ s.stop.tracking.rlcSn id = none ∧ s.stop.tracking.pdcpSn id = none ↔ _
  rw [hpdcp]
  simp [hrlc]

/-- `stop` leaves no segments with the status report: it has none, or is being sent. -/
def StatusReportReleased (s : Tx) : Prop :=
  (s.tracking.pdus none).list = [] ∨ ∃ sdu ∈ s.txSdu, sdu.pdcpSn = statusReportSn

instance (s : Tx) : Decidable s.StatusReportReleased := inferInstanceAs (Decidable (_ ∨ _))

theorem Conserved.statusReportReleased_iff (hs : s.Conserved) :
    s.StatusReportReleased ↔ (s.emptyQueue.tracking.pdus none).list = [] := by
  have hclear : ∀ sn, ((s.tracking.clearPdcpSdu sn).pdus none).list =
      if sn = statusReportSn then [] else (s.tracking.pdus none).list := by
    intro sn
    have hindex := pduIndex_eq_none_iff sn
    unfold clearPdcpSdu
    split
    · change ((s.tracking.clearPdu sn).pdus none).list = _
      rw [(cleared_clearPdu s.tracking sn).pdus]
      by_cases hsn : sn = statusReportSn
      · rw [if_pos (hindex.mpr hsn).symm, if_pos hsn]
      · rw [if_neg fun heq => hsn (hindex.mp heq.symm), if_neg hsn]
    · next hnone =>
      split
      · next hsn =>
        rw [hindex.mpr hsn] at hnone
        exact hs.list_eq_nil (by simpa using hnone)
      · rfl
  unfold StatusReportReleased
  cases htx : s.txSdu with
  | none =>
    have hempty : s.emptyQueue.tracking = s.tracking := by simp only [Tx.emptyQueue, htx]
    simp [hempty]
  | some sdu =>
    have hempty : s.emptyQueue.tracking = s.tracking.clearPdcpSdu sdu.pdcpSn := by
      simp only [Tx.emptyQueue, htx]
    rw [hempty, hclear]
    by_cases hsn : sdu.pdcpSn = statusReportSn
    · simp [hsn]
    · simp [hsn]

/-- `stop` brings all segments back when the status report does not keep any. -/
theorem Conserved.stop_free_iff (hs : s.Conserved) :
    (∀ id < maxPoolSize, id ∈ s.stop.tracking.freeList) ↔ s.StatusReportReleased := by
  rw [hs.statusReportReleased_iff]
  constructor
  · intro hall
    apply eq_nil_iff_forall_not_mem.mpr
    intro id hid
    obtain ⟨sn, hsn, -⟩ := hs.emptyQueue.mem_pdus.mp hid
    have hlt : id < maxPoolSize := hs.emptyQueue.free.bound (.inr (by simp [hsn]))
    exact ((hs.stop.2 id).mp (hall id hlt)).2 hid
  · intro hnil id hlt
    exact (hs.stop.2 id).mpr ⟨hlt, by simp [hnil]⟩

/-- A segment resource is in the free list once, with neither SN valid, or it is not in it and has a
valid SN; it is once in the lists of the RLC PDU and of the SDU that its valid SNs name, and in no
other. -/
structure Placed (s : Tx) (id : ℕ) : Prop where
  free_or_held :
    s.tracking.freeList.count id = 1 ∧ s.tracking.rlcSn id = none ∧ s.tracking.pdcpSn id = none ∨
      s.tracking.freeList.count id = 0 ∧ (s.tracking.rlcSn id ≠ none ∨ s.tracking.pdcpSn id ≠ none)
  rlc : ∀ sn, (s.lists sn).count id = if s.tracking.rlcSn id = some sn then 1 else 0
  pdcp : ∀ i, (s.tracking.pdus i).list.count id =
    if (s.tracking.pdcpSn id).map pduIndex = some i then 1 else 0
  pdcp_sn : ∀ sn, s.tracking.pdcpSn id = some sn →
    (s.tracking.pdus (pduIndex sn)).sn = some sn

theorem count_eq_ite {l : List ℕ} {id : ℕ} {c : Prop} [Decidable c] (hl : l.Nodup)
    (h : id ∈ l ↔ c) : l.count id = if c then 1 else 0 := by
  by_cases hc : c
  · rw [if_pos hc]
    exact count_eq_one_of_mem hl (h.mpr hc)
  · rw [if_neg hc]
    exact count_eq_zero_of_not_mem fun hmem => hc (h.mp hmem)

theorem Conserved.placed (hs : s.Conserved) {id : ℕ} (hid : id < maxPoolSize) : s.Placed id := by
  refine ⟨?_, fun sn => count_eq_ite (hs.rlc.nodup sn) hs.mem_lists,
    fun i => count_eq_ite (hs.pdcp.nodup i) ?_, fun sn hsn => ?_⟩
  · by_cases hfree : id ∈ s.tracking.freeList
    · exact .inl ⟨count_eq_one_of_mem hs.free.nodup hfree, (hs.free.mem.mp hfree).2⟩
    · refine .inr ⟨count_eq_zero_of_not_mem hfree, ?_⟩
      rw [hs.free.mem] at hfree
      tauto
  · rw [Option.map_eq_some_iff]
    exact hs.mem_pdus
  · exact (hs.sn_eq (hs.mem_pdus.mpr ⟨sn, hsn, rfl⟩)).trans hsn

end Tx

/-! ## Runs -/

theorem TxState.conserved_step {st st' : TxState} {a : TxAction} (hs : st.tx.Conserved)
    (hstep : st.step a = some st') : st'.tx.Conserved := by
  rcases TxState.step_cases hstep with ⟨sdu, -, htx⟩ | ⟨discardSn, -, htx⟩ |
    ⟨rx, nofBytes, -, htx⟩ | ⟨-, hsame⟩ | ⟨run, -, -, htx⟩
  · rw [htx]
    unfold Tx.writeSdu
    split
    · exact hs
    · exact hs
  · rw [htx]
    unfold Tx.discardSdu
    split
    · exact hs
    · exact hs
  · rw [htx]
    exact hs.readPdu rx nofBytes
  · exact hs.of_samePdus hsame
  · rw [htx]
    exact hs.controlStep run

theorem conserved {st : TxState} (hst : txLifeSystem.Reachable st) : st.tx.Conserved := by
  have hinit : ∀ st, txLifeSystem.Init st → st.tx.Conserved := by
    rintro _ ⟨cfg, rfl⟩
    exact poolInv_init
  refine hst.invariant (fun st => st.tx.Conserved) hinit ?_
  intro st a st' hs hstep
  cases a with
  | event a => exact TxState.conserved_step hs hstep
  | emptyQueue =>
    cases hstep
    exact hs.emptyQueue
  | configure cfg =>
    cases hstep
    unfold Tx.configure
    split
    · exact hs
    · exact hs.emptyQueue
  | stop | reestablish =>
    cases hstep
    exact hs.stop.1

/-- Every segment resource is where its SNs say in every state of a run. Stopping or re-establishing
the transmitter brings all of them back to the free list exactly when the status report has none or
is the SDU that is being sent. -/
theorem segments_conserved_iff {st : TxState} (hst : txLifeSystem.Reachable st) :
    (∀ id < maxPoolSize, st.tx.Placed id) ∧
      ((∀ id < maxPoolSize, id ∈ st.tx.stop.tracking.freeList) ∧
        (∀ id < maxPoolSize, id ∈ st.tx.reestablish.tracking.freeList) ↔
          st.tx.StatusReportReleased) := by
  have hs := conserved hst
  refine ⟨fun id hid => hs.placed hid, ?_⟩
  have hre : st.tx.reestablish.tracking = st.tx.stop.tracking := rfl
  rw [hre, and_self]
  exact hs.stop_free_iff

/-- The resources after three PDUs, two of which were acknowledged. -/
theorem segments_conserved_of_three_pdus : ∃ st, txLifeSystem.Reachable st ∧
      (st.tx.vtA = 2 ∧ st.tx.tracking.freeList.length = maxPoolSize - 1 ∧
        st.tx.StatusReportReleased) ∧
      (∀ id < maxPoolSize, st.tx.Placed id) ∧
      ((∀ id < maxPoolSize, id ∈ st.tx.stop.tracking.freeList) ∧
        (∀ id < maxPoolSize, id ∈ st.tx.reestablish.tracking.freeList) ↔
          st.tx.StatusReportReleased) := by
  have hinit : txLifeSystem.Init { tx := { cfg := exampleTxCfg } } := ⟨exampleTxCfg, rfl⟩
  exact System.exists_reachable_and hinit (exampleTxRun.map .event) (by decide +kernel)
    fun st hst _ => segments_conserved_iff hst

/-- A status report that was sent and not acknowledged keeps a segment resource. -/
theorem status_report_leaks : ∃ st, txLifeSystem.Reachable st ∧
      (∃ st', txLifeSystem.step st .stop = some st' ∧
        ∃ id < maxPoolSize, id ∉ st'.tx.tracking.freeList) ∧
      ∃ st', txLifeSystem.step st .reestablish = some st' ∧
        ∃ id < maxPoolSize, id ∉ st'.tx.tracking.freeList := by
  have hinit : txLifeSystem.Init { tx := { cfg := exampleTxCfg } } := ⟨exampleTxCfg, rfl⟩
  have hrun : ∃ st, txLifeSystem.Reachable st ∧ ¬ st.tx.StatusReportReleased :=
    System.exists_reachable_of_run hinit
      [.event (.writeSdu ⟨[1, 2, 3], statusReportSn⟩),
        .event (.readPdu ⟨false, 0⟩ 10)] (by decide +kernel)
  obtain ⟨st, hst, hreport⟩ := hrun
  have hkept : ∃ id < maxPoolSize, id ∉ st.tx.stop.tracking.freeList := by
    by_contra hnone
    push Not at hnone
    exact hreport ((conserved hst).stop_free_iff.mp hnone)
  exact ⟨st, hst, ⟨_, rfl, hkept⟩, ⟨_, rfl, hkept⟩⟩

end MbmsTx.Rlc.Am
