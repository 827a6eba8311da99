import MbmsTx.Lib.Framing
import MbmsTx.Rlc.Am.Rx
import MbmsTx.Rlc.Am.TxFill

/-!
# The stream of SDUs in data PDUs

`build_data_pdu` cuts the SDUs into pieces and fills each PDU with some of them: the length
indicators give the lengths of all pieces but the last, and the framing info says whether the first
piece starts an SDU and the last one ends one. So a PDU is a frame of the stream of SDUs (`SentAs`),
and a receiver takes from it what the frame completes (`SentAs.takePdu_eq`).
-/

namespace MbmsTx.Rlc.Am

open List Option Tx Fill

/-! ## Taking a PDU apart -/

namespace Rx

variable {pieces : List (List UInt8)} {last rxSdu : List UInt8} {read : ℕ}

theorem not_tailroom_lt {n m : ℕ} (h : n + m ≤ tailroom 0) : ¬ tailroom n < m := by
  unfold tailroom at *
  omega

theorem takeLis_pieces (hne : ∀ piece ∈ pieces, piece ≠ [])
    (hfit : ∀ item ∈ joinFirst rxSdu pieces, item.length ≤ tailroom 0)
    (hread : read + pieces.flatten.length < tailroom 0) :
    takeLis (pieces.map length) read rxSdu (pieces.flatten ++ last) =
      { rxSdu := some (if pieces = [] then rxSdu else [])
        msg := last
        sdus := joinFirst rxSdu pieces } := by
  induction pieces generalizing rxSdu read with
  | nil => rfl
  | cons piece pieces ih =>
    have hpos : piece.length ≠ 0 := fun hzero =>
      hne piece (by simp) (eq_nil_of_length_eq_zero hzero)
    have hroom : ¬ tailroom rxSdu.length < piece.length := by
      apply not_tailroom_lt
      rw [← length_append]
      exact hfit _ (by simp)
    rw [flatten_cons, length_append] at hread
    have hbuffer : ¬ maxBufferSizeBytes ≤ bufferHeaderOffset + read + piece.length := by
      unfold tailroom at hread
      omega
    have hrest := @ih [] (read + piece.length)
      (fun q hq => hne q (mem_cons_of_mem _ hq))
      (by
        rw [joinFirst_nil_left]
        exact fun q hq => hfit q (by rw [joinFirst_cons]; exact mem_cons_of_mem _ hq))
      (by omega)
    rw [joinFirst_nil_left, ite_self] at hrest
    rw [map_cons, takeLis, if_neg hpos, flatten_cons, append_assoc,
      drop_left, take_left, hrest, if_neg]
    · rfl
    · simp only [not_or]
      refine ⟨hroom, hbuffer, ?_⟩
      simp

end Rx

variable {f : Frame UInt8} {frames : List (Frame UInt8)} {pdu : AmdPdu} {pdus : List AmdPdu} {n : ℕ}

/-- The PDU `n` with the frame `f`, as `build_data_pdu` sends it. -/
structure SentAs (n : ℕ) (f : Frame UInt8) (pdu : AmdPdu) : Prop where
  rf : pdu.1.rf = false
  sn : pdu.1.sn = n % snMod
  notEnd : pdu.1.fi.notEnd = f.notEnd
  li_eq : pdu.1.li = f.init.map length
  data_eq : pdu.2 = f.elements
  length_le : pdu.2.length ≤ tailroom 0

theorem SentAs.sum_le (h : SentAs n f pdu) : pdu.1.li.sum ≤ pdu.2.length := by
  rw [h.li_eq, h.data_eq, Frame.elements, length_append, length_flatten]
  exact Nat.le_add_right _ _

/-- One round of `reassemble_rx_sdus` over the PDU. -/
theorem SentAs.takePdu_eq (h : SentAs n f pdu) {part : List UInt8} (hfit : f.Fits 2047 part) :
    Rx.takePdu part pdu =
      { rxSdu := some (f.leaves part), msg := [], sdus := f.completes part } := by
  have htail : tailroom 0 = 12237 := rfl
  have hlen := h.length_le
  have hlast := length_pos_iff.mpr hfit.last_ne
  rw [h.data_eq, Frame.elements, length_append] at hlen
  have hlis := @Rx.takeLis_pieces f.init f.last part 0 hfit.init_ne
    (fun item hitem => (hfit.completes_le item ((f.joinFirst_init_sublist _).subset hitem)).trans
      (by omega)) (by omega)
  have hroom : ¬ tailroom (if f.init = [] then part else []).length < f.last.length := by
    have hle : ((if f.init = [] then part else []) ++ f.last).length ≤ 2047 := by
      have hcompletes := hfit.completes_le
      have hleaves := hfit.leaves_le
      unfold Frame.completes at hcompletes
      unfold Frame.leaves at hleaves
      cases hend : f.notEnd with
      | true => simpa [hend] using hleaves
      | false => exact hcompletes _ (by simp [hend, joinFirst_concat])
    apply Rx.not_tailroom_lt
    rw [← length_append]
    omega
  rw [Rx.takePdu, h.li_eq, h.data_eq, Frame.elements, hlis]
  dsimp only
  rw [Rx.takeLast, if_neg hroom, Fi.endAligned_eq, h.notEnd, Frame.leaves, Frame.completes]
  cases f.notEnd with
  | false => simp [joinFirst_concat]
  | true => simp

/-! ## Filling a PDU -/

namespace Tx

/-- The SDUs in the queue that were not discarded. -/
def queueMsgs (queue : List (Option Sdu)) : List (List UInt8) := (waiting queue).map Sdu.msg

variable {todo pieces : List (List UInt8)} {s t : Tx} {f f' : Fill} {sdu : Sdu} {nofBytes : ℕ}

/-- The PDU holds the pieces. As long as there is room, no SDU is cut. -/
structure Fill.Carries (todo pieces : List (List UInt8)) (f : Fill) : Prop extends
    Filling todo pieces f.data f.li f.lastLi (f.txSdu.map Sdu.msg) (queueMsgs f.txSduQueue) where
  space : f.data.length + f.pduSpace ≤ tailroom 0
  uncut : f.headLen < f.pduSpace → f.txSdu = none
  queue_some : ∀ entry ∈ f.txSduQueue, entry.isSome = true

/-- An SDU is moved into the PDU, as far as there is room. -/
theorem Fill.Carries.of_move (hdata : f.data = pieces.flatten)
    (hne : ∀ piece ∈ pieces, piece ≠ []) (hli : f.li = pieces.map length)
    (htodo : todo = pieces ++ sdu.msg :: queueMsgs f.txSduQueue) (hmsg : sdu.msg ≠ [])
    (hspace : f.data.length + f.pduSpace ≤ tailroom 0) (hroom : f.headLen < f.pduSpace)
    (hqueue : ∀ entry ∈ f.txSduQueue, entry.isSome)
    (hpdu : f'.pduSpace = f.pduSpace - toMove f sdu) (hf' : f' =
      { f with
          data := f.data ++ sdu.msg.take (toMove f sdu)
          lastLi := toMove f sdu
          txSdu := sduRest sdu (toMove f sdu)
          tracking := f'.tracking
          list := f'.list
          pduSpace := f'.pduSpace }) :
    f'.Carries todo (pieces ++ [sdu.msg.take (toMove f sdu)]) := by
  have hpos := toMove_pos hmsg hroom
  have htake := length_take_toMove f sdu
  have hle : toMove f sdu ≤ sdu.msg.length := by
    rw [← htake]
    exact length_take_le' _ _
  have hrest : (sduRest sdu (toMove f sdu)).map Sdu.msg = if sdu.msg.length = toMove f sdu then
      none else some (sdu.msg.drop (toMove f sdu)) := by
    rw [sduRest]
    split <;> rfl
  have hfill := Filling.move hdata hne htodo hpos hle hrest
  rw [← hli] at hfill
  rw [hf', hpdu]
  refine { hfill with space := ?_, uncut := fun hlt => if_pos ?_, queue_some := hqueue }
  · change (f.data ++ _).length + (f.pduSpace - _) ≤ _
    have hspace' := toMove_le_space f sdu
    rw [length_append, htake]
    omega
  · have hlt : f.headLen < f.pduSpace - toMove f sdu := hlt
    unfold toMove at hlt ⊢
    split
    · rfl
    · next hcut =>
      rw [if_neg hcut] at hlt
      omega

theorem carries_fillInit (hs : SdusNonempty s.txSdu s.txSduQueue)
    (hlen : ∀ sdu, s.txSdu = some sdu → sdu.msg.length ≤ 2047)
    (hqueue : ∀ entry ∈ s.txSduQueue, entry.isSome) (hgrant : minDataPduSize ≤ nofBytes) :
    ∃ pieces, (s.fillInit nofBytes).Carries
      ((s.txSdu.map Sdu.msg).toList ++ queueMsgs s.txSduQueue) pieces := by
  have hspace : 0 + min nofBytes (tailroom 0) ≤ tailroom 0 := by omega
  have hroom := packedLengthOf_zero_lt_space hgrant
  unfold fillInit
  cases hsdu : s.txSdu with
  | none =>
    refine ⟨[], ?_, hspace, fun _ => hsdu, hqueue⟩
    simpa [fillEmpty, hsdu] using Filling.nil (queueMsgs s.txSduQueue)
  | some sdu =>
    refine ⟨_, @Fill.Carries.of_move _ [] (s.fillEmpty nofBytes) _ sdu rfl (by simp) rfl rfl
      (hs.current sdu hsdu) hspace hroom hqueue ?_ rfl⟩
    -- the buffer of the PDU has more room than an SDU is long
    have hle := toMove_le_space (s.fillEmpty nofBytes) sdu
    have htake := length_take_toMove (s.fillEmpty nofBytes) sdu
    have hbig : toMove (s.fillEmpty nofBytes) sdu ≤
        tailroom ([] ++ sdu.msg.take (toMove (s.fillEmpty nofBytes) sdu)).length := by
      have hmax := (length_take_le' (toMove (s.fillEmpty nofBytes) sdu) sdu.msg).trans
        (hlen sdu hsdu)
      rw [nil_append]
      change _ ≤ 12237 - _
      omega
    change (if _ < (s.fillEmpty nofBytes).pduSpace then (s.fillEmpty nofBytes).pduSpace -
      min _ (tailroom ([] ++ sdu.msg.take _).length) else 0) = _
    rw [min_eq_left hbig]
    split <;> omega

theorem Fill.Carries.ended (hf : f.Carries todo pieces) (h : f.Ended f') :
    f'.Carries todo pieces := by
  have hli : f'.li = pieces.dropLast.map length := by
    rcases h.li with hli | hli
    · rw [hli, hf.lengths_eq]
    · rw [hli, nextLi, hf.lengths_last, map_dropLast]
  refine ⟨⟨?_, hf.ne_nil, hli, ?_, ?_, ?_⟩, ?_, fun hlt => ?_, ?_⟩
  · rw [h.data, hf.elements_eq]
  · rw [h.lastLi, hf.last_eq]
  · rw [h.txSdu]
    exact hf.rest
  · rw [h.txSdu, h.txSduQueue]
    exact hf.todo_eq
  · rw [h.data, h.pduSpace]
    exact hf.space
  · rw [h.txSdu]
    exact hf.uncut (h.headLen.trans_lt (h.pduSpace ▸ hlt))
  · rw [h.txSduQueue]
    exact hf.queue_some

theorem Fill.Carries.addSdu {sn : ℕ} {queue : List (Option Sdu)} (hf : f.Carries todo pieces)
    (htodo : ∀ msg ∈ todo, msg ≠ []) (hadds : f.Adds)
    (hwaiting : waiting f.txSduQueue = sdu :: waiting queue) (hsuffix : queue <:+ f.txSduQueue) :
    ((f.opened queue).addSdu sn sdu).Carries todo
      (pieces ++ [sdu.msg.take (toMove (f.opened queue) sdu)]) := by
  have hmsgs : todo = pieces ++ sdu.msg :: queueMsgs queue := by
    have htodo := hf.todo_eq
    rwa [hf.uncut hadds.1, map_none, getD_none, joinLast_nil_right, queueMsgs, hwaiting,
      map_cons] at htodo
  have hmsg : sdu.msg ≠ [] := htodo _ (by rw [hmsgs]; simp)
  refine Fill.Carries.of_move hf.elements_eq hf.ne_nil hf.lengths_last hmsgs hmsg hf.space
    hadds.2.2.2.2 (fun entry hentry => hf.queue_some entry (hsuffix.subset hentry)) ?_ rfl
  change (if toMove (f.opened queue) sdu < f.pduSpace then f.pduSpace - _ else 0) = f.pduSpace - _
  split
  · rfl
  · omega

/-! ## The PDU -/

/-- What `build_data_pdu` sends between the states `s` and `t`. -/
structure Sends (s : Tx) (f : Frame UInt8) (pdu : AmdPdu) (t : Tx) : Prop extends
    f.Takes (s.txSdu.map Sdu.msg) (queueMsgs s.txSduQueue) (t.txSdu.map Sdu.msg)
      (queueMsgs t.txSduQueue) where
  sentAs : ∀ n, s.vtS = n % snMod → SentAs n f pdu
  vtS : t.vtS = seqSucc snMod s.vtS
  queue_some : ∀ entry ∈ t.txSduQueue, entry.isSome = true

theorem finishData_snd (s : Tx) (startedSdu : Bool) (f : Fill) :
    ∃ p, (s.finishData startedSdu f).2 =
      some ({ p := p, fi := ⟨startedSdu, f.txSdu.isSome⟩, sn := s.vtS, li := f.li }, f.data) := by
  unfold finishData
  dsimp only
  generalize pollRequired _ = p
  cases p with
  | true | false => exact ⟨_, rfl⟩

theorem sends_buildDataPdu {pdu : AmdPdu} (hs : SdusNonempty s.txSdu s.txSduQueue)
    (hlen : ∀ sdu, s.txSdu = some sdu → sdu.msg.length ≤ 2047)
    (hqueue : ∀ entry ∈ s.txSduQueue, entry.isSome)
    (h : s.buildDataPdu nofBytes = (t, some pdu)) : ∃ f, Sends s f pdu t := by
  have hrefuses : s.refusesData nofBytes = false := by
    apply Bool.eq_false_iff.mpr
    intro hrefuses
    simp [buildDataPdu, hrefuses] at h
  rcases buildDataPdu_cases hrefuses with ⟨f, hpull, hbuild⟩ | ⟨f, -, hbuild⟩
  case inr => simp [hbuild] at h
  rw [hbuild] at h
  simp only [refusesData, Bool.or_eq_false_iff, decide_eq_false_iff_not, not_lt] at hrefuses
  obtain ⟨⟨⟨hdata, -⟩, hgrant⟩, -⟩ := hrefuses
  -- a queue without discarded SDUs that is not empty has an SDU
  have hsdus : s.txSdu = none → 0 < nSdus s.txSduQueue := by
    intro hnone
    have hne : s.txSduQueue ≠ [] := by simpa [hnone] using hdata
    obtain ⟨entry, queue, hcons⟩ := exists_cons_of_ne_nil hne
    obtain ⟨sdu, rfl⟩ := isSome_iff_exists.mp (hqueue entry (by simp [hcons]))
    simp [hcons, nSdus]
  have htodo : ∀ msg ∈ (s.txSdu.map Sdu.msg).toList ++ queueMsgs s.txSduQueue, msg ≠ [] := by
    simpa [queueMsgs, or_imp, forall_and] using ⟨hs.current, hs.waiting⟩
  obtain ⟨pieces₀, hinit⟩ := @carries_fillInit (s.addPdu s.vtS) nofBytes hs hlen hqueue hgrant
  obtain ⟨pieces, hcarries⟩ : ∃ pieces, f.Carries _ pieces := by
    refine pull_invariant (fun f => ∃ pieces, f.Carries _ pieces) ?_ ?_
      ⟨pieces₀, hinit⟩ (.inl hpull)
    · rintro f g ⟨pieces, hf⟩ hended
      exact ⟨pieces, hf.ended hended⟩
    · rintro f sdu queue ⟨pieces, hf⟩ hadds hwaiting hsuffix
      exact ⟨_, hf.addSdu htodo hadds hwaiting hsuffix⟩
  have hne : pieces ≠ [] := by
    have hdata := (@sane_pull_fillInit (s.addPdu s.vtS) _ _ _ hs hgrant hsdus hpull).2
    rintro rfl
    exact hdata hcarries.elements_eq
  obtain ⟨frame, htakes, hbytes, hli, -⟩ := hcarries.exists_takes rfl hne
  have hfinished := finished_finishData (s.addPdu s.vtS) s.txSdu.isSome f
  obtain ⟨p, hpdu⟩ := finishData_snd (s.addPdu s.vtS) s.txSdu.isSome f
  rw [h] at hfinished hpdu
  cases hpdu
  refine ⟨frame, ?_, fun n hn => ⟨rfl, hn, ?_, hli.symm, hbytes.symm, ?_⟩, hfinished.vtS, ?_⟩
  · rw [hfinished.txSdu, hfinished.txSduQueue]
    exact htakes
  · rw [htakes.notEnd, isSome_map]
  · exact (Nat.le_add_right _ _).trans hcarries.space
  · rw [hfinished.txSduQueue]
    exact hcarries.queue_some

end Tx

/-! ## The stream -/

/-- SDUs given to a transmitter and the data PDUs built of them. Between the calls of
`build_data_pdu` everything else may change. -/
inductive SendRun : Tx → List (List UInt8) → List AmdPdu → Prop
  | init (cfg : TxCfg) : SendRun { cfg := cfg } [] []
  | write {s : Tx} {sdus : List (List UInt8)} {pdus : List AmdPdu} (h : SendRun s sdus pdus)
      {sdu : Sdu} (hmsg : sdu.msg ≠ [] ∧ sdu.msg.length ≤ 2047)
      (hroom : (s.txEnabled && decide (s.txSduQueue.length < s.cfg.txQueueLength)) = true) :
      SendRun (s.writeSdu sdu) (sdus ++ [sdu.msg]) pdus
  | build {s t : Tx} {sdus : List (List UInt8)} {pdus : List AmdPdu} {nofBytes : ℕ} {pdu : AmdPdu}
      (h : SendRun s sdus pdus) (hbuild : s.buildDataPdu nofBytes = (t, some pdu)) :
      SendRun t sdus (pdus ++ [pdu])
  | other {s t : Tx} {sdus : List (List UInt8)} {pdus : List AmdPdu} (h : SendRun s sdus pdus)
      (htxSdu : t.txSdu = s.txSdu) (hqueue : t.txSduQueue = s.txSduQueue) (hvtS : t.vtS = s.vtS) :
      SendRun t sdus pdus

/-- PDUs with the frames of a stream. -/
structure Carried (frames : List (Frame UInt8)) (pdus : List AmdPdu) : Prop where
  wellFramed : WellFramed 2047 frames
  data_eq : pdus.map Prod.snd = frames.map Frame.elements
  sent : ∀ n pdu, pdus[n]? = some pdu → ∃ f, frames[n]? = some f ∧ SentAs n f pdu

theorem Carried.length_eq (h : Carried frames pdus) : pdus.length = frames.length := by
  simpa using congrArg length h.data_eq

/-- A transmitter, the SDUs given to it and the frames it sent. -/
structure SendInv (s : Tx) (sdus : List (List UInt8)) (frames : List (Frame UInt8)) : Prop
    extends Sending 2047 sdus (s.txSdu.map Sdu.msg) (queueMsgs s.txSduQueue) frames where
  queue_some : ∀ entry ∈ s.txSduQueue, entry.isSome = true
  vtS : s.vtS = frames.length % snMod

variable {s t : Tx} {sdus : List (List UInt8)}

theorem SendInv.write (h : SendInv s sdus frames) {sdu : Sdu}
    (hmsg : sdu.msg ≠ [] ∧ sdu.msg.length ≤ 2047)
    (hroom : (s.txEnabled && decide (s.txSduQueue.length < s.cfg.txQueueLength))) :
    SendInv (s.writeSdu sdu) (sdus ++ [sdu.msg]) frames := by
  rw [writeSdu, if_pos hroom]
  refine ⟨?_, forall_mem_append.mpr ⟨h.queue_some, forall_mem_singleton.mpr rfl⟩, h.vtS⟩
  simpa [queueMsgs, waiting] using h.append_item hmsg.1 hmsg.2

theorem SendInv.build {nofBytes : ℕ} (h : SendInv s sdus frames)
    (hbuild : s.buildDataPdu nofBytes = (t, some pdu)) :
    ∃ f, SentAs frames.length f pdu ∧ SendInv t sdus (frames ++ [f]) := by
  have hs : SdusNonempty s.txSdu s.txSduQueue := by
    have hne := h.ne_nil
    simp [queueMsgs, or_imp, forall_and] at hne
    exact ⟨hne.1, hne.2⟩
  have hlen : ∀ sdu, s.txSdu = some sdu → sdu.msg.length ≤ 2047 := fun sdu hsdu =>
    h.cut.pending_le _ (by simp [hsdu])
  obtain ⟨f, hsends⟩ := sends_buildDataPdu hs hlen h.queue_some hbuild
  refine ⟨f, hsends.sentAs _ h.vtS, h.toSending.frame hsends.toTakes, hsends.queue_some, ?_⟩
  rw [hsends.vtS, h.vtS, seqSucc, length_append, length_singleton, Nat.mod_add_mod]

theorem SendRun.inv (h : SendRun s sdus pdus) :
    ∃ frames, SendInv s sdus frames ∧ Carried frames pdus := by
  induction h with
  | init cfg =>
    exact ⟨[], ⟨Sending.nil 2047, by simp, rfl⟩, by simp [WellFramed], rfl, by simp⟩
  | write _ hmsg hroom ih =>
    obtain ⟨frames, hinv, hcarried⟩ := ih
    exact ⟨frames, hinv.write hmsg hroom, hcarried⟩
  | @build s t sdus pdus nofBytes pdu _ hbuild ih =>
    obtain ⟨frames, hinv, hcarried⟩ := ih
    obtain ⟨f, hsent, hinv'⟩ := hinv.build hbuild
    refine ⟨frames ++ [f], hinv', hinv'.cut.wellFramed, by simp [hcarried.data_eq, hsent.data_eq],
      forall_getElem?_concat (fun n q hq => ?_) ?_⟩
    · obtain ⟨g, hg, hqsent⟩ := hcarried.sent n q hq
      exact ⟨g, by rw [getElem?_append_left (List.getElem?_eq_some_iff.mp hg).1, hg], hqsent⟩
    · rw [hcarried.length_eq]
      exact ⟨f, getElem?_concat_length, hsent⟩
  | other _ htxSdu hqueue hvtS ih =>
    obtain ⟨frames, hinv, hcarried⟩ := ih
    refine ⟨frames, ⟨?_, ?_, ?_⟩, hcarried⟩
    · rw [htxSdu, hqueue]
      exact hinv.toSending
    · rw [hqueue]
      exact hinv.queue_some
    · rw [hvtS]
      exact hinv.vtS

end MbmsTx.Rlc.Am
