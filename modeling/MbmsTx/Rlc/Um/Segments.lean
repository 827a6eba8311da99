import MbmsTx.Lib.Framing
import MbmsTx.Rlc.Um.Rx

/-!
# The segments of one PDU

Both loops of `reassemble_rx_sdus`, applied to a PDU that holds a frame. If the receiver holds
nothing or all of the SDU that the frame goes on with, it hands SDUs that end in the frame to PDCP,
and then holds nothing or all of the SDU that the frame leaves unfinished.
-/

namespace MbmsTx.Rlc.Um

open List

open MbmsTx.Rlc.Am (Fi tailroom)

/-- The PDU with the absolute number `n` in the window. -/
def pduOf (cfg : UmConfig) (n : ℕ) (f : Frame UInt8) : UmdPdu where
  header :=
    { fi := ⟨f.notStart, f.notEnd⟩
      snSize := cfg.rxSnFieldLength
      sn := n % cfg.rxMod
      li := f.init.map length }
  buf := (f.init ++ [f.last]).flatten

theorem pduOf_buf (cfg : UmConfig) (n : ℕ) (f : Frame UInt8) :
    (pduOf cfg n f).buf = f.init.flatten ++ f.last := by
  simp [pduOf]

namespace Rx

/-- The states differ only in the reassembled SDU and what was handed to PDCP. -/
structure SameWindow (s t : Rx) : Prop where
  cfg : t.cfg = s.cfg
  rxWindow : t.rxWindow = s.rxWindow
  vrUr : t.vrUr = s.vrUr
  vrUx : t.vrUx = s.vrUx
  vrUh : t.vrUh = s.vrUh
  reorderingTimer : t.reorderingTimer = s.reorderingTimer

namespace SameWindow

variable {s t u : Rx}

theorem refl (s : Rx) : s.SameWindow s := ⟨rfl, rfl, rfl, rfl, rfl, rfl⟩

theorem trans (hst : s.SameWindow t) (htu : t.SameWindow u) : s.SameWindow u :=
  ⟨htu.cfg.trans hst.cfg, htu.rxWindow.trans hst.rxWindow, htu.vrUr.trans hst.vrUr,
    htu.vrUx.trans hst.vrUx, htu.vrUh.trans hst.vrUh,
    htu.reorderingTimer.trans hst.reorderingTimer⟩

end SameWindow

variable {s t u : Rx} {fi : Fi} {pieces : List (List UInt8)} {rest : List UInt8} {i : ℕ}

/-- From `s` on the SDUs `new` were handed to PDCP, and `held` is held. -/
structure Handed (s : Rx) (new : List (List UInt8)) (held : List UInt8) (t : Rx) : Prop where
  same : s.SameWindow t
  delivered : t.delivered = s.delivered ++ new
  rxSdu : t.rxSdu = held

theorem Handed.trans {new new' : List (List UInt8)} {held held' : List UInt8}
    (h : s.Handed new held t) (h' : t.Handed new' held' u) : s.Handed (new ++ new') held' u :=
  ⟨h.same.trans h'.same, by rw [h'.delivered, h.delivered, append_assoc], h'.rxSdu⟩

theorem handed_nil (s : Rx) : s.Handed [] s.rxSdu s :=
  ⟨SameWindow.refl s, (append_nil _).symm, rfl⟩

/-- The SDU is given up. -/
theorem handed_clearSdu (s : Rx) (lost : Bool) :
    s.Handed [] [] { s.clearSdu with pduLost := lost } :=
  ⟨⟨rfl, rfl, rfl, rfl, rfl, rfl⟩, (append_nil _).symm, rfl⟩

/-- The SDU ends with `piece`. -/
theorem handed_deliver (s : Rx) (piece : List UInt8) (sn : ℕ) (lost : Bool) :
    s.Handed [s.rxSdu ++ piece] []
      { deliver { s.copy piece with vrUrInRxSdu := sn } with pduLost := lost } :=
  ⟨⟨rfl, rfl, rfl, rfl, rfl, rfl⟩, rfl, rfl⟩

/-! ## Below the reordering window -/

/-- The start of the first segment is known to be lost. -/
def StartLost (fi : Fi) (i : ℕ) (s : Rx) : Prop :=
  s.rxSdu.length = 0 ∧ i = 0 ∧ fi.startAligned = false

theorem take_flatten_cons (piece : List UInt8) (pieces : List (List UInt8)) (rest : List UInt8) :
    ((piece :: pieces).flatten ++ rest).take piece.length = piece ∧
      ((piece :: pieces).flatten ++ rest).drop piece.length = pieces.flatten ++ rest := by
  simp

theorem lowerEdgeLis_spec (hknown : ¬ StartLost fi i s) :
    ∃ t new, lowerEdgeLis fi i (pieces.map length) (pieces.flatten ++ rest) s = (t, rest) ∧
      new.Sublist (joinFirst s.rxSdu pieces) ∧
      s.Handed new (if pieces = [] then s.rxSdu else []) t := by
  induction pieces generalizing i s with
  | nil => exact ⟨s, [], rfl, Sublist.refl _, handed_nil s⟩
  | cons piece pieces ih =>
    obtain ⟨htake, hdrop⟩ := take_flatten_cons piece pieces rest
    have hcond : ¬ (s.rxSdu.length = 0 ∧ i = 0 ∧ fi.startAligned = false) := hknown
    rw [map_cons, lowerEdgeLis, if_neg hcond, htake, hdrop]
    -- the SDU is given up or handed over; the next segment starts a new one
    obtain ⟨t, new, ht, hnew, hround⟩ : ∃ t new, { (if ((s.copy piece).pduLost &&
          !fi.startAligned) || decide ((s.copy piece).vrUr ≠
          ((s.copy piece).vrUrInRxSdu + 1) % (s.copy piece).cfg.rxMod)
        then (s.copy piece).clearSdu else (s.copy piece).deliver) with pduLost := false } = t ∧
        new.Sublist [s.rxSdu ++ piece] ∧ s.Handed new [] t := by
      split
      · exact ⟨_, [], rfl, by simp, handed_clearSdu s false⟩
      · exact ⟨_, _, rfl, Sublist.refl _, handed_deliver s piece s.vrUrInRxSdu false⟩
    have hnext : ¬ StartLost fi (i + 1) t := fun h => absurd h.2.1 (Nat.succ_ne_zero i)
    obtain ⟨u, new', hu, hnew', hrest⟩ := ih hnext
    rw [hround.rxSdu, joinFirst_nil_left] at hnew'
    rw [hround.rxSdu, ite_self] at hrest
    dsimp only
    rw [ht, if_neg (cons_ne_nil _ _)]
    exact ⟨u, new ++ new', hu, hnew.append hnew', hround.trans hrest⟩

/-- The last segment of a PDU: the SDU is given up, handed to PDCP if it ends there, or held. -/
def AfterLast (fi : Fi) (last : List UInt8) (s t : Rx) : Prop :=
  s.Handed [] [] t ∨ fi.endAligned = true ∧ s.Handed [s.rxSdu ++ last] [] t ∨
    fi.endAligned = false ∧ s.Handed [] (s.rxSdu ++ last) t ∧ t.vrUrInRxSdu = s.vrUr

theorem AfterLast.same {last : List UInt8} (h : AfterLast fi last s t) : s.SameWindow t := by
  rcases h with h | ⟨-, h⟩ | ⟨-, h, -⟩ <;> exact h.same

/-- After the last segment, both loops end the PDU in the same way. -/
theorem afterLast_copy (fi : Fi) (last : List UInt8) (s : Rx) (lost : Bool) :
    let t : Rx := { s.copy last with vrUrInRxSdu := s.vrUr }
    AfterLast fi last s (if fi.endAligned then
      { (if lost then t.clearSdu else t.deliver) with pduLost := false } else t) := by
  unfold AfterLast
  cases hend : fi.endAligned with
  | true =>
    cases lost with
    | true => exact .inl ⟨⟨rfl, rfl, rfl, rfl, rfl, rfl⟩, (append_nil _).symm, rfl⟩
    | false => exact .inr (.inl ⟨rfl, handed_deliver s last s.vrUr false⟩)
  | false =>
    exact .inr (.inr ⟨rfl, ⟨⟨rfl, rfl, rfl, rfl, rfl, rfl⟩, (append_nil _).symm, rfl⟩, rfl⟩)

theorem lowerEdgeLast_spec (fi : Fi) (last : List UInt8) (s : Rx) :
    AfterLast fi last s (lowerEdgeLast fi last s) := by
  unfold lowerEdgeLast
  split
  · exact afterLast_copy fi last s _
  rename_i h
  have hempty : s.rxSdu = [] := by
    apply length_eq_zero_iff.mp
    omega
  have hheld := handed_nil s
  rw [hempty] at hheld
  exact .inl hheld

/-! ## In sequence -/

theorem updateLis_spec (hknown : ¬ StartLost fi i s)
    (hlen : ∀ item ∈ joinFirst s.rxSdu pieces, item.length ≤ 2047) :
    ∃ t, updateLis fi i (pieces.map length) (pieces.flatten ++ rest) s = (t, some rest) ∧
      s.Handed (joinFirst s.rxSdu pieces) (if pieces = [] then s.rxSdu else []) t := by
  induction pieces generalizing i s with
  | nil => exact ⟨s, rfl, handed_nil s⟩
  | cons piece pieces ih =>
    obtain ⟨htake, hdrop⟩ := take_flatten_cons piece pieces rest
    have hfits : ¬ tailroom s.rxSdu.length < piece.length := by
      have hle := hlen (s.rxSdu ++ piece) (by simp)
      have hmax : tailroom s.rxSdu.length = 12237 - s.rxSdu.length := rfl
      rw [length_append] at hle
      omega
    have hcond : ¬ (s.rxSdu.length = 0 ∧ i = 0 ∧ fi.startAligned = false) := hknown
    rw [map_cons, updateLis, if_neg hcond, if_neg hfits, htake, hdrop]
    set t : Rx := if s.pduBelongsToRxSdu then s else { s with vrUrInRxSdu := s.vrUr } with ht
    have hsame : s.Handed [] s.rxSdu t := by
      rw [ht]
      split
      · exact handed_nil s
      · exact ⟨⟨rfl, rfl, rfl, rfl, rfl, rfl⟩, (append_nil _).symm, rfl⟩
    have hbelongs : ({ t.copy piece with vrUrInRxSdu := t.vrUr } : Rx).pduBelongsToRxSdu := by
      simp [pduBelongsToRxSdu, copy]
    rw [if_pos hbelongs]
    have hround := hsame.trans (handed_deliver t piece t.vrUr false)
    rw [hsame.rxSdu] at hround
    set u : Rx :=
      { (deliver { t.copy piece with vrUrInRxSdu := t.vrUr }) with pduLost := false }
    have hnext : ¬ StartLost fi (i + 1) u := fun h => absurd h.2.1 (Nat.succ_ne_zero i)
    have husdu : u.rxSdu = [] := rfl
    obtain ⟨v, hv, hrest⟩ := ih hnext (by
      rw [husdu, joinFirst_nil_left]
      exact fun item hitem => hlen item (by simp [hitem]))
    rw [husdu, ite_self, joinFirst_nil_left] at hrest
    rw [if_neg (cons_ne_nil _ _)]
    exact ⟨v, hv, hround.trans hrest⟩

theorem updateLis_of_startLost {piece : List UInt8} (hlost : StartLost fi 0 s)
    (hlen : ∀ item ∈ pieces, item.length ≤ 2047) :
    ∃ t, updateLis fi 0 ((piece :: pieces).map length) ((piece :: pieces).flatten ++ rest) s =
        (t, some rest) ∧ s.Handed pieces [] t := by
  have hcond : s.rxSdu.length = 0 ∧ (0 : ℕ) = 0 ∧ fi.startAligned = false := hlost
  have hlong : ¬ ((piece :: pieces).flatten ++ rest).length < piece.length := by
    simp
  rw [map_cons, updateLis, if_pos hcond, if_neg hlong, (take_flatten_cons _ _ _).2]
  have hround := handed_clearSdu s false
  set t : Rx := { s.clearSdu with pduLost := false }
  have hnext : ¬ StartLost fi (0 + 1) t := fun h => absurd h.2.1 (Nat.succ_ne_zero 0)
  obtain ⟨u, hu, hrest⟩ := @updateLis_spec t fi pieces rest (0 + 1) hnext (by
    rw [hround.rxSdu, joinFirst_nil_left]
    exact hlen)
  rw [hround.rxSdu, ite_self, joinFirst_nil_left] at hrest
  exact ⟨u, hu, hround.trans hrest⟩

theorem updateLast_spec {header : UmdHeader} {last : List UInt8}
    (hlen : s.rxSdu.length + last.length ≤ 2047) :
    AfterLast header.fi last s (updateLast header last s) := by
  unfold updateLast
  split
  · exact .inl (handed_clearSdu s s.pduLost)
  have hmax : maxBufferSizeBytes = 13257 := rfl
  have hfits : s.rxSdu.length < maxBufferSizeBytes ∧ last.length < maxBufferSizeBytes ∧
      last.length + s.rxSdu.length < maxBufferSizeBytes := by omega
  rw [if_pos hfits]
  exact afterLast_copy header.fi last s _

/-! ## A PDU that holds a frame -/

variable {frames : List (Frame UInt8)} {f : Frame UInt8} {k : ℕ}

theorem held_cases (hl : Lossy frames k s.delivered s.rxSdu)
    (hfit : f.Fits 2047 (unframe (frames.take k)).2) :
    StartLost ⟨f.notStart, f.notEnd⟩ 0 s ∨
      ¬ StartLost ⟨f.notStart, f.notEnd⟩ 0 s ∧ s.rxSdu = (unframe (frames.take k)).2 := by
  by_cases hlost : StartLost ⟨f.notStart, f.notEnd⟩ 0 s
  · exact .inl hlost
  refine .inr ⟨hlost, ?_⟩
  rcases hl.held with hnil | hpart
  · have hstart : f.notStart = false := by
      by_contra hstart
      exact hlost ⟨by simp [hnil], rfl, by simpa [Fi.startAligned_eq] using hstart⟩
    have hpart : (unframe (frames.take k)).2 = [] := by
      by_contra hne
      exact absurd (hfit.start.mpr hne) (by simp [hstart])
    rw [hnil, hpart]
  · exact hpart

variable (part : List UInt8)

theorem completes_of_not_notEnd (hend : f.notEnd = false) : f.completes part =
      joinFirst part f.init ++ [(if f.init = [] then part else []) ++ f.last] := by
  rw [Frame.completes, if_neg (by simp [hend]), joinFirst_concat]

theorem leaves_of_notEnd (hend : f.notEnd) :
    f.leaves part = (if f.init = [] then part else []) ++ f.last := by
  rw [Frame.leaves, if_pos hend]

/-- From the state `s` the receiver took the frame `k`. -/
structure Took (frames : List (Frame UInt8)) (k : ℕ) (s t : Rx) : Prop where
  same : s.SameWindow t
  lossy : Lossy frames (k + 1) t.delivered t.rxSdu
  inSdu : t.rxSdu = [] ∨ t.vrUrInRxSdu = s.vrUr

variable (hl : Lossy frames k s.delivered s.rxSdu) (hf : frames[k]? = some f)
include hl hf

omit hf in
theorem took_of_handed_nil (h : s.Handed [] [] t) : Took frames k s t := by
  refine ⟨h.same, ?_, .inl h.rxSdu⟩
  rw [h.delivered, append_nil, h.rxSdu]
  exact hl.lose

/-- After the last segment: the state `t` before it has handed over the SDUs `new` and holds what
the last segment goes on with. -/
theorem took_of_afterLast {new : List (List UInt8)}
    (hnew : new.Sublist (joinFirst (unframe (frames.take k)).2 f.init))
    (hinit : s.Handed new (if f.init = [] then (unframe (frames.take k)).2 else []) t)
    (hlast : AfterLast ⟨f.notStart, f.notEnd⟩ f.last t u) : Took frames k s u := by
  have hcompletes := hnew.trans (f.joinFirst_init_sublist _)
  unfold AfterLast at hlast
  rw [Fi.endAligned_eq, hinit.rxSdu] at hlast
  have htook : ∀ {new' held}, t.Handed new' held u →
      (new ++ new').Sublist (f.completes (unframe (frames.take k)).2) →
      held = [] ∨ held = f.leaves (unframe (frames.take k)).2 ∧ u.vrUrInRxSdu = t.vrUr →
      Took frames k s u := by
    intro new' held h hsub hheld
    have hall := hinit.trans h
    refine ⟨hall.same, ?_, hheld.imp h.rxSdu.trans fun hin => hin.2.trans hinit.same.vrUr⟩
    rw [hall.delivered, hall.rxSdu]
    exact hl.take hf hsub (hheld.imp_right And.left)
  rcases hlast with hgiven | ⟨hend, hhanded⟩ | ⟨hend, hheld, hin⟩
  · exact htook hgiven (by rwa [append_nil]) (.inl rfl)
  · refine htook hhanded ?_ (.inl rfl)
    rw [completes_of_not_notEnd _ (by simpa using hend)]
    exact hnew.append (Sublist.refl _)
  · refine htook hheld (by rwa [append_nil]) (.inr ⟨?_, hin⟩)
    rw [leaves_of_notEnd _ (by simpa using hend)]

theorem took_lowerEdge {n : ℕ} (hfit : f.Fits 2047 (unframe (frames.take k)).2)
    {r : Rx × List UInt8}
    (hr : lowerEdgeLis (pduOf s.cfg n f).header.fi 0 (pduOf s.cfg n f).header.li
      (pduOf s.cfg n f).buf s = r) {t : Rx}
    (ht : lowerEdgeLast (pduOf s.cfg n f).header.fi r.2 r.1 = t) : Took frames k s t := by
  have hfi : (pduOf s.cfg n f).header.fi = ⟨f.notStart, f.notEnd⟩ := rfl
  have hli : (pduOf s.cfg n f).header.li = f.init.map length := rfl
  rw [pduOf_buf, hfi, hli] at hr
  rw [hfi] at ht
  rcases held_cases hl hfit with hlost | ⟨hknown, hsdu⟩
  · -- nothing of the PDU is used
    have hskipped : s.Handed [] [] r.1 := by
      rw [← hr]
      cases hinit : f.init with
      | nil =>
        have hheld := handed_nil s
        rwa [length_eq_zero_iff.mp hlost.1] at hheld
      | cons piece pieces =>
        have hcond : s.rxSdu.length = 0 ∧ (0 : ℕ) = 0 ∧
            Fi.startAligned ⟨f.notStart, f.notEnd⟩ = false := hlost
        rw [map_cons, lowerEdgeLis, if_pos hcond]
        exact handed_clearSdu s s.pduLost
    have hlast : lowerEdgeLast ⟨f.notStart, f.notEnd⟩ r.2 r.1 = r.1 := by
      rw [lowerEdgeLast, if_neg]
      rintro (hpos | hstart)
      · simp [hskipped.rxSdu] at hpos
      · exact absurd (hlost.2.2.symm.trans hstart) Bool.false_ne_true
    rw [← ht, hlast]
    exact took_of_handed_nil hl hskipped
  · obtain ⟨t', new, hlis, hnew, hinit⟩ :=
      @lowerEdgeLis_spec s ⟨f.notStart, f.notEnd⟩ f.init f.last 0 hknown
    rw [hlis] at hr
    have hlast := lowerEdgeLast_spec ⟨f.notStart, f.notEnd⟩ r.2 r.1
    rw [ht, ← hr] at hlast
    rw [hsdu] at hnew hinit
    exact took_of_afterLast hl hf hnew hinit hlast

omit hl hf in
theorem length_last_le {part : List UInt8} (hfit : f.Fits 2047 part) :
    (if f.init = [] then part else []).length + f.last.length ≤ 2047 := by
  rw [← length_append]
  cases hend : f.notEnd with
  | true =>
    rw [← leaves_of_notEnd _ hend]
    exact hfit.leaves_le
  | false =>
    refine hfit.completes_le _ ?_
    rw [completes_of_not_notEnd _ hend]
    simp

theorem took_update {n : ℕ} (hfit : f.Fits 2047 (unframe (frames.take k)).2) :
    ∃ t buf, updateLis (pduOf s.cfg n f).header.fi 0 (pduOf s.cfg n f).header.li
        (pduOf s.cfg n f).buf s = (t, some buf) ∧
      Took frames k s (updateLast (pduOf s.cfg n f).header buf t) := by
  have hfi : (pduOf s.cfg n f).header.fi = ⟨f.notStart, f.notEnd⟩ := rfl
  have hli : (pduOf s.cfg n f).header.li = f.init.map length := rfl
  -- what remains once the length indicators are handled
  have hfinish : ∀ {t : Rx} {new : List (List UInt8)},
      new.Sublist (joinFirst (unframe (frames.take k)).2 f.init) →
      s.Handed new (if f.init = [] then (unframe (frames.take k)).2 else []) t →
      Took frames k s (updateLast (pduOf s.cfg n f).header f.last t) := by
    intro t new hnew hinit
    have hlen : t.rxSdu.length + f.last.length ≤ 2047 := by
      rw [hinit.rxSdu]
      exact length_last_le hfit
    exact took_of_afterLast hl hf hnew hinit (updateLast_spec hlen)
  rw [pduOf_buf, hfi, hli]
  rcases held_cases hl hfit with hlost | ⟨hknown, hsdu⟩
  · cases hinit : f.init with
    | nil =>
      -- the only segment is given up
      have hlast : updateLast (pduOf s.cfg n f).header f.last s = s.clearSdu := by
        rw [updateLast, if_pos]
        exact ⟨hlost.1, by rw [hli, hinit]; rfl, hlost.2.2⟩
      refine ⟨s, f.last, rfl, ?_⟩
      rw [hlast]
      exact took_of_handed_nil hl (handed_clearSdu s s.pduLost)
    | cons piece pieces =>
      have hlen : ∀ item ∈ pieces, item.length ≤ 2047 := by
        intro item hitem
        apply hfit.completes_le
        refine (f.joinFirst_init_sublist _).subset ?_
        rw [hinit]
        simp [hitem]
      obtain ⟨t, ht, hhanded⟩ :=
        @updateLis_of_startLost s ⟨f.notStart, f.notEnd⟩ pieces f.last piece hlost hlen
      refine ⟨t, f.last, ht, @hfinish t pieces ?_ ?_⟩
      · rw [hinit, joinFirst_cons]
        exact sublist_cons_self _ _
      · rwa [hinit, if_neg (cons_ne_nil _ _)]
  · have hlen : ∀ item ∈ joinFirst s.rxSdu f.init, item.length ≤ 2047 := by
      rw [hsdu]
      exact fun item hitem => hfit.completes_le item ((f.joinFirst_init_sublist _).subset hitem)
    obtain ⟨t, ht, hhanded⟩ :=
      @updateLis_spec s ⟨f.notStart, f.notEnd⟩ f.init f.last 0 hknown hlen
    rw [hsdu] at hhanded
    exact ⟨t, f.last, ht, hfinish (Sublist.refl _) hhanded⟩

end Rx

end MbmsTx.Rlc.Um
