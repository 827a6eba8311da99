import MbmsTx.Lib.Transition
import MbmsTx.Rlc.Um.Receiving
import MbmsTx.Rlc.Um.Tx

/-!
# A UM transmitter and its receiver

The PDUs of a transmitter reach the receiver in any order, some never and some more than once. As
long as no PDU is further from the highest one received than the reordering window, the receiver
takes each for the right one, and what it hands to PDCP is a sublist of what was sent. The
transmitter does not test the number of its length indicators, so that a PDU of many short SDUs
writes behind the end of their array.
-/

namespace MbmsTx.Rlc.Um

open MbmsTx.Transition List Nat
open MbmsTx.Rlc.Am (maxLis)

/-! ## The bytes of a PDU -/

variable {f : Frame UInt8} {rx : Rx} {highest : Option ℕ}

theorem length_le_of_mem_init {part piece : List UInt8} (hfit : f.Fits 2047 part)
    (h : piece ∈ f.init) : piece.length ≤ 2047 := by
  obtain ⟨item, hitem, hle⟩ := @exists_mem_joinFirst _ part _ _ h
  exact hle.trans (hfit.completes_le item ((f.joinFirst_init_sublist part).subset hitem))

theorem Rx.handleDataPdu_encodeFrame (s : Rx) {part : List UInt8} (hfit : f.Fits 2047 part)
    (hfew : f.init.length ≤ maxLis) (n : ℕ) :
    s.handleDataPdu (Tx.encodeFrame s.cfg.rxSnFieldLength (n % s.cfg.rxMod) f) =
      s.handlePdu (pduOf s.cfg n f) := by
  have hsn : n % s.cfg.rxMod < 2 ^ s.cfg.rxSnFieldLength.bits := by
    rw [← s.cfg.rxMod_eq]
    exact mod_lt _ s.mod_pos
  have hlis : ∀ li ∈ f.init.map length, li < 2048 := by
    intro li hli
    obtain ⟨piece, hpiece, rfl⟩ := mem_map.mp hli
    exact lt_succ_of_le (length_le_of_mem_init hfit hpiece)
  have hlen : (f.init.map length).length ≤ maxLis := by rwa [length_map]
  have hread := @readDataPduHeader_writeDataPduHeader (pduOf s.cfg n f).header hsn
    hlen hlis (pduOf s.cfg n f).buf
  have hbytes : Tx.encodeFrame s.cfg.rxSnFieldLength (n % s.cfg.rxMod) f =
      writeDataPduHeader (pduOf s.cfg n f).header ++ (pduOf s.cfg n f).buf := rfl
  unfold Rx.handleDataPdu
  rw [hbytes]
  have hsize : (pduOf s.cfg n f).header.snSize = s.cfg.rxSnFieldLength := rfl
  rw [hsize] at hread
  rw [hread]
  dsimp only
  rw [← length_writeDataPduHeader, drop_left]

/-! ## Runs -/

/-- A transmitter and a receiver, with the SDUs written, the PDUs sent, and the number of the
highest PDU stored. -/
structure Link where
  tx : Tx
  rx : Rx
  sdus : List (List UInt8) := []
  pdus : List (List UInt8) := []
  highest : Option ℕ := none

/-- The PDU with the number `n` may arrive any time after it was sent, any number of times or never.
-/
inductive LinkAction
  | writeSdu (sdu : List UInt8)
  | readPdu (nofBytes : ℕ)
  | receive (n : ℕ)
  | timerExpired

/-- One event. The SDUs are not empty and fit a length indicator; only a running timer expires. -/
def Link.step (st : Link) : LinkAction → Option Link
  | .writeSdu sdu =>
    if sdu ≠ [] ∧ sdu.length ≤ 2047 then
      some { st with tx := st.tx.writeSdu sdu, sdus := st.sdus ++ [sdu] }
    else none
  | .readPdu nofBytes =>
    let (tx, pdu) := st.tx.buildDataPdu nofBytes
    some { st with tx := tx, pdus := st.pdus ++ pdu.toList }
  | .receive n =>
    st.pdus[n]?.map fun payload =>
      { st with
          rx := st.rx.handleDataPdu payload
          highest :=
            if st.rx.accepts (n % st.rx.cfg.rxMod) then some (st.highest.elim n (max n))
            else st.highest }
  | .timerExpired =>
    if st.rx.reorderingTimer then some { st with rx := st.rx.timerExpired } else none

/-- A transmitter and a receiver that agree on the length of the sequence numbers. -/
def linkSystem : System Link LinkAction where
  Init st := ∃ txCfg rxCfg : UmConfig, txCfg.txSnFieldLength = rxCfg.rxSnFieldLength ∧
    st = { tx := { cfg := txCfg }, rx := { cfg := rxCfg } }
  step := Link.step

/-- The arrivals: a PDU is at most one reordering window above the highest one received, and inside
the reordering window below it. -/
def Link.WithinWindow (st : Link) : LinkAction → Prop
  | .receive n =>
    match st.highest with
    | none => True
    | some h => h < n + st.rx.cfg.rxWindowSize ∧ n ≤ h + st.rx.cfg.rxWindowSize
  | _ => True

instance (st : Link) : (a : LinkAction) → Decidable (st.WithinWindow a)
  | .receive n =>
    match h : st.highest with
    | none => isTrue (by simp only [Link.WithinWindow, h])
    | some top =>
      decidable_of_iff (top < n + st.rx.cfg.rxWindowSize ∧ n ≤ top + st.rx.cfg.rxWindowSize)
        (by simp only [Link.WithinWindow, h])
  | .writeSdu _ | .readPdu _ | .timerExpired => isTrue trivial

/-- The number of SDUs of which the next PDU has a piece. -/
def Tx.sduPieces (s : Tx) (nofBytes : ℕ) : ℕ :=
  s.pending.length - (s.buildDataPdu nofBytes).1.txSduQueue.length

/-- Moreover, no PDU has pieces of more SDUs than there are length indicators. -/
def Link.Bounded (st : Link) : LinkAction → Prop
  | .readPdu nofBytes => st.tx.sduPieces nofBytes ≤ maxLis
  | a => st.WithinWindow a

instance (st : Link) : (a : LinkAction) → Decidable (st.Bounded a)
  | .readPdu nofBytes => inferInstanceAs (Decidable (st.tx.sduPieces nofBytes ≤ maxLis))
  | .receive n => inferInstanceAs (Decidable (st.WithinWindow (.receive n)))
  | .writeSdu _ | .timerExpired => isTrue trivial

/-- The length indicators are inside their array, and the SDUs handed to PDCP were sent, in their
order and each at most once. -/
structure Link.Sound (st : Link) : Prop where
  inside : st.tx.liOutside = false
  sublist : st.rx.delivered.Sublist st.sdus

namespace Link

variable {st st' : Link} {frames : List (Frame UInt8)} {n : ℕ}

/-- The receiver has stored nothing, or waits for the PDU `k` after the highest one `h`. -/
def RxInv (cfg : UmConfig) (frames : List (Frame UInt8)) (rx : Rx) : Option ℕ → Prop
  | none => rx = { cfg := cfg }
  | some h => rx.cfg = cfg ∧ h < frames.length ∧ ∃ accepted k, rx.Rest frames accepted (h + 1) k

/-- The frames were sent, in PDUs with their numbers, and the receiver waits. -/
structure Inv (cfg : UmConfig) (frames : List (Frame UInt8)) (st : Link) : Prop where
  sent : st.tx.Sent st.sdus frames
  snSize : st.tx.cfg.txSnFieldLength = cfg.rxSnFieldLength
  length_eq : st.pdus.length = frames.length
  pdus_eq : ∀ n f, frames[n]? = some f → f.init.length ≤ maxLis ∧
    st.pdus[n]? = some (Tx.encodeFrame cfg.rxSnFieldLength (n % cfg.rxMod) f)
  rx : RxInv cfg frames st.rx st.highest
  inside : st.tx.liOutside = false

theorem RxInv.cfg_eq {cfg : UmConfig} (h : RxInv cfg frames rx highest) : rx.cfg = cfg := by
  cases highest with
  | none =>
    have heq : rx = { cfg := cfg } := h
    rw [heq]
  | some top => exact h.1

end Link

namespace Rx

variable {s : Rx} {frames : List (Frame UInt8)} {accepted : List ℕ} {H k b : ℕ}

theorem Rest.append (h : Rest frames accepted H k s) (hH : H ≤ frames.length) (f : Frame UInt8) :
    Rest (frames ++ [f]) accepted H k s := by
  have hk : k ≤ frames.length := le_trans h.window.high hH
  obtain ⟨b, hb, hholds⟩ := h.holds
  refine ⟨⟨⟨h.window.vrUh, h.window.vrUr, h.window.low, h.window.high, fun n hn => ?_,
    h.window.highest, fun {n} hn hn' => ?_, h.window.keys⟩, h.missing, h.near, ⟨b, hb, ?_, ?_⟩⟩,
    h.timer⟩
  · obtain ⟨hlt, hlen⟩ := h.window.lt n hn
    exact ⟨hlt, by simp; omega⟩
  · rw [h.window.find_eq hn hn']
    by_cases hmem : n ∈ accepted
    · rw [if_pos hmem, if_pos hmem, getElem?_append_left (h.window.lt n hmem).2]
    · rw [if_neg hmem, if_neg hmem]
  · exact hholds.out.append hk [f]
  · refine hholds.inSdu.imp_right ?_
    rintro ⟨p, hbp, hpk, hin, hsdu⟩
    refine ⟨p, hbp, hpk, hin, ?_⟩
    rw [take_append_of_le_length (by omega)]
    exact hsdu

end Rx

namespace Link

variable {st st' : Link} {cfg : UmConfig} {frames : List (Frame UInt8)} {n : ℕ}

theorem Inv.writeSdu (h : st.Inv cfg frames) {sdu : List UInt8}
    (hsdu : sdu ≠ [] ∧ sdu.length ≤ 2047) :
    Inv cfg frames { st with tx := st.tx.writeSdu sdu, sdus := st.sdus ++ [sdu] } := by
  exact ⟨h.sent.writeSdu hsdu, h.snSize, h.length_eq, h.pdus_eq, h.rx, h.inside⟩

theorem RxInv.append (h : RxInv cfg frames rx highest) (f : Frame UInt8) :
    RxInv cfg (frames ++ [f]) rx highest := by
  cases highest with
  | none => exact h
  | some top =>
    obtain ⟨hcfg, hlen, accepted, k, hrest⟩ := h
    exact ⟨hcfg, by simp; omega, accepted, k, hrest.append hlen f⟩

theorem Inv.readPdu (h : st.Inv cfg frames) {nofBytes : ℕ}
    (hfew : st.tx.sduPieces nofBytes ≤ maxLis) : ∃ frames', Inv cfg frames'
      { st with
          tx := (st.tx.buildDataPdu nofBytes).1
          pdus := st.pdus ++ (st.tx.buildDataPdu nofBytes).2.toList } := by
  rcases Tx.buildDataPdu_cases h.sent.sendable nofBytes with hnone | ⟨f, t, hsends, hbuild⟩
  · rw [hnone, Option.toList_none, append_nil]
    exact ⟨frames, h⟩
  have hpieces : f.init.length < maxLis := by
    have hpending : st.tx.pending = _ := hsends.todo_eq
    rw [Tx.sduPieces, hbuild, hpending, length_append, length_cons] at hfew
    dsimp only at hfew
    omega
  rw [hbuild, Option.toList_some]
  refine ⟨frames ++ [f], h.sent.frame hsends, ?_, by simp [h.length_eq],
    forall_getElem?_concat (fun n g hg => ?_) ?_, h.rx.append f,
    (hsends.inside hpieces).trans h.inside⟩
  · change t.cfg.txSnFieldLength = _
    rw [hsends.cfg]
    exact h.snSize
  · have hlt : n < st.pdus.length := h.length_eq ▸ (List.getElem?_eq_some_iff.mp hg).1
    rw [getElem?_append_left hlt]
    exact h.pdus_eq n g hg
  · refine ⟨hpieces.le, ?_⟩
    rw [← h.length_eq, getElem?_concat_length, h.sent.vtUs, st.tx.cfg.txMod_eq, cfg.rxMod_eq,
      h.snSize, h.length_eq]

/-- The place to count from when the PDU `n` is the first one: a multiple of the modulus. -/
theorem exists_start (cfg : UmConfig) (n : ℕ) :
    ∃ H, H % cfg.rxMod = 0 ∧ H ≤ n + cfg.rxWindowSize ∧ n < H + cfg.rxWindowSize := by
  have hmod := cfg.rxMod_eq_window
  have hsize := cfg.sixteen_le_window
  have hdiv := div_add_mod n cfg.rxMod
  have hlt := mod_lt n (show 0 < cfg.rxMod by omega)
  rcases lt_or_ge (n % cfg.rxMod) cfg.rxWindowSize with hlow | hhigh
  · exact ⟨cfg.rxMod * (n / cfg.rxMod), mul_mod_right _ _, by omega, by omega⟩
  refine ⟨cfg.rxMod * (n / cfg.rxMod + 1), mul_mod_right _ _, ?_, ?_⟩
  · rw [mul_add, mul_one]
    omega
  · rw [mul_add, mul_one]
    omega

theorem rxInv_handlePdu {accepted : List ℕ} {H k : ℕ}
    (hframes : WellFramed 2047 frames) (h : rx.Rest frames accepted H k)
    (hrx : RxInv rx.cfg frames rx highest) (hlow : H ≤ n + rx.cfg.rxWindowSize)
    (hhigh : n < H + rx.cfg.rxWindowSize) (hf : frames[n]? = some f)
    (htop : H ≤ n → highest.elim n (max n) = n)
    (hbelow : n < H → k ≤ n → highest.elim n (max n) + 1 = H ∧ H ≤ frames.length) :
    RxInv rx.cfg frames (rx.handlePdu (pduOf rx.cfg n f))
      (if rx.accepts (n % rx.cfg.rxMod) then some (highest.elim n (max n)) else highest) := by
  have hlen := (List.getElem?_eq_some_iff.mp hf).1
  cases haccepts : rx.accepts (n % rx.cfg.rxMod) with
  | false =>
    have hsame := @Rx.handlePdu_of_not_accepts rx (pduOf rx.cfg n f) haccepts
    rw [hsame, if_neg Bool.false_ne_true]
    exact hrx
  | true =>
    obtain ⟨hk, hnot⟩ := (h.accepts_iff hlow hhigh hlen).mp haccepts
    obtain ⟨hcfg, k', hrest⟩ := h.handlePdu hframes hhigh hf hk hnot haccepts
    rw [if_pos rfl]
    rcases lt_or_ge n H with hlt | hge
    · obtain ⟨hH, hbound⟩ := hbelow hlt hk
      rw [max_eq_left hlt, ← hH] at hrest
      exact ⟨hcfg, by omega, _, k', hrest⟩
    have hH := htop hge
    rw [max_eq_right (le_succ_of_le hge)] at hrest
    rw [hH]
    exact ⟨hcfg, hlen, _, k', hrest⟩

theorem Inv.receive (h : st.Inv cfg frames) (hin : st.WithinWindow (.receive n))
    {payload : List UInt8} (hpayload : st.pdus[n]? = some payload) :
    RxInv cfg frames (st.rx.handleDataPdu payload)
      (if st.rx.accepts (n % st.rx.cfg.rxMod) then some (st.highest.elim n (max n))
        else st.highest) := by
  have hframes := h.sent.cut.wellFramed
  have hlen : n < frames.length := by
    rw [← h.length_eq]
    exact (List.getElem?_eq_some_iff.mp hpayload).1
  obtain ⟨f, hf⟩ : ∃ f, frames[n]? = some f := ⟨_, getElem?_eq_getElem hlen⟩
  obtain ⟨hfew, hpdu⟩ := h.pdus_eq n f hf
  obtain rfl := Option.some.inj (hpdu.symm.trans hpayload)
  have hrx := h.rx
  obtain rfl := hrx.cfg_eq
  rw [st.rx.handleDataPdu_encodeFrame (hframes n f hf) hfew]
  cases htop : st.highest with
  | none =>
    -- nothing was stored yet
    rw [htop] at hrx
    obtain ⟨H, hzero, hlow, hhigh⟩ := exists_start st.rx.cfg n
    have hrest : st.rx.Rest frames [] H H := by
      have hstart := @Rx.rest_init H st.rx.cfg frames hzero
      have heq : st.rx = { cfg := st.rx.cfg } := hrx
      rw [← heq] at hstart
      exact hstart
    exact rxInv_handlePdu hframes hrest hrx hlow hhigh hf (fun _ => rfl) fun hlt hge => by omega
  | some top =>
    rw [htop] at hrx
    obtain ⟨-, hlt, accepted, k, hrest⟩ := hrx
    simp only [WithinWindow, htop] at hin
    refine rxInv_handlePdu hframes hrest ⟨rfl, hlt, accepted, k, hrest⟩ (by omega) (by omega) hf
      (fun hge => max_eq_left (by omega)) fun hbelow _ => ⟨?_, hlt⟩
    exact congrArg (· + 1) (max_eq_right (le_of_lt_succ hbelow))

theorem Inv.timerExpired (h : st.Inv cfg frames) (hrunning : st.rx.reorderingTimer) :
    RxInv cfg frames st.rx.timerExpired st.highest := by
  have hrx := h.rx
  cases htop : st.highest with
  | none =>
    rw [htop] at hrx
    have heq : st.rx = { cfg := cfg } := hrx
    rw [heq] at hrunning
    cases hrunning
  | some top =>
    rw [htop] at hrx
    obtain ⟨rfl, hlt, accepted, k, hrest⟩ := hrx
    obtain ⟨hcfg, k', hrest'⟩ := hrest.timerExpired h.sent.cut.wellFramed hrunning
    exact ⟨hcfg, hlt, accepted, k', hrest'⟩

theorem Inv.step {a : LinkAction} (h : st.Inv cfg frames) (hin : st.Bounded a)
    (hstep : st.step a = some st') : ∃ frames', st'.Inv cfg frames' := by
  cases a with
  | writeSdu sdu =>
    simp only [Link.step] at hstep
    split at hstep
    · next hsdu =>
      cases hstep
      exact ⟨frames, h.writeSdu hsdu⟩
    · cases hstep
  | readPdu nofBytes =>
    cases hstep
    exact h.readPdu hin
  | receive n =>
    obtain ⟨payload, hpayload, rfl⟩ := Option.map_eq_some_iff.mp hstep
    exact ⟨frames, h.sent, h.snSize, h.length_eq, h.pdus_eq, h.receive hin hpayload, h.inside⟩
  | timerExpired =>
    simp only [Link.step] at hstep
    split at hstep
    · next hrunning =>
      cases hstep
      exact ⟨frames, h.sent, h.snSize, h.length_eq, h.pdus_eq, h.timerExpired hrunning, h.inside⟩
    · cases hstep

theorem Inv.sublist (h : st.Inv cfg frames) : st.rx.delivered.Sublist st.sdus := by
  have hrx := h.rx
  cases htop : st.highest with
  | none =>
    rw [htop] at hrx
    have heq : st.rx = { cfg := cfg } := hrx
    rw [heq]
    simp
  | some top =>
    rw [htop] at hrx
    obtain ⟨-, -, accepted, k, hrest⟩ := hrx
    obtain ⟨b, -, hholds⟩ := hrest.holds
    exact hholds.out.sublist h.sent.cut

end Link

/-- In every run in which the PDUs arrive within one reordering window of the highest one received
and have pieces of at most 512 SDUs, with any losses, repetitions and expiries of the timer, the
SDUs handed to PDCP are SDUs that were sent, in their order and each at most once. -/
theorem um_delivery_sublist {st : Link}
    (hst : (linkSystem.restrict Link.Bounded).Reachable st) : st.Sound := by
  have hinit : ∀ st, linkSystem.Init st → ∃ cfg frames, st.Inv cfg frames := by
    rintro _ ⟨txCfg, rxCfg, hsize, rfl⟩
    exact ⟨rxCfg, [], Tx.sent_init txCfg, hsize, rfl, by simp, rfl, rfl⟩
  have hinv : ∃ cfg frames, st.Inv cfg frames := by
    refine hst.restrict_invariant (fun st => ∃ cfg frames, st.Inv cfg frames) hinit ?_
    rintro st a st' ⟨cfg, frames, hs⟩ hin hstep
    exact ⟨cfg, hs.step hin hstep⟩
  obtain ⟨cfg, frames, h⟩ := hinv
  exact ⟨h.inside, h.sublist⟩

/-- Three SDUs on an MBMS bearer, in three PDUs. The first SDU is cut, and its first PDU lost; the
third PDU arrives before the second, which arrives twice. When the timer has expired, the other two
SDUs are handed to PDCP. -/
theorem um_delivery_sublist_of_loss : ∃ st, (linkSystem.restrict Link.Bounded).Reachable st ∧
      (st.sdus = [replicate 12 1, [2, 2], [3, 3, 3]] ∧ st.pdus.length = 3 ∧
        st.rx.delivered = [[2, 2], [3, 3, 3]]) ∧ st.Sound := by
  have hinit : (linkSystem.restrict Link.Bounded).Init
      { tx := { cfg := mchConfig }, rx := { cfg := mchConfig } } := ⟨mchConfig, mchConfig, rfl, rfl⟩
  exact System.exists_reachable_and hinit
    [.writeSdu (replicate 12 1), .writeSdu [2, 2], .readPdu 8, .readPdu 12,
      .writeSdu [3, 3, 3], .readPdu 8, .receive 2, .receive 1, .receive 1, .timerExpired]
    (by decide +kernel) fun st hst _ => um_delivery_sublist hst

/-- 514 SDUs of one byte in one PDU. -/
theorem not_sound_of_short_sdus : ∃ st, (linkSystem.restrict Link.WithinWindow).Reachable st ∧
      (st.sdus = replicate 514 [1] ∧ st.tx.liOutside = true) ∧ ¬ st.Sound := by
  have hinit : (linkSystem.restrict Link.WithinWindow).Init
      { tx := { cfg := mchConfig }, rx := { cfg := mchConfig } } := ⟨mchConfig, mchConfig, rfl, rfl⟩
  refine System.exists_reachable_and hinit (replicate 514 (.writeSdu [1]) ++ [.readPdu 2000])
    (by decide +kernel) fun st _ hst hsound => ?_
  rw [hsound.inside] at hst
  exact Bool.false_ne_true hst.2

end MbmsTx.Rlc.Um
