import MbmsTx.Rlc.Um.Reordering

/-!
# The events of the receiver

Between two events the next PDU is missing, and the receiver waits for it at most until the
reordering timer expires. `Rest` says what holds then; an arrival and an expiry lead from one such
state to the next.
-/

namespace MbmsTx.Rlc.Um

open List Bool

open MbmsTx.Rlc.Am (sub32)

namespace Rx

variable {s t : Rx} {frames : List (Frame UInt8)} {accepted : List ℕ} {H k n b : ℕ}

/-- Whether `handle_data_pdu` stores a PDU with this SN. -/
def accepts (s : Rx) (sn : ℕ) : Bool :=
  !(decide (s.rxModBase (sub32 s.vrUh s.cfg.rxWindowSize) ≤ s.rxModBase sn) &&
      decide (s.rxModBase sn < s.rxModBase s.vrUr)) &&
    (s.find sn).isNone

/-- A receiver whose next PDU is missing; the held SDU is at most one window older. -/
structure Waiting (frames : List (Frame UInt8)) (accepted : List ℕ) (H k : ℕ) (s : Rx) : Prop where
  window : Window frames accepted H k s
  missing : k ∉ accepted
  near : H ≤ k + s.cfg.rxWindowSize
  holds : ∃ b, k ≤ b + s.cfg.rxWindowSize ∧ HoldsFrom frames b k s

/-- The receiver between two events: a running timer waits for PDUs of the window. -/
structure Rest (frames : List (Frame UInt8)) (accepted : List ℕ) (H k : ℕ) (s : Rx) : Prop extends
    Waiting frames accepted H k s where
  timer : s.reorderingTimer = true → ∃ X, k < X ∧ X ≤ H ∧ s.vrUx = X % s.cfg.rxMod

theorem rest_init (cfg : UmConfig) (frames : List (Frame UInt8)) (hH : H % cfg.rxMod = 0) :
    Rest frames [] H H { cfg := cfg } := by
  have hzero : (0 : ℕ) = H % cfg.rxMod := hH.symm
  refine ⟨⟨⟨hzero, hzero, by simp, Nat.le_refl H, by simp, fun h => absurd h (lt_irrefl H), ?_,
    by simp⟩, by simp, by simp, ⟨H, by simp, ⟨⟨nil_sublist _, .inl rfl⟩, .inl rfl⟩⟩⟩,
    fun h => absurd h (by simp)⟩
  intro n _ _
  simp [find]

/-! ## Receiving a PDU -/

theorem Window.store (h : Window frames accepted H k s) (hk : k ≤ n)
    (hn : n < H + s.cfg.rxWindowSize) (hnear : H ≤ k + s.cfg.rxWindowSize) (hnot : n ∉ accepted)
    {f : Frame UInt8} (hf : frames[n]? = some f) :
    Window frames (n :: accepted) (max H (n + 1)) k
      { s with
          rxWindow := (n % s.cfg.rxMod, pduOf s.cfg n f) :: s.rxWindow
          vrUh := max H (n + 1) % s.cfg.rxMod } := by
  have hmod := s.cfg.rxMod_eq_window
  have hlen := (List.getElem?_eq_some_iff.mp hf).1
  refine ⟨rfl, h.vrUr, ?_, ?_, fun m hm => ?_, fun hlt => ?_, fun {m} hm hm' => ?_,
    fun entry hentry => ?_⟩
  · change max H (n + 1) ≤ k + s.cfg.rxMod
    omega
  · omega
  · rcases mem_cons.mp hm with rfl | hold
    · omega
    · have := (h.lt m hold).1
      exact ⟨by omega, (h.lt m hold).2⟩
  · by_cases hnew : H ≤ n
    · have heq : max H (n + 1) - 1 = n := by omega
      rw [heq]
      simp
    · have heq : max H (n + 1) = H := by omega
      rw [heq] at hlt ⊢
      exact mem_cons_of_mem _ (h.highest hlt)
  · change m < k + s.cfg.rxMod at hm'
    rw [find, lookup_cons]
    by_cases heq : m = n
    · rw [heq, beq_self_eq_true, if_pos mem_cons_self, hf, Option.map_some]
    have hne : m % s.cfg.rxMod ≠ n % s.cfg.rxMod := by
      rcases Nat.lt_or_gt_of_ne heq with hlt | hgt
      · exact (mod_ne_of_lt hlt (by omega)).symm
      · exact mod_ne_of_lt hgt (by omega)
    have hmem : m ∈ n :: accepted ↔ m ∈ accepted := by simp [heq]
    rw [beq_eq_false_iff_ne.mpr hne]
    simp only [hmem]
    exact h.find_eq hm hm'
  · rcases mem_cons.mp hentry with rfl | hold
    · exact ⟨n, mem_cons_self, hk, rfl⟩
    · obtain ⟨m, hm, hkm, hmod⟩ := h.keys entry hold
      exact ⟨m, mem_cons_of_mem _ hm, hkm, hmod⟩

namespace Waiting

section

variable (h : Waiting frames accepted H k s)
include h

theorem rxModBase_vrUr : s.rxModBase s.vrUr = k + s.cfg.rxWindowSize - H := by
  have hsize := s.cfg.sixteen_le_window
  have hhigh := h.window.high
  rw [h.window.vrUr]
  exact rxModBase_mod h.window.vrUh h.near (by omega)

theorem rest {running : Bool} {vrUx : ℕ}
    (htimer : running → ∃ X, k < X ∧ X ≤ H ∧ vrUx = X % s.cfg.rxMod) :
    Rest frames accepted H k { s with reorderingTimer := running, vrUx := vrUx } := by
  obtain ⟨b, hb, hholds⟩ := h.holds
  exact ⟨⟨{ h.window with }, h.missing, h.near, b, hb, { hholds with }⟩, htimer⟩

theorem rest_start {running c : Bool} (vrUx : ℕ)
    (htimer : running → ∃ X, k < X ∧ X ≤ H ∧ vrUx = X % s.cfg.rxMod)
    (hc : c → s.rxModBase s.vrUr < s.rxModBase s.vrUh) :
    Rest frames accepted H k
      (if c then { s with reorderingTimer := true, vrUx := s.vrUh }
        else { s with reorderingTimer := running, vrUx := vrUx }) := by
  split
  · next hstart =>
    have hlt := hc hstart
    rw [h.rxModBase_vrUr, rxModBase_vrUh h.window.vrUh] at hlt
    exact h.rest fun _ => ⟨H, by omega, Nat.le_refl H, h.window.vrUh⟩
  · exact h.rest htimer

theorem timer_kept {X : ℕ} (hX : X ≤ H) (hfar : H < X + s.cfg.rxMod)
    (hux : s.vrUx = X % s.cfg.rxMod) (hgap : X + s.cfg.rxWindowSize < H → k < H)
    (hkept : (decide (s.rxModBase s.vrUx ≤ s.rxModBase s.vrUr) ||
      (!s.insideReorderingWindow s.vrUx && decide (s.vrUx ≠ s.vrUh))) = false) : k < X := by
  have hsize := s.cfg.sixteen_le_window
  have hmod := s.cfg.rxMod_eq_window
  have hnear := h.near
  rw [or_eq_false_iff, decide_eq_false_iff_not, not_le, h.rxModBase_vrUr, hux] at hkept
  rcases lt_or_ge (X + s.cfg.rxWindowSize) H with hbelow | habove
  · -- the PDU is below the window, which is not empty, so the timer was stopped
    have hlt := hgap hbelow
    have hne : s.rxWindow ≠ [] := by
      rw [Ne, h.window.rxWindow_eq_nil_iff]
      intro hall
      have := hall _ (h.window.highest hlt)
      omega
    have hout : s.insideReorderingWindow (X % s.cfg.rxMod) = false := by
      rw [insideReorderingWindow, if_neg (by simp [hne]; omega), rxModBase_vrUh h.window.vrUh,
        rxModBase_below h.window.vrUh (by omega) hbelow, and_eq_false_iff]
      exact .inr (decide_eq_false (by omega))
    have hdiff : X % s.cfg.rxMod ≠ s.vrUh := by
      rw [h.window.vrUh]
      exact (mod_ne_of_lt (by omega) hfar).symm
    have hinside := hkept.2
    rw [hout, decide_eq_true hdiff] at hinside
    cases hinside
  · rw [rxModBase_mod h.window.vrUh habove (by omega)] at hkept
    omega

theorem updateTimer (htimer : s.reorderingTimer → ∃ X, X ≤ H ∧ H < X + s.cfg.rxMod ∧
      s.vrUx = X % s.cfg.rxMod ∧ (X + s.cfg.rxWindowSize < H → k < H)) :
    Rest frames accepted H k s.updateTimer := by
  unfold Rx.updateTimer
  generalize hstop : (decide (s.rxModBase s.vrUx ≤ s.rxModBase s.vrUr) ||
    (!s.insideReorderingWindow s.vrUx && decide (s.vrUx ≠ s.vrUh))) = stops
  have hstopped : ∃ running : Bool, (running → s.reorderingTimer ∧ stops = false) ∧
      (if s.reorderingTimer && stops then { s with reorderingTimer := false } else s) =
        { s with reorderingTimer := running } := by
    split
    · exact ⟨false, by simp, rfl⟩
    · next hkept => exact ⟨s.reorderingTimer, fun hrun => ⟨hrun, by simpa [hrun] using hkept⟩, rfl⟩
  obtain ⟨running, hrunning, heq⟩ := hstopped
  rw [heq]
  refine h.rest_start s.vrUx (fun hrun => ?_) fun hc => of_decide_eq_true (and_eq_true_iff.mp hc).2
  obtain ⟨hrun, hstops⟩ := hrunning hrun
  obtain ⟨X, hX, hfar, hux, hgap⟩ := htimer hrun
  exact ⟨X, h.timer_kept hX hfar hux hgap (hstop.trans hstops), hX, hux⟩

end

end Waiting

theorem cfg_updateTimer (s : Rx) : s.updateTimer.cfg = s.cfg := by
  simp only [updateTimer, apply_ite Rx.cfg, ite_self]

theorem waiting_reassembleRxSdus (hframes : WellFramed 2047 frames)
    (hwindow : Window frames accepted H k s) (hholds : HoldsFrom frames b k s)
    (hb : k ≤ b + s.cfg.rxWindowSize)
    (hheld : k + s.cfg.rxWindowSize < H → k ∈ accepted → Holds frames k s) :
    ∃ k', k ≤ k' ∧ (∀ n, k ≤ n → H ≤ n + s.cfg.rxWindowSize → n < k' → n ∈ accepted) ∧
      Waiting frames accepted H k' s.reassembleRxSdus ∧ s.SameTimer s.reassembleRxSdus ∧
      (k' = k ∧ HoldsFrom frames b k' s.reassembleRxSdus ∨ Holds frames k' s.reassembleRxSdus) := by
  have hsize := s.cfg.sixteen_le_window
  have hmod := s.cfg.rxMod_eq_window
  obtain ⟨k', hk, hnear, hmissing, hall, hwindow', htimer, hcases⟩ :=
    reassembleRxSdus_spec hframes hwindow hholds (by omega) hheld
  refine ⟨k', hk, hall, ⟨hwindow', hmissing, by rw [htimer.cfg]; exact hnear, ?_⟩, htimer, hcases⟩
  rw [htimer.cfg]
  rcases hcases with ⟨rfl, hfrom⟩ | hholds'
  · exact ⟨b, hb, hfrom⟩
  refine ⟨k' - 1, by omega, hholds'.from ?_⟩
  rcases hholds'.inSdu with hnil | ⟨p, hp, -⟩
  · exact .inr hnil
  omega

/-- `handle_data_pdu` discards a PDU that was taken, given up or stored, and stores any other one.
-/
theorem Rest.accepts_iff (h : Rest frames accepted H k s) (hlow : H ≤ n + s.cfg.rxWindowSize)
    (hhigh : n < H + s.cfg.rxWindowSize) (hlen : n < frames.length) :
    s.accepts (n % s.cfg.rxMod) ↔ k ≤ n ∧ n ∉ accepted := by
  have hmod := s.cfg.rxMod_eq_window
  have hnear := h.near
  unfold accepts
  rw [rxModBase_lower h.window.vrUh, h.rxModBase_vrUr, rxModBase_mod h.window.vrUh hlow hhigh]
  by_cases hk : k ≤ n
  · rw [h.window.find_eq hk (by omega)]
    by_cases hmem : n ∈ accepted
    · simp [hmem, hlen]
    · have hnot : ¬ n + s.cfg.rxWindowSize - H < k + s.cfg.rxWindowSize - H := by omega
      simp [hmem, hk, hnot]
  · have hlt : n + s.cfg.rxWindowSize - H < k + s.cfg.rxWindowSize - H := by omega
    simp [hk, hlt]

theorem handlePdu_of_not_accepts {pdu : UmdPdu} (h : s.accepts pdu.header.sn = false) :
    s.handlePdu pdu = s := by
  unfold handlePdu
  dsimp only
  split
  · rfl
  rename_i hin
  split
  · rfl
  rename_i hfind
  exfalso
  simp only [accepts, and_eq_false_iff, not_eq_false', and_eq_true, decide_eq_true_eq] at h
  rcases h with hout | hfound
  · omega
  · rw [← Option.not_isSome, not_eq_false'] at hfound
    exact hfind hfound

theorem handlePdu_of_accepts (pdu : UmdPdu) (h : s.accepts pdu.header.sn) {u : Rx}
    (hu : u = { s with rxWindow := (pdu.header.sn, pdu) :: s.rxWindow }) :
    s.handlePdu pdu = (if u.insideReorderingWindow pdu.header.sn then u
      else { u with vrUh := (pdu.header.sn + 1) % s.cfg.rxMod }).reassembleRxSdus.updateTimer := by
  simp only [accepts, and_eq_true, not_eq_true', and_eq_false_iff, decide_eq_false_iff_not] at h
  have hin : ¬ (s.rxModBase (sub32 s.vrUh s.cfg.rxWindowSize) ≤ s.rxModBase pdu.header.sn ∧
      s.rxModBase pdu.header.sn < s.rxModBase s.vrUr) := by
    omega
  have hfind : ¬ (s.find pdu.header.sn).isSome := by
    rw [Option.isNone_iff_eq_none.mp h.2]
    simp
  rw [handlePdu]
  rw [if_neg hin, if_neg hfind, hu]

/-- A stored PDU moves the record of the highest one, and the window, up. -/
theorem Rest.handlePdu (h : Rest frames accepted H k s) (hframes : WellFramed 2047 frames)
    (hhigh : n < H + s.cfg.rxWindowSize) {f : Frame UInt8} (hf : frames[n]? = some f) (hk : k ≤ n)
    (hnot : n ∉ accepted) (haccepts : s.accepts (n % s.cfg.rxMod)) :
    (s.handlePdu (pduOf s.cfg n f)).cfg = s.cfg ∧
      ∃ k', Rest frames (n :: accepted) (max H (n + 1)) k' (s.handlePdu (pduOf s.cfg n f)) := by
  have hsize := s.cfg.sixteen_le_window
  have hmod := s.cfg.rxMod_eq_window
  have hnear := h.near
  set u : Rx := { s with rxWindow := (n % s.cfg.rxMod, pduOf s.cfg n f) :: s.rxWindow } with hu
  rw [handlePdu_of_accepts (pduOf s.cfg n f) haccepts hu]
  have hsn : (pduOf s.cfg n f).header.sn = n % s.cfg.rxMod := rfl
  rw [hsn]
  have hinside : u.insideReorderingWindow (n % s.cfg.rxMod) = decide (n < H) := by
    have hbase : ∀ x, u.rxModBase x = s.rxModBase x := fun _ => rfl
    have hcond : ¬ (u.cfg.rxWindowSize = 0 ∨ u.rxWindow = []) := by
      have : u.cfg.rxWindowSize = s.cfg.rxWindowSize := rfl
      simp [hu]
      omega
    rw [insideReorderingWindow, if_neg hcond]
    simp only [hbase]
    change (decide (s.rxModBase (sub32 s.vrUh s.cfg.rxWindowSize) ≤ _) &&
      decide (_ < s.rxModBase s.vrUh)) = _
    rw [rxModBase_lower h.window.vrUh, rxModBase_vrUh h.window.vrUh,
      rxModBase_mod h.window.vrUh (by omega) hhigh, decide_eq_true (Nat.zero_le _), Bool.true_and,
      decide_eq_decide]
    omega
  have hv : (if u.insideReorderingWindow (n % s.cfg.rxMod) then u
      else { u with vrUh := (n % s.cfg.rxMod + 1) % s.cfg.rxMod }) =
        { u with vrUh := max H (n + 1) % s.cfg.rxMod } := by
    rw [hinside]
    by_cases hlt : n < H
    · rw [decide_eq_true hlt, if_pos rfl, Nat.max_eq_left (by omega), ← h.window.vrUh]
    · rw [decide_eq_false hlt, if_neg Bool.false_ne_true, Nat.max_eq_right (by omega),
        Nat.mod_add_mod]
  rw [hv]
  have hwindow := h.window.store hk hhigh hnear hnot hf
  obtain ⟨b, hb, hholds⟩ := h.holds
  have hholds' : HoldsFrom frames b k { u with vrUh := max H (n + 1) % s.cfg.rxMod } :=
    { hholds with }
  -- below the window, the next PDU is still missing
  have hheld : k + s.cfg.rxWindowSize < max H (n + 1) → k ∈ n :: accepted →
      Holds frames k { u with vrUh := max H (n + 1) % s.cfg.rxMod } := by
    intro hlt hmem
    rcases mem_cons.mp hmem with rfl | hmem
    · omega
    · exact absurd hmem h.missing
  obtain ⟨k', hkk', hall, hwaiting, htimer, -⟩ :=
    waiting_reassembleRxSdus hframes hwindow hholds' hb hheld
  refine ⟨(cfg_updateTimer _).trans htimer.cfg, k', hwaiting.updateTimer fun hrun => ?_⟩
  rw [htimer.reorderingTimer] at hrun
  obtain ⟨X, hkX, hXH, hXux⟩ := h.timer hrun
  rw [htimer.cfg, htimer.vrUx]
  dsimp only at hall ⊢
  have hcfg : u.cfg = s.cfg := rfl
  rw [hcfg] at hall ⊢
  refine ⟨X, by omega, by omega, hXux, fun hfar => ?_⟩
  -- the highest PDU is more than one above those before it, so one of the window is missing
  by_contra hge
  have hmem := hall (max H (n + 1) - 2) (by omega) (by omega) (by omega)
  rcases mem_cons.mp hmem with heq | hold
  · omega
  · have := (h.window.lt _ hold).1
    omega

/-! ## Expiry of the reordering timer -/

/-- The loop of `timer_expired` skips the missing PDUs below `X`. The SDUs held on the way were
begun since `b`. -/
theorem expiryLoop_spec (hframes : WellFramed 2047 frames) {X fuel : ℕ}
    (h : Waiting frames accepted H k s) (hholds : HoldsFrom frames b k s)
    (hb : H ≤ b + s.cfg.rxWindowSize)
    (hkb : b ≤ k) (hX : X ≤ H) (hbX : b ≤ X) (hux : s.vrUx = X % s.cfg.rxMod)
    (hfuel : X ≤ k + fuel) :
    ∃ k', Waiting frames accepted H k' (s.expiryLoop fuel) ∧ s.SameTimer (s.expiryLoop fuel) := by
  induction fuel generalizing k s with
  | zero => exact ⟨k, h, rfl, rfl, rfl⟩
  | succ fuel ih =>
    have hsize := s.cfg.sixteen_le_window
    have hnear := h.near
    have hbase : s.rxModBase s.vrUx = X + s.cfg.rxWindowSize - H := by
      rw [hux]
      exact rxModBase_mod h.window.vrUh (by omega) (by omega)
    rw [expiryLoop, hbase, h.rxModBase_vrUr]
    split
    · next hlt =>
      have hkX : k < X := by omega
      set u : Rx := { s with vrUr := (s.vrUr + 1) % s.cfg.rxMod }
      have hwindow := h.window.skip (by omega) (SameWindow.refl s) h.missing
      have hcfg : u.cfg = s.cfg := rfl
      have hholds' : HoldsFrom frames b (k + 1) u := hholds.skip _
      obtain ⟨k', hk', -, hwaiting, htimer, hcases⟩ :=
        waiting_reassembleRxSdus hframes hwindow hholds' (by rw [hcfg]; omega)
          (fun hfar => by rw [hcfg] at hfar; omega)
      have hnext : HoldsFrom frames b k' u.reassembleRxSdus := by
        rcases hcases with ⟨-, hfrom⟩ | hholds''
        · exact hfrom
        · exact hholds''.from (.inl (by omega))
      have hcfg' := htimer.cfg
      obtain ⟨k'', hwaiting', htimer'⟩ := ih hwaiting hnext (by rw [hcfg']; exact hb) (by omega)
        (by rw [hcfg', htimer.vrUx]; exact hux) (by omega)
      have htimer₀ : s.SameTimer u := ⟨rfl, rfl, rfl⟩
      exact ⟨k'', hwaiting', (htimer₀.trans htimer).trans htimer'⟩
    · exact ⟨k, h, rfl, rfl, rfl⟩

theorem Rest.timerExpired (h : Rest frames accepted H k s) (hframes : WellFramed 2047 frames)
    (hrunning : s.reorderingTimer) :
    s.timerExpired.cfg = s.cfg ∧ ∃ k', Rest frames accepted H k' s.timerExpired := by
  obtain ⟨X, hkX, hXH, hux⟩ := h.timer hrunning
  obtain ⟨b, -, hholds⟩ := h.holds
  have hnear := h.near
  have hmod := s.cfg.rxMod_eq_window
  set u : Rx := { s.clearSdu with pduLost := true, reorderingTimer := false }
  have hwaiting : Waiting frames accepted H k u := by
    exact ⟨{ h.window with }, h.missing, h.near, k, Nat.le_add_right _ _, ⟨hholds.out, .inl rfl⟩⟩
  have hempty : HoldsFrom frames k k u := ⟨hholds.out, .inl rfl⟩
  obtain ⟨k', hwaiting', htimer⟩ := @expiryLoop_spec u frames accepted H k k hframes X s.cfg.rxMod
    hwaiting hempty h.near (Nat.le_refl k) hXH hkX.le hux (by omega)
  have hcfg : s.timerExpired.cfg = s.cfg := by
    rw [Rx.timerExpired, apply_ite Rx.cfg]
    exact (ite_self _).trans htimer.cfg
  have hstart := hwaiting'.rest_start (u.expiryLoop s.cfg.rxMod).vrUx
    (fun hrun => absurd (htimer.reorderingTimer.symm.trans hrun) Bool.false_ne_true)
    of_decide_eq_true
  simp only [decide_eq_true_eq] at hstart
  exact ⟨hcfg, k', hstart⟩

end Rx

end MbmsTx.Rlc.Um
