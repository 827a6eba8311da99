import Mathlib.Tactic.Ring
import MbmsTx.Rlc.Um.Segments

/-!
# The reordering window

The sequence numbers of the receiver are related to the absolute numbers of the PDUs. With `H` the
number after the highest one received and `k` the next one to be taken, the window holds the
accepted PDUs between `k` and `H`. The two loops move `k` up; the SDU that is held is the one that
the PDU before `k` leaves unfinished, or it is recognised as older and dropped.
-/

namespace MbmsTx.Rlc.Um

open List Nat

open MbmsTx.Rlc.Am (sub32)

theorem UmConfig.mod_cases (cfg : UmConfig) :
    cfg.rxMod = 32 ∧ cfg.rxWindowSize = 16 ∨ cfg.rxMod = 1024 ∧ cfg.rxWindowSize = 512 := by
  have hmod := cfg.rxMod_eq
  have hwindow := cfg.rxMod_eq_window
  cases hbits : cfg.rxSnFieldLength with
  | size5bits =>
    rw [hbits] at hmod
    exact .inl ⟨hmod, by rw [hmod, SnSize.bits] at hwindow; omega⟩
  | size10bits =>
    rw [hbits] at hmod
    exact .inr ⟨hmod, by rw [hmod, SnSize.bits] at hwindow; omega⟩

namespace Rx

variable {s t : Rx} {frames : List (Frame UInt8)} {accepted : List ℕ} {H k n b : ℕ}

/-! ## Distances -/

/-- `RX_MOD_BASE` is the distance from the lower edge of the window. -/
theorem rxModBase_mod (hH : s.vrUh = H % s.cfg.rxMod) (hlow : H ≤ n + s.cfg.rxWindowSize)
    (hhigh : n < H + s.cfg.rxWindowSize) :
    s.rxModBase (n % s.cfg.rxMod) = n + s.cfg.rxWindowSize - H := by
  unfold rxModBase sub32
  rw [hH]
  rcases s.cfg.mod_cases with ⟨hmod, hwindow⟩ | ⟨hmod, hwindow⟩
  all_goals
    rw [hwindow] at hlow hhigh
    rw [hmod, hwindow]
    omega

theorem rxModBase_lower (hH : s.vrUh = H % s.cfg.rxMod) :
    s.rxModBase (sub32 s.vrUh s.cfg.rxWindowSize) = 0 := by
  unfold rxModBase sub32
  rw [hH]
  rcases s.cfg.mod_cases with ⟨hmod, hwindow⟩ | ⟨hmod, hwindow⟩
  · rw [hmod, hwindow]
    omega
  · rw [hmod, hwindow]
    omega

theorem rxModBase_vrUh (hH : s.vrUh = H % s.cfg.rxMod) :
    s.rxModBase s.vrUh = s.cfg.rxWindowSize := by
  have hpos := s.cfg.sixteen_le_window
  have hbase := rxModBase_mod (n := H) hH (by omega) (by omega)
  rw [← hH] at hbase
  omega

theorem rxModBase_below (hH : s.vrUh = H % s.cfg.rxMod) (hlow : H ≤ n + s.cfg.rxMod)
    (hbelow : n + s.cfg.rxWindowSize < H) :
    s.rxModBase (n % s.cfg.rxMod) = n + s.cfg.rxMod + s.cfg.rxWindowSize - H := by
  have hwindow := s.cfg.rxMod_eq_window
  rw [← add_mod_right n s.cfg.rxMod]
  exact rxModBase_mod hH (by omega) (by omega)

/-! ## The window -/

theorem lookup_filter_ne (entries : List (ℕ × UmdPdu)) (sn other : ℕ) :
    (entries.filter (·.1 ≠ sn)).lookup other =
      if other = sn then none else entries.lookup other := by
  induction entries with
  | nil => simp
  | cons entry entries ih =>
    obtain ⟨key, pdu⟩ := entry
    by_cases hkey : key = sn
    · rw [filter_cons_of_neg (by simpa using hkey), ih]
      by_cases hother : other = sn
      · rw [if_pos hother, if_pos hother]
      have hne : (other == key) = false := by
        rw [beq_eq_false_iff_ne, hkey]
        exact hother
      rw [if_neg hother, if_neg hother, lookup_cons, hne]
    · rw [filter_cons_of_pos (by simpa using hkey), lookup_cons, lookup_cons, ih]
      by_cases hother : other = key
      · simp [hother, hkey]
      · have hbeq : (other == key) = false := beq_eq_false_iff_ne.mpr hother
        rw [hbeq]

/-- The SNs and the window, for the absolute numbers `H` and `k`. -/
structure Window (frames : List (Frame UInt8)) (accepted : List ℕ) (H k : ℕ) (s : Rx) : Prop where
  vrUh : s.vrUh = H % s.cfg.rxMod
  vrUr : s.vrUr = k % s.cfg.rxMod
  low : H ≤ k + s.cfg.rxMod
  high : k ≤ H
  lt : ∀ n ∈ accepted, n < H ∧ n < frames.length
  highest : k < H → H - 1 ∈ accepted
  find_eq : ∀ {n}, k ≤ n → n < k + s.cfg.rxMod →
    s.find (n % s.cfg.rxMod) = if n ∈ accepted then frames[n]?.map (pduOf s.cfg n) else none
  keys : ∀ entry ∈ s.rxWindow, ∃ n ∈ accepted, k ≤ n ∧ n % s.cfg.rxMod = entry.1

theorem mod_pos (s : Rx) : 0 < s.cfg.rxMod := by
  rcases s.cfg.mod_cases with ⟨hmod, -⟩ | ⟨hmod, -⟩
  · omega
  · omega

theorem mod_ne_of_lt {M n m : ℕ} (hnm : n < m) (hmn : m < n + M) : m % M ≠ n % M := by
  intro heq
  have hzero := sub_mod_eq_zero_of_mod_eq heq
  rw [mod_eq_of_lt (by omega)] at hzero
  omega

namespace Window

section

variable (h : Window frames accepted H k s)
include h

theorem rxWindow_eq_nil_iff : s.rxWindow = [] ↔ ∀ n ∈ accepted, n < k := by
  constructor
  · intro hnil n hn
    by_contra hk
    obtain ⟨hlt, hlen⟩ := h.lt n hn
    have hfind := h.find_eq (not_lt.mp hk) (lt_of_lt_of_le hlt h.low)
    rw [if_pos hn, List.getElem?_eq_getElem hlen, find, hnil] at hfind
    cases hfind
  · intro hall
    apply eq_nil_iff_forall_not_mem.mpr
    intro entry hentry
    obtain ⟨n, hn, hk, -⟩ := h.keys entry hentry
    exact absurd (hall n hn) (by omega)

theorem find_some {pdu : UmdPdu} (hfind : s.find s.vrUr = some pdu) :
    k ∈ accepted ∧ ∃ f, frames[k]? = some f ∧ pdu = pduOf s.cfg k f := by
  rw [h.vrUr, h.find_eq (le_refl k) (by have := s.mod_pos; omega)] at hfind
  split at hfind
  · next hmem =>
    obtain ⟨f, hf, hpdu⟩ := Option.map_eq_some_iff.mp hfind
    exact ⟨hmem, f, hf, hpdu.symm⟩
  · cases hfind

theorem find_none (hfind : s.find s.vrUr = none) : k ∉ accepted := by
  intro hmem
  rw [h.vrUr, h.find_eq (le_refl k) (by have := s.mod_pos; omega), if_pos hmem,
    List.getElem?_eq_getElem (h.lt k hmem).2] at hfind
  cases hfind

theorem advance (hk : k < H) (hsame : s.SameWindow t) : Window frames accepted H (k + 1)
      { t.erase t.vrUr with vrUr := (t.vrUr + 1) % t.cfg.rxMod } := by
  have hfind : ∀ sn, (t.erase t.vrUr).find sn =
      if sn = k % s.cfg.rxMod then none else s.find sn := by
    intro sn
    refine (lookup_filter_ne t.rxWindow t.vrUr sn).trans ?_
    rw [hsame.vrUr, h.vrUr, hsame.rxWindow]
    rfl
  have hlow := h.low
  refine ⟨?_, ?_, ?_, hk, h.lt, fun _ => h.highest hk, fun {n} hn hn' => ?_, fun entry hentry => ?_⟩
  · exact hsame.vrUh.trans (hsame.cfg.symm ▸ h.vrUh)
  · change (t.vrUr + 1) % t.cfg.rxMod = (k + 1) % t.cfg.rxMod
    rw [hsame.vrUr, hsame.cfg, h.vrUr, mod_add_mod]
  · change H ≤ k + 1 + t.cfg.rxMod
    rw [hsame.cfg]
    omega
  · change (t.erase t.vrUr).find (n % t.cfg.rxMod) = if n ∈ accepted then
      frames[n]?.map (pduOf t.cfg n) else none
    change n < k + 1 + t.cfg.rxMod at hn'
    rw [hsame.cfg] at hn' ⊢
    rw [hfind]
    by_cases hlast : n = k + s.cfg.rxMod
    · have hnot : n ∉ accepted := fun hmem => by
        have := (h.lt n hmem).1
        omega
      rw [if_neg hnot, hlast, add_mod_right, if_pos rfl]
    · rw [if_neg (mod_ne_of_lt (by omega) (by omega)), h.find_eq (by omega) (by omega)]
  · obtain ⟨hmem, hne⟩ := mem_filter.mp hentry
    rw [hsame.rxWindow] at hmem
    rw [hsame.vrUr, h.vrUr, decide_eq_true_eq] at hne
    obtain ⟨n, hn, hkn, hmod⟩ := h.keys entry hmem
    refine ⟨n, hn, lt_of_le_of_ne hkn ?_, hsame.cfg.symm ▸ hmod⟩
    rintro rfl
    omega

/-- A missing PDU has no entry to be erased. -/
theorem skip (hk : k < H) (hsame : s.SameWindow t) (hnot : k ∉ accepted) :
    Window frames accepted H (k + 1) { t with vrUr := (t.vrUr + 1) % t.cfg.rxMod } := by
  have hentries : t.rxWindow.filter (·.1 ≠ t.vrUr) = t.rxWindow := by
    rw [hsame.rxWindow, hsame.vrUr, filter_eq_self]
    intro entry hentry
    obtain ⟨n, hn, hkn, hmod⟩ := h.keys entry hentry
    have hne : n ≠ k := fun heq => hnot (heq ▸ hn)
    have hlt := lt_of_lt_of_le (h.lt n hn).1 h.low
    rw [decide_eq_true_eq, ← hmod, h.vrUr]
    exact mod_ne_of_lt (by omega) hlt
  have hnext := h.advance hk hsame
  rwa [erase, hentries] at hnext

/-- `inside_reordering_window` for the next PDU. -/
theorem inside_iff : s.insideReorderingWindow s.vrUr ↔ k = H ∨ H ≤ k + s.cfg.rxWindowSize := by
  have hwindow := s.cfg.rxMod_eq_window
  have hsize := s.cfg.sixteen_le_window
  have hlow := h.low
  have hhigh := h.high
  unfold insideReorderingWindow
  by_cases hH : k = H
  · have hnil : s.rxWindow = [] := by
      rw [h.rxWindow_eq_nil_iff]
      intro n hn
      rw [hH]
      exact (h.lt n hn).1
    simp [hnil, hH]
  · have hne : s.rxWindow ≠ [] := by
      rw [Ne, h.rxWindow_eq_nil_iff]
      intro hall
      have := hall _ (h.highest (by omega))
      omega
    rw [if_neg (by simp [hne]; omega), rxModBase_lower h.vrUh, rxModBase_vrUh h.vrUh, h.vrUr]
    by_cases hin : H ≤ k + s.cfg.rxWindowSize
    · rw [rxModBase_mod h.vrUh hin (by omega)]
      simp [hin]
      omega
    · rw [rxModBase_below h.vrUh (by omega) (by omega)]
      simp [hH, hin]
      omega

end

end Window

/-! ## The SDU that is held -/

/-- What was handed to PDCP is right, and the held SDU is the one that the PDU before `k` leaves
unfinished. -/
structure Holds (frames : List (Frame UInt8)) (k : ℕ) (s : Rx) : Prop where
  lossy : Lossy frames k s.delivered s.rxSdu
  inSdu : s.rxSdu = [] ∨ ∃ p, p + 1 = k ∧ s.vrUrInRxSdu = p % s.cfg.rxMod

/-- While PDUs are skipped, the held SDU may be one that an earlier PDU, from `b` on, leaves
unfinished. -/
structure HoldsFrom (frames : List (Frame UInt8)) (b k : ℕ) (s : Rx) : Prop where
  out : Lossy frames k s.delivered []
  inSdu : s.rxSdu = [] ∨ ∃ p, b ≤ p ∧ p + 1 ≤ k ∧ s.vrUrInRxSdu = p % s.cfg.rxMod ∧
    s.rxSdu = (unframe (frames.take (p + 1))).2

theorem Holds.from (h : Holds frames k s) (hb : b < k ∨ s.rxSdu = []) : HoldsFrom frames b k s := by
  refine ⟨h.lossy.drop, ?_⟩
  rcases h.inSdu with hnil | ⟨p, rfl, hp⟩
  · exact .inl hnil
  · rcases hb with hb | hnil
    · refine h.lossy.held.imp_right fun heq => ⟨p, by omega, le_rfl, hp, heq⟩
    · exact .inl hnil

theorem HoldsFrom.skip (h : HoldsFrom frames b k s) (vrUr : ℕ) :
    HoldsFrom frames b (k + 1) { s with vrUr := vrUr } := by
  refine ⟨h.out.lose, h.inSdu.imp_right ?_⟩
  rintro ⟨p, hb, hp, hin, heq⟩
  exact ⟨p, hb, le_succ_of_le hp, hin, heq⟩

theorem HoldsFrom.holds_of_belongs (h : HoldsFrom frames b k s)
    (hwindow : Window frames accepted H k s)
    (hk : k < b + s.cfg.rxMod) (hbelongs : s.pduBelongsToRxSdu) :
    Lossy frames k s.delivered s.rxSdu := by
  rcases h.inSdu with hnil | ⟨p, hb, hp, hin, heq⟩
  · rw [hnil]
    exact h.out
  have hnext : p + 1 = k := by
    by_contra hne
    simp only [pduBelongsToRxSdu, hwindow.vrUr, hin, mod_add_mod, Bool.or_eq_true,
      decide_eq_true_eq] at hbelongs
    rcases hbelongs with hmod | hmod
    · exact mod_ne_of_lt (by omega) (by omega) hmod.symm
    · exact mod_ne_of_lt (by omega) (by omega) hmod
  rw [hnext] at heq
  exact ⟨h.out.out, .inr heq⟩

/-- The fields that the reassembly leaves alone. -/
structure SameTimer (s t : Rx) : Prop where
  cfg : t.cfg = s.cfg
  vrUx : t.vrUx = s.vrUx
  reorderingTimer : t.reorderingTimer = s.reorderingTimer

theorem SameTimer.trans {u : Rx} (hst : s.SameTimer t) (htu : t.SameTimer u) : s.SameTimer u :=
  ⟨htu.cfg.trans hst.cfg, htu.vrUx.trans hst.vrUx, htu.reorderingTimer.trans hst.reorderingTimer⟩

/-! ## The loops -/

section

variable (hframes : WellFramed 2047 frames) (hwindow : Window frames accepted H k s)
include hframes hwindow

theorem lowerEdgeRound_spec (hout : Lossy frames k s.delivered [])
    (hholds : k ∈ accepted → Holds frames k s) (hk : k < H) :
    Window frames accepted H (k + 1) s.lowerEdgeRound ∧ Holds frames (k + 1) s.lowerEdgeRound ∧
      s.SameTimer s.lowerEdgeRound := by
  unfold lowerEdgeRound
  cases hfind : s.find s.vrUr with
  | none =>
    have hnot := hwindow.find_none hfind
    have hsame : s.SameWindow s.clearSdu := ⟨rfl, rfl, rfl, rfl, rfl, rfl⟩
    exact ⟨hwindow.skip hk hsame hnot, ⟨hout.lose, .inl rfl⟩, ⟨rfl, rfl, rfl⟩⟩
  | some pdu =>
    obtain ⟨hmem, f, hf, rfl⟩ := hwindow.find_some hfind
    dsimp only
    generalize hr : lowerEdgeLis (pduOf s.cfg k f).header.fi 0 (pduOf s.cfg k f).header.li
      (pduOf s.cfg k f).buf s = r
    generalize ht : lowerEdgeLast (pduOf s.cfg k f).header.fi r.2 r.1 = t
    obtain ⟨hsame, hlossy, hin⟩ := took_lowerEdge (hholds hmem).lossy hf (hframes k f hf) hr ht
    have hvrUr : r.1.vrUr = t.vrUr := by
      rw [← ht]
      exact (lowerEdgeLast_spec _ _ _).same.vrUr.symm
    rw [hvrUr]
    refine ⟨hwindow.advance hk hsame, ⟨hlossy, ?_⟩, { hsame with }⟩
    refine hin.imp_right fun hin => ⟨k, rfl, ?_⟩
    change t.vrUrInRxSdu = k % t.cfg.rxMod
    rw [hin, hwindow.vrUr, hsame.cfg]

theorem lowerEdgeLoop_spec {fuel : ℕ} (hout : Lossy frames k s.delivered [])
    (hholds : k + s.cfg.rxWindowSize < H → k ∈ accepted → Holds frames k s)
    (hfuel : H ≤ k + s.cfg.rxWindowSize + fuel) :
    ∃ k', k ≤ k' ∧ H ≤ k' + s.cfg.rxWindowSize ∧
      Window frames accepted H k' (s.lowerEdgeLoop fuel) ∧ s.SameTimer (s.lowerEdgeLoop fuel) ∧
      (k' = k ∧ s.lowerEdgeLoop fuel = s ∨
        k' + s.cfg.rxWindowSize ≤ H ∧ Holds frames k' (s.lowerEdgeLoop fuel)) := by
  induction fuel generalizing k s with
  | zero => exact ⟨k, le_refl k, hfuel, hwindow, ⟨rfl, rfl, rfl⟩, .inl ⟨rfl, rfl⟩⟩
  | succ fuel ih =>
    have hhigh := hwindow.high
    rw [lowerEdgeLoop]
    split
    · next hin =>
      have hnear : H ≤ k + s.cfg.rxWindowSize := by
        rcases hwindow.inside_iff.mp hin with hH | hH
        · omega
        · exact hH
      exact ⟨k, le_refl k, hnear, hwindow, ⟨rfl, rfl, rfl⟩, .inl ⟨rfl, rfl⟩⟩
    · next hin =>
      rw [hwindow.inside_iff, not_or, not_le] at hin
      obtain ⟨hwindow', hholds', htimer⟩ :=
        lowerEdgeRound_spec hframes hwindow hout (hholds hin.2) (by omega)
      obtain ⟨k', hk, hnear, hwindow'', htimer', hcases⟩ :=
        ih hwindow' hholds'.lossy.drop (fun _ _ => hholds') (by rw [htimer.cfg]; omega)
      rw [htimer.cfg] at hnear hcases
      refine ⟨k', by omega, hnear, hwindow'', htimer.trans htimer', .inr ?_⟩
      rcases hcases with ⟨rfl, heq⟩ | hcases
      · rw [heq]
        exact ⟨by omega, hholds'⟩
      · exact hcases

theorem updateRound_spec (hholds : HoldsFrom frames b k s) (hb : k < b + s.cfg.rxMod)
    {f : Frame UInt8} (hk : k ∈ accepted) (hf : frames[k]? = some f) :
    Window frames accepted H (k + 1) (s.updateRound (pduOf s.cfg k f)) ∧
      Holds frames (k + 1) (s.updateRound (pduOf s.cfg k f)) ∧
      s.SameTimer (s.updateRound (pduOf s.cfg k f)) ∧
      (s.updateRound (pduOf s.cfg k f)).rxWindow = s.rxWindow.filter (·.1 ≠ k % s.cfg.rxMod) := by
  unfold updateRound
  set u : Rx := if s.pduBelongsToRxSdu then s else { s.clearSdu with pduLost := false } with hu
  have hkept : s.SameWindow u ∧ Lossy frames k u.delivered u.rxSdu := by
    rw [hu]
    split
    · next hbelongs =>
      exact ⟨SameWindow.refl s, hholds.holds_of_belongs hwindow hb hbelongs⟩
    · exact ⟨⟨rfl, rfl, rfl, rfl, rfl, rfl⟩, hholds.out⟩
  obtain ⟨hsame, hlossy⟩ := hkept
  obtain ⟨t, buf, ht, hsame', hlossy', hin⟩ := took_update hlossy hf (hframes k f hf)
  rw [hsame.cfg] at ht hsame' hlossy' hin
  dsimp only
  rw [ht]
  have hall := hsame.trans hsame'
  refine ⟨hwindow.advance (hwindow.lt k hk).1 hall, ⟨hlossy', ?_⟩, { hall with }, ?_⟩
  · refine hin.imp_right fun hin => ⟨k, rfl, ?_⟩
    change (updateLast (pduOf s.cfg k f).header buf t).vrUrInRxSdu =
      k % (updateLast (pduOf s.cfg k f).header buf t).cfg.rxMod
    rw [hin, hsame.vrUr, hwindow.vrUr, hall.cfg]
  · change (updateLast (pduOf s.cfg k f).header buf t).rxWindow.filter
      (·.1 ≠ (updateLast (pduOf s.cfg k f).header buf t).vrUr) = _
    rw [hall.rxWindow, hall.vrUr, hwindow.vrUr]

omit hframes hwindow in
theorem length_filter_of_find {sn : ℕ} {pdu : UmdPdu} (h : s.find sn = some pdu) :
    (s.rxWindow.filter (·.1 ≠ sn)).length < s.rxWindow.length := by
  rw [length_filter_lt_length_iff_exists]
  obtain ⟨before, after, hsplit⟩ := lookup_eq_some_iff.mp h
  exact ⟨(sn, pdu), by rw [hsplit.1]; simp, by simp⟩

theorem updateLoop_spec {fuel : ℕ} (hholds : HoldsFrom frames b k s) (hb : k < b + s.cfg.rxMod)
    (hfuel : s.rxWindow.length ≤ fuel) :
    ∃ k', k ≤ k' ∧ k' ∉ accepted ∧ (∀ n, k ≤ n → n < k' → n ∈ accepted) ∧
      Window frames accepted H k' (s.updateLoop fuel) ∧ s.SameTimer (s.updateLoop fuel) ∧
      (k' = k ∧ s.updateLoop fuel = s ∨ Holds frames k' (s.updateLoop fuel)) := by
  induction fuel generalizing b k s with
  | zero =>
    have hnil : s.rxWindow = [] := length_eq_zero_iff.mp (le_zero.mp hfuel)
    refine ⟨k, le_refl k, fun hmem => ?_, fun n hn hn' => by omega, hwindow, ⟨rfl, rfl, rfl⟩,
      .inl ⟨rfl, rfl⟩⟩
    exact absurd (hwindow.rxWindow_eq_nil_iff.mp hnil k hmem) (lt_irrefl k)
  | succ fuel ih =>
    rw [updateLoop]
    cases hfind : s.find s.vrUr with
    | none =>
      exact ⟨k, le_refl k, hwindow.find_none hfind, fun n hn hn' => by omega, hwindow,
        ⟨rfl, rfl, rfl⟩, .inl ⟨rfl, rfl⟩⟩
    | some pdu =>
      obtain ⟨hk, f, hf, rfl⟩ := hwindow.find_some hfind
      obtain ⟨hwindow', hholds', htimer, hentries⟩ :=
        updateRound_spec hframes hwindow hholds hb hk hf
      have hshorter := length_filter_of_find hfind
      rw [hwindow.vrUr, ← hentries] at hshorter
      have hsize := s.cfg.sixteen_le_window
      have hmod := s.cfg.rxMod_eq_window
      -- from here on, the SDU that is held was left unfinished by the PDU just taken
      obtain ⟨k', hk', hnot, hall, hwindow'', htimer', hholds''⟩ :=
        ih hwindow' (hholds'.from (.inl (lt_succ_self k)))
          (by rw [htimer.cfg]; omega) (by omega)
      refine ⟨k', by omega, hnot, fun n hn hn' => ?_, hwindow'', htimer.trans htimer', .inr ?_⟩
      · rcases eq_or_lt_of_le hn with rfl | hlt'
        · exact hk
        · exact hall n hlt' hn'
      · rcases hholds'' with ⟨rfl, heq⟩ | hholds''
        · dsimp only
          rw [heq]
          exact hholds'
        · exact hholds''

/-- `reassemble_rx_sdus` gives up everything below the window, and takes the PDUs in sequence. -/
theorem reassembleRxSdus_spec (hholds : HoldsFrom frames b k s) (hb : k < b + s.cfg.rxMod)
    (hheld : k + s.cfg.rxWindowSize < H → k ∈ accepted → Holds frames k s) :
    ∃ k', k ≤ k' ∧ H ≤ k' + s.cfg.rxWindowSize ∧ k' ∉ accepted ∧
      (∀ n, k ≤ n → H ≤ n + s.cfg.rxWindowSize → n < k' → n ∈ accepted) ∧
      Window frames accepted H k' s.reassembleRxSdus ∧ s.SameTimer s.reassembleRxSdus ∧
      (k' = k ∧ HoldsFrom frames b k' s.reassembleRxSdus ∨ Holds frames k' s.reassembleRxSdus) := by
  have hlow := hwindow.low
  have hsize := s.cfg.sixteen_le_window
  have hmod := s.cfg.rxMod_eq_window
  obtain ⟨k₁, hk₁, hnear, hwindow₁, htimer₁, hcases₁⟩ :=
    @lowerEdgeLoop_spec s frames accepted H k hframes hwindow s.cfg.rxMod hholds.out hheld
      (by omega)
  unfold reassembleRxSdus
  rcases hcases₁ with ⟨rfl, hsame⟩ | ⟨hedge, hholds₁⟩
  · rw [hsame]
    obtain ⟨k₂, hk₂, hnot, hall, hwindow₂, htimer₂, hcases₂⟩ :=
      updateLoop_spec hframes hwindow hholds hb le_rfl
    refine ⟨k₂, hk₂, by omega, hnot, fun n hn _ hlt => hall n hn hlt, hwindow₂, htimer₂, ?_⟩
    rcases hcases₂ with ⟨rfl, heq⟩ | hholds₂
    · rw [heq]
      exact .inl ⟨rfl, hholds⟩
    · exact .inr hholds₂
  · have hfrom : HoldsFrom frames (k₁ - 1) k₁ (s.lowerEdgeLoop s.cfg.rxMod) := by
      refine hholds₁.from ?_
      rcases hholds₁.inSdu with hnil | ⟨p, hp, -⟩
      · exact .inr hnil
      omega
    obtain ⟨k₂, hk₂, hnot, hall, hwindow₂, htimer₂, hcases₂⟩ :=
      updateLoop_spec hframes hwindow₁ hfrom (by rw [htimer₁.cfg]; omega) le_rfl
    refine ⟨k₂, by omega, by omega, hnot, fun n _ hn hlt => hall n (by omega) hlt, hwindow₂,
      htimer₁.trans htimer₂, .inr ?_⟩
    rcases hcases₂ with ⟨rfl, heq⟩ | hholds₂
    · rw [heq]
      exact hholds₁
    · exact hholds₂

end

end Rx

end MbmsTx.Rlc.Um
