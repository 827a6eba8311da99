import MbmsTx.Common.TtiPoint
import MbmsTx.Lib.Transition
import Mathlib.Algebra.Order.Group.Nat

/-!
# System information windows

The broadcast scheduler opens the window of an SI message when it is called in its first subframe,
and closes it in a later call. It is called in the CAS subframes only, so both happen late or not at
all if no call is made at the right time.

A window is closed in the first call behind its end; a call exactly `si_window_ms` after the start
still finds it open. A call that closes a window does not open the next one.
-/

namespace MbmsTx.Mac

open MbmsTx.Transition TtiPoint

/-! ## The broadcast scheduler -/

/-- `sched_interface::MAX_SIBS`. -/
def maxSibs : ℕ := 16

/-- `alloc_result`. -/
inductive AllocResult
  | success
  | schCollision
  | noCchSpace
  | noSchSpace
  | noRntiOpportunity
  | invalidGrantParams
  | invalidCoderate
  | noGrantSpace
  | otherCause
  deriving DecidableEq

/-- `cell_cfg_sib_t`. -/
structure SibCfg where
  len : ℕ
  periodRf : ℕ
  deriving DecidableEq

/-- What the broadcast scheduler reads of the cell configuration. -/
structure SiCfg where
  sibs : Fin maxSibs → SibCfg
  siWindowMs : ℕ
  nofRbgs : ℕ

/-- `sched_sib_t`. -/
structure SchedSib where
  isInWindow : Bool := false
  windowStart : ℕ := invalid
  nTx : ℕ := 0
  deriving DecidableEq

/-- The iteration of `update_si_windows` for message `i`. -/
def updateSiWindow (cfg : SiCfg) (ttiTxDl : ℕ) (i : Fin maxSibs) (pendingSib : SchedSib) :
    SchedSib :=
  if (cfg.sibs i).len = 0 then pendingSib
  else if ¬ pendingSib.isInWindow then
    let x := if i.val > 0 then (i.val - 1) * cfg.siWindowMs else 0
    let sf := if i.val > 0 then x % 10 else 0
    if sfn ttiTxDl % (cfg.sibs i).periodRf = x / 10 ∧ sfIdx ttiTxDl = sf then
      { isInWindow := true, windowStart := ttiTxDl, nTx := 0 }
    else pendingSib
  else if i.val > 0 then
    if lt (add pendingSib.windowStart cfg.siWindowMs) ttiTxDl then {}
    else pendingSib
  else if pendingSib.nTx = 4 then { pendingSib with nTx := 0 }
  else pendingSib

/-- The loop of `alloc_sibs` over the number of RBGs, which goes on while the code rate is invalid;
`attempt` are the results, those without an empty interval included. -/
def SiCfg.tryAlloc (cfg : SiCfg) (attempt : ℕ → AllocResult) : AllocResult :=
  (List.range' 1 (cfg.nofRbgs - 1)).foldl
    (fun ret nrbgs => if ret = .invalidCoderate then attempt nrbgs else ret) .invalidCoderate

/-- The iteration of `alloc_sibs` for message `i`: its state, and if it is allocated. -/
def allocSib (cfg : SiCfg) (i : Fin maxSibs) (attempt : ℕ → AllocResult) (pendingSib : SchedSib) :
    SchedSib × Bool :=
  if (cfg.sibs i).len = 0 ∨ ¬ pendingSib.isInWindow ∨ pendingSib.nTx ≥ 4 then (pendingSib, false)
  else if cfg.tryAlloc attempt = .success then
    ({ pendingSib with nTx := pendingSib.nTx + 1 }, true)
  else (pendingSib, false)

/-- A call of the scheduler: its TTI, and the results of the allocation attempts for each message.
-/
structure SiCall where
  tti : ℕ
  attempt : Fin maxSibs → ℕ → AllocResult

/-- `bc_sched::dl_sched` without paging, for message `i`. -/
def dlSched (cfg : SiCfg) (call : SiCall) (pendingSibs : Fin maxSibs → SchedSib)
    (i : Fin maxSibs) : SchedSib × Bool :=
  allocSib cfg i (call.attempt i) (updateSiWindow cfg (ofTti call.tti) i (pendingSibs i))

/-! ## Runs -/

/-- The scheduler, and the TTIs of the calls so far. -/
structure SiRunState where
  pendingSibs : Fin maxSibs → SchedSib
  calls : List ℕ

/-- The scheduler under calls at strictly increasing TTIs. -/
def siSystem (cfg : SiCfg) : System SiRunState SiCall :=
  { Init := fun s => s = { pendingSibs := fun _ => {}, calls := [] }
    step := fun s call =>
      if ∀ tti ∈ s.calls, tti < call.tti then
        some
          { pendingSibs := fun i => (dlSched cfg call s.pendingSibs i).1
            calls := call.tti :: s.calls }
      else none }

/-- A window of message `i` starts at the TTI. -/
def IsWindowStart (cfg : SiCfg) (i : Fin maxSibs) (tti : ℕ) : Prop :=
  tti % ttiRange / 10 % (cfg.sibs i).periodRf = (i.val - 1) * cfg.siWindowMs / 10 ∧
    tti % 10 = (i.val - 1) * cfg.siWindowMs % 10

instance (cfg : SiCfg) (i : Fin maxSibs) (tti : ℕ) : Decidable (IsWindowStart cfg i tti) :=
  inferInstanceAs (Decidable (_ ∧ _))

/-- The TTI lies in a window of message `i`. -/
def InWindow (cfg : SiCfg) (i : Fin maxSibs) (tti : ℕ) : Prop :=
  ∃ start, IsWindowStart cfg i start ∧ start ≤ tti ∧ tti < start + cfg.siWindowMs

/-- A call does its part for message `i`: if it is the first one not inside the window of an earlier
call, it comes behind the end of that window, not half a TTI cycle later, and not at the start of
another one. -/
def ClosesWindow (cfg : SiCfg) (i : Fin maxSibs) (s : SiRunState) (tti : ℕ) : Prop :=
  ∀ start ∈ s.calls, IsWindowStart cfg i start →
    (∀ earlier ∈ s.calls, earlier < start + cfg.siWindowMs) → start + cfg.siWindowMs ≤ tti →
    start + cfg.siWindowMs < tti ∧ tti < start + cfg.siWindowMs + 5120 ∧ ¬ IsWindowStart cfg i tti

instance (cfg : SiCfg) (i : Fin maxSibs) (s : SiRunState) (tti : ℕ) :
    Decidable (ClosesWindow cfg i s tti) :=
  inferInstanceAs (Decidable (∀ start ∈ s.calls, _))

/-! ## One call -/

variable {cfg : SiCfg} {i : Fin maxSibs}

theorem IsWindowStart.add_le (hperiod : (cfg.sibs i).periodRf ∣ 1024) {start tti : ℕ}
    (hstart : IsWindowStart cfg i start) (htti : IsWindowStart cfg i tti) (hlt : start < tti) :
    start + 10 * (cfg.sibs i).periodRf ≤ tti := by
  have hrange : ∀ t, t % ttiRange / 10 % (cfg.sibs i).periodRf =
      t / 10 % (cfg.sibs i).periodRf := by
    intro t
    rw [show ttiRange = 10 * 1024 from rfl, Nat.mod_mul_right_div_self,
      Nat.mod_mod_of_dvd _ hperiod]
  have hmod : start % (10 * (cfg.sibs i).periodRf) = tti % (10 * (cfg.sibs i).periodRf) := by
    rw [Nat.mod_mul, Nat.mod_mul, (hrange start).symm.trans hstart.1,
      (hrange tti).symm.trans htti.1, hstart.2, htti.2]
  have hdvd := Nat.dvd_of_mod_eq_zero (Nat.sub_mod_eq_zero_of_mod_eq hmod.symm)
  have := Nat.le_of_dvd (by omega) hdvd
  omega

variable {sib : SchedSib}

theorem updateSiWindow_closed (hi : 0 < i.val) (hlen : (cfg.sibs i).len ≠ 0) (tti : ℕ)
    (hsib : sib.isInWindow = false) :
    updateSiWindow cfg (ofTti tti) i sib =
      if IsWindowStart cfg i tti then
        { isInWindow := true, windowStart := ofTti tti, nTx := 0 }
      else sib := by
  have hsf : sfIdx (ofTti tti) = tti % 10 := by
    simp only [sfIdx, ofTti, ttiRange]
    omega
  simp only [updateSiWindow, hlen, hsib, hi, hsf, if_false, if_true, Bool.false_eq_true,
    not_false_eq_true]
  rfl

theorem updateSiWindow_open (hi : 0 < i.val) (hlen : (cfg.sibs i).len ≠ 0) (tti : ℕ)
    (hsib : sib.isInWindow) :
    updateSiWindow cfg tti i sib =
      if lt (add sib.windowStart cfg.siWindowMs) tti then {} else sib := by
  simp [updateSiWindow, hlen, hsib, hi]

theorem allocSib_window (cfg : SiCfg) (i : Fin maxSibs) (attempt : ℕ → AllocResult)
    (sib : SchedSib) :
    (allocSib cfg i attempt sib).1.isInWindow = sib.isInWindow ∧
      (allocSib cfg i attempt sib).1.windowStart = sib.windowStart := by
  unfold allocSib
  split_ifs <;> exact ⟨rfl, rfl⟩

theorem isInWindow_of_allocated {attempt : ℕ → AllocResult} (h : (allocSib cfg i attempt sib).2) :
    sib.isInWindow := by
  unfold allocSib at h
  split_ifs at h with hskip
  simp only [not_or, not_not] at hskip
  exact hskip.2.1

/-- An open window comes from a call at its start, and all calls since were inside it. -/
def OpenedByCall (cfg : SiCfg) (i : Fin maxSibs) (s : SiRunState) : Prop :=
  (s.pendingSibs i).isInWindow = true →
    ∃ start ∈ s.calls, IsWindowStart cfg i start ∧
      (∀ tti ∈ s.calls, tti < start + cfg.siWindowMs) ∧
      (s.pendingSibs i).windowStart = ofTti start

/-- After the update in a call, a window is open only if it starts now, or was open and has not
ended. -/
theorem updateSiWindow_cases (hi : 0 < i.val) (hlen : (cfg.sibs i).len ≠ 0) {s : SiRunState}
    (hopen : OpenedByCall cfg i s) {tti : ℕ} (hguard : ClosesWindow cfg i s tti)
    (hin : (updateSiWindow cfg (ofTti tti) i (s.pendingSibs i)).isInWindow) :
    (IsWindowStart cfg i tti ∧ updateSiWindow cfg (ofTti tti) i (s.pendingSibs i) =
        { isInWindow := true, windowStart := ofTti tti, nTx := 0 }) ∨
      (updateSiWindow cfg (ofTti tti) i (s.pendingSibs i) = s.pendingSibs i ∧
        ∃ start ∈ s.calls, IsWindowStart cfg i start ∧ tti < start + cfg.siWindowMs ∧
          (∀ earlier ∈ s.calls, earlier < start + cfg.siWindowMs) ∧
          (s.pendingSibs i).windowStart = ofTti start) := by
  cases hsib : (s.pendingSibs i).isInWindow with
  | false =>
    left
    rw [updateSiWindow_closed hi hlen tti hsib] at hin ⊢
    by_cases hstart : IsWindowStart cfg i tti
    · rw [if_pos hstart]
      exact ⟨hstart, rfl⟩
    · rw [if_neg hstart, hsib] at hin
      cases hin
  | true =>
    right
    obtain ⟨start, hmem, hstart, hinside, hwindow⟩ := hopen hsib
    rw [updateSiWindow_open hi hlen _ hsib, hwindow] at hin ⊢
    rcases lt_or_ge tti (start + cfg.siWindowMs) with hlt | hge
    · split_ifs at hin with hclosed
      · rw [if_neg hclosed]
        exact ⟨rfl, start, hmem, hstart, hlt, hinside, rfl⟩
    -- behind the end of the window, the comparison closes it
    obtain ⟨hbehind, hnear, -⟩ := hguard start hmem hstart hinside hge
    rw [if_pos (lt_of_lt hbehind hnear)] at hin
    cases hin

theorem openedByCall_step (hi : 0 < i.val) (hlen : (cfg.sibs i).len ≠ 0)
    (hwindow : 0 < cfg.siWindowMs) {s s' : SiRunState} {call : SiCall}
    (hopen : OpenedByCall cfg i s) (hguard : ClosesWindow cfg i s call.tti)
    (hstep : (siSystem cfg).step s call = some s') : OpenedByCall cfg i s' := by
  simp only [siSystem, Option.ite_none_right_eq_some, Option.some.injEq] at hstep
  obtain ⟨hlater, rfl⟩ := hstep
  intro hin
  obtain ⟨hin', hstart'⟩ := allocSib_window cfg i (call.attempt i)
    (updateSiWindow cfg (ofTti call.tti) i (s.pendingSibs i))
  simp only [dlSched] at hin ⊢
  rw [hin'] at hin
  rw [hstart']
  simp only [List.mem_cons, exists_eq_or_imp, forall_eq_or_imp]
  rcases updateSiWindow_cases hi hlen hopen hguard hin with
    ⟨hstart, hsib⟩ | ⟨hsib, start, hmem, hstart, hlt, hinside, hws⟩
  · left
    refine ⟨hstart, ⟨by omega, fun tti htti => ?_⟩, by rw [hsib]⟩
    exact (hlater tti htti).trans (by omega)
  · right
    exact ⟨start, hmem, hstart, ⟨hlt, hinside⟩, by rw [hsib, hws]⟩

/-! ## Every run -/

/-- Message `i` is transmitted as its windows demand: only inside a window, and at its start
whenever the allocation succeeds. -/
def SiServed (cfg : SiCfg) (i : Fin maxSibs) (s : SiRunState) (call : SiCall) : Prop :=
  ((dlSched cfg call s.pendingSibs i).2 = true → InWindow cfg i call.tti) ∧
    (IsWindowStart cfg i call.tti → cfg.tryAlloc (call.attempt i) = .success →
      (dlSched cfg call s.pendingSibs i).2 = true)

/-- In every run whose calls all do their part for an SI message, each call transmits it as its
windows demand. -/
theorem siServed_of_closesWindow (cfg : SiCfg) (i : Fin maxSibs) (hi : 0 < i.val)
    (hlen : (cfg.sibs i).len ≠ 0) (hperiod : (cfg.sibs i).periodRf ∣ 1024)
    (hfits : cfg.siWindowMs < 10 * (cfg.sibs i).periodRf) (hwindow : 0 < cfg.siWindowMs)
    (s : SiRunState)
    (hs : ((siSystem cfg).restrict fun s call => ClosesWindow cfg i s call.tti).Reachable s)
    (call : SiCall) (hlater : ∀ tti ∈ s.calls, tti < call.tti)
    (hguard : ClosesWindow cfg i s call.tti) : SiServed cfg i s call := by
  have hopen : OpenedByCall cfg i s := by
    refine hs.restrict_invariant (OpenedByCall cfg i) ?_ ?_
    · rintro _ rfl hin
      cases hin
    · intro s call s' hopen hguard hstep
      exact openedByCall_step hi hlen hwindow hopen hguard hstep
  constructor
  · intro halloc
    rcases updateSiWindow_cases hi hlen hopen hguard (isInWindow_of_allocated halloc) with
      ⟨hstart, -⟩ | ⟨-, start, hmem, hstart, hlt, -⟩
    · exact ⟨call.tti, hstart, le_rfl, by omega⟩
    · exact ⟨start, hstart, (hlater start hmem).le, hlt⟩
  · intro hstart hsuccess
    -- the window before it is closed: it has ended, and no call at a start may be the first behind
    have hclosed : (s.pendingSibs i).isInWindow = false := by
      rw [← Bool.not_eq_true]
      intro hin
      obtain ⟨before, hmem, hbefore, hinside, -⟩ := hopen hin
      have hspace := hbefore.add_le hperiod hstart (hlater before hmem)
      exact (hguard before hmem hbefore hinside (by omega)).2.2 hstart
    simp only [dlSched]
    rw [updateSiWindow_closed hi hlen _ hclosed, if_pos hstart]
    simp [allocSib, hlen, hsuccess]

/-- Message 1 has a window every 16 frames. -/
def exampleSiCfg (siWindowMs : ℕ) : SiCfg :=
  { sibs := fun i => if i.val = 1 then ⟨20, 16⟩ else ⟨0, 0⟩
    siWindowMs := siWindowMs
    nofRbgs := 25 }

/-- A call in which every attempt succeeds. -/
def successfulCall (tti : ℕ) : SiCall := { tti := tti, attempt := fun _ _ => .success }

def siInit : SiRunState := { pendingSibs := fun _ => {}, calls := [] }

/-- With windows of 20 ms, calls in the CAS subframes at 0, 40 and 160 do their part. -/
theorem siServed_window_20ms : ∃ s, ((siSystem (exampleSiCfg 20)).restrict fun s call =>
        ClosesWindow (exampleSiCfg 20) ⟨1, by decide⟩ s call.tti).run siInit
          [successfulCall 0, successfulCall 40] = some s ∧
      SiServed (exampleSiCfg 20) ⟨1, by decide⟩ s (successfulCall 160) := by
  let run := ((siSystem (exampleSiCfg 20)).restrict fun s call =>
    ClosesWindow (exampleSiCfg 20) ⟨1, by decide⟩ s call.tti).run siInit
      [successfulCall 0, successfulCall 40]
  have hrun : run = some (run.get (by decide)) := (Option.some_get _).symm
  refine ⟨run.get (by decide), hrun, ?_⟩
  exact siServed_of_closesWindow (exampleSiCfg 20) ⟨1, by decide⟩ (by decide) (by decide)
    (by decide) (by decide) (by decide) _ (System.reachable_of_run rfl hrun) (successfulCall 160)
    (by decide) (by decide)

/-- With windows of 40 ms, the call in the next CAS subframe after a start still finds the window
open. -/
theorem not_siServed_window_40ms :
    ∃ s, (siSystem (exampleSiCfg 40)).run siInit [successfulCall 0] = some s ∧
      ¬ SiServed (exampleSiCfg 40) ⟨1, by decide⟩ s (successfulCall 40) := by
  let run := (siSystem (exampleSiCfg 40)).run siInit [successfulCall 0]
  refine ⟨run.get (by decide), (Option.some_get _).symm, ?_⟩
  rintro ⟨hin, -⟩
  obtain ⟨start, hstart, hle, hlt⟩ := hin (by decide)
  simp [IsWindowStart, successfulCall, exampleSiCfg, ttiRange] at *
  omega

end MbmsTx.Mac
