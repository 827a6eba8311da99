import MbmsTx.Phy.Mbsfn
import MbmsTx.Phy.Workers.Progress

/-!
# The order of the MAC calls

An LTE worker asks the MAC for its schedule before anything serialises the workers. So the calls of
`get_mch_sched`, which advance the multicast schedule, are in the order of the subframes only if
there is one LTE worker.
-/

namespace MbmsTx.Phy.Workers

open MbmsTx.Transition Option State

variable {cfg small big : WorkersCfg} {s t : State} {w : Worker}

/-- The subframes for which `sf_worker::work_imp` calls `get_mch_sched`: with multicast configured,
all but the CAS subframes. -/
def isMbsfnContext (context : ℕ) : Bool := !isCasSubframe (context % 10240)

/-- The calls of `get_mch_sched` were in the order of the subframes. -/
def MchCallsInOrder (s : State) : Prop :=
  (s.schedCalls.filter isMbsfnContext).Pairwise (· < ·)

instance (s : State) : Decidable (MchCallsInOrder s) :=
  inferInstanceAs (Decidable (List.Pairwise _ _))

/-! ## One worker -/

/-- A worker that has yet to ask the MAC belongs to a later subframe than all calls. -/
structure SchedInv (s : State) : Prop where
  sorted : s.schedCalls.Pairwise (· < ·)
  before : ∀ call ∈ s.schedCalls, call < s.tti
  pending : ∀ w : Worker, w.pool = .lte → s.status w = .startWork ∨ s.pc w = .getSched →
    ∃ context, s.context w = some context ∧ context < s.tti ∧ ∀ call ∈ s.schedCalls, call < context
  context : ∀ lte, s.txrx = .startLte lte → s.context ⟨.lte, lte⟩ = some s.tti

theorem SchedInv.workerStep (hone : cfg.nofWorkers .lte ≤ 1) (hp : PoolInv cfg s)
    (h : SchedInv s) (hstep : WorkerStep s w t) : SchedInv t := by
  obtain ⟨hsorted, hbefore, hpending, hcontext⟩ := h
  have hworking := hp.working
  cases hstep with
  | getSched hpc =>
    have hpool : w.pool = .lte := by simpa [hpc, WorkerPc.ofPool] using hp.pool w
    obtain ⟨context, hctx, hlt, hlast⟩ := hpending w hpool (.inr hpc)
    -- there is no other LTE worker
    have honly : ∀ v : Worker, v.pool = .lte → s.status v ≠ .idle → v = w := by
      intro v hv hidle
      have hvalid := hp.valid v hidle
      have hvalid' := hp.valid w (by rw [(hworking w).mpr (by rw [hpc]; decide)]; decide)
      cases v
      cases w
      simp_all
      omega
    refine ⟨?_, ?_, ?_, hcontext⟩ <;> simp only [setPc, hctx, Option.getD_some]
    · rw [List.pairwise_append]
      exact ⟨hsorted, List.pairwise_singleton _ _, by simpa using hlast⟩
    · grind -linarith
    · grind -linarith [Function.update_apply]
  | _ =>
    refine ⟨hsorted, hbefore, ?_, hcontext⟩
    simp only [setPc, setStatus, notifyAll]
    grind -linarith [Function.update_apply]

theorem SchedInv.txrxStep (hp : PoolInv cfg s) (h : SchedInv s)
    (hstep : TxrxStep cfg s t) : SchedInv t := by
  obtain ⟨hsorted, hbefore, hpending, hcontext⟩ := h
  have hheld := hp.held
  have hworking := hp.working
  cases hstep <;>
  · refine ⟨hsorted, ?_, ?_, ?_⟩ <;>
      simp only [setStatus, State.push, startWorker] <;>
      grind -linarith [Function.update_apply, TxrxPc.held]

theorem schedInv_of_reachable (hone : cfg.nofWorkers .lte ≤ 1)
    (hs : (workersSystem cfg).Reachable s) : Inv cfg s ∧ SchedInv s := by
  refine hs.invariant (fun s => Inv cfg s ∧ SchedInv s) ?_ ?_
  · rintro _ rfl
    refine ⟨inv_init cfg, ?_⟩
    constructor <;> simp [State.init]
  · rintro s a s' ⟨hinv, h⟩ hstep
    refine ⟨inv_step hinv hstep, ?_⟩
    rcases step_cases hstep with ⟨-, hstep⟩ | ⟨w, -, hstep⟩ | ⟨asleep, txrxAsleep, rfl, -⟩
    · exact h.txrxStep hinv.pool hstep
    · exact h.workerStep hone hinv.pool hstep
    · exact { h with }

/-! ## More workers -/

/-- A step in which a thread goes on. -/
def goStep (cfg : WorkersCfg) (s : State) : Action → Option State
  | .txrx =>
    if s.txrxAsleep = false ∧ s.txrxReady cfg = true then some (s.txrxAdvance cfg) else none
  | .worker w success =>
    if w.id < cfg.nofWorkers w.pool ∧ s.asleep w = false ∧ s.ready w = true then
      some (s.advance w success)
    else none
  | _ => none

/-- The runs in which no thread falls asleep. -/
def goSystem (cfg : WorkersCfg) : System State Action :=
  { Init := fun s => s = .init
    step := goStep cfg }

theorem findFinishedWorker_mono {pool : Pool} {id : ℕ}
    (hle : small.nofWorkers pool ≤ big.nofWorkers pool)
    (hfind : s.findFinishedWorker small pool = some id) :
    s.findFinishedWorker big pool = some id := by
  obtain ⟨more, hmore⟩ := Nat.exists_eq_add_of_le hle
  unfold findFinishedWorker at hfind ⊢
  rw [hmore, List.range_add, List.find?_append, hfind]
  rfl

theorem step_of_goStep (hnr : small.nr = big.nr)
    (hle : ∀ pool, small.nofWorkers pool ≤ big.nofWorkers pool) {s' : State} {a : Action}
    (hstep : goStep small s a = some s') : step big s a = some s' := by
  cases a with
  | txrx =>
    simp only [goStep, ite_none_right_eq_some, some.injEq] at hstep
    obtain ⟨⟨hawake, hready⟩, rfl⟩ := hstep
    have hsame : s.txrxReady big ∧ s.txrxAdvance big = s.txrxAdvance small := by
      unfold txrxReady at hready ⊢
      unfold State.txrxAdvance
      cases hat : s.txrx <;> simp only [hat] at hready ⊢ <;> try exact ⟨trivial, trivial⟩
      · obtain ⟨id, hid⟩ := isSome_iff_exists.mp hready
        simp [hid, findFinishedWorker_mono (hle _) hid, hnr]
      · obtain ⟨id, hid⟩ := isSome_iff_exists.mp hready
        simp [hid, findFinishedWorker_mono (hle _) hid]
    simp [step, hawake, hsame.1, hsame.2]
  | worker w success =>
    simp only [goStep, ite_none_right_eq_some, some.injEq] at hstep
    obtain ⟨⟨hvalid, hawake, hready⟩, rfl⟩ := hstep
    simp [step, hvalid.trans_le (hle w.pool), hawake, hready]
  | wakeTxrx => cases hstep
  | wakeWorker w => cases hstep

theorem run_of_goRun (hnr : small.nr = big.nr)
    (hle : ∀ pool, small.nofWorkers pool ≤ big.nofWorkers pool) {s' : State}
    {actions : List Action} (hrun : (goSystem small).run s actions = some s') :
    (workersSystem big).run s actions = some s' := by
  induction actions generalizing s with
  | nil => exact hrun
  | cons a actions ih =>
    obtain ⟨t, hstep, hrun⟩ := bind_eq_some_iff.mp hrun
    exact bind_eq_some_iff.mpr ⟨t, step_of_goStep hnr hle hstep, ih hrun⟩

/-- Two LTE workers, and one NR worker if there is an NR carrier. -/
def twoWorkers (nr : Bool) : WorkersCfg :=
  { nofWorkers := fun pool => if pool = .lte then 2 else if nr then 1 else 0
    nr := nr }

/-- `txrx` starts a subframe. -/
def startSubframeOf (nr : Bool) : List Action := List.replicate (if nr then 7 else 3) .txrx

/-- The NR worker, if any, ends without samples. -/
def nrSubframe (nr : Bool) : List Action := if nr then nrSteps 6 false else []

/-- Worker 0 transmits the first subframe and gets the second; worker 1 gets the third and asks the
MAC first. -/
def overtaking (nr : Bool) : List Action :=
  startSubframeOf nr ++ nrSubframe nr ++ List.replicate 7 (.worker ⟨.lte, 0⟩ true) ++
    startSubframeOf nr ++ nrSubframe nr ++ startSubframeOf nr ++
    List.replicate 2 (.worker ⟨.lte, 1⟩ true) ++ List.replicate 2 (.worker ⟨.lte, 0⟩ true)

theorem overtaking_run (nr : Bool) :
    ∃ s, (goSystem (twoWorkers nr)).run .init (overtaking nr) = some s ∧
      s.schedCalls = [0, 2, 1] := by
  cases nr with
  | false =>
    let run := (goSystem (twoWorkers false)).run .init (overtaking false)
    exact ⟨run.get (by decide), (some_get _).symm, by decide⟩
  | true =>
    let run := (goSystem (twoWorkers true)).run .init (overtaking true)
    exact ⟨run.get (by decide), (some_get _).symm, by decide⟩

/-- The calls of `get_mch_sched` are in order in every interleaving exactly if there is at most one
LTE worker. -/
theorem mchCallsInOrder_iff (cfg : WorkersCfg) (hnr : cfg.nr = true → 0 < cfg.nofWorkers .nr) :
    (∀ s, (workersSystem cfg).Reachable s → MchCallsInOrder s) ↔ cfg.nofWorkers .lte ≤ 1 := by
  constructor
  · intro hall
    by_contra hmany
    obtain ⟨s, hrun, hcalls⟩ := overtaking_run cfg.nr
    have hle : ∀ pool, (twoWorkers cfg.nr).nofWorkers pool ≤ cfg.nofWorkers pool := by
      intro pool
      cases pool with
      | lte => simp [twoWorkers]; omega
      | nr => cases hc : cfg.nr <;> simp [twoWorkers]; exact hnr hc
    have hreach := System.reachable_of_run (by rfl) (run_of_goRun (by rfl) hle hrun)
    have horder := hall s hreach
    unfold MchCallsInOrder at horder
    rw [hcalls] at horder
    exact absurd horder (by decide)
  · intro hone s hs
    exact (schedInv_of_reachable hone hs).2.sorted.filter _

theorem mchCallsInOrder_one_worker : (WorkersCfg.mk (fun _ => 1) true).nofWorkers .nr = 1 ∧
      ∀ s, (workersSystem { nofWorkers := fun _ => 1, nr := true }).Reachable s →
        MchCallsInOrder s :=
  ⟨rfl, (mchCallsInOrder_iff { nofWorkers := fun _ => 1, nr := true } (by decide)).mpr (by decide)⟩

/-- With two workers, the third subframe can overtake the second. -/
theorem not_mchCallsInOrder_two_workers :
    ∃ s, (workersSystem (twoWorkers false)).Reachable s ∧ ¬ MchCallsInOrder s := by
  let run := (workersSystem (twoWorkers false)).run .init (overtaking false)
  have hrun : run = some (run.get (by decide)) := (some_get _).symm
  exact ⟨run.get (by decide), System.reachable_of_run rfl hrun, by decide⟩

end MbmsTx.Phy.Workers
