import MbmsTx.Lib.TicketQueue
import MbmsTx.Phy.Workers.Model
import Mathlib.Algebra.Order.Group.Nat

/-!
# The thread pools and the semaphore

The thread pools hand a worker out only when it is idle (`PoolInv`). The semaphore is a queue in
ticket order: in each subframe `txrx` enqueues the NR worker and then the LTE worker, and a worker
is past its wait in `worker_end` only while it is at the head (`QueueInv`).
-/

namespace MbmsTx.Phy.Workers

open MbmsTx.Transition MbmsTx.TicketQueue Function State TxrxPc

/-! ## What a step leaves alone -/

/-- The workers that `txrx` holds and has not started. -/
def TxrxPc.held : TxrxPc → List Worker
  | .waitLte => []
  | .waitNr lte => [⟨.lte, lte⟩]
  | .pushNr lte nr => [⟨.lte, lte⟩, ⟨.nr, nr⟩]
  | .pushSync lte nr => [⟨.lte, lte⟩, ⟨.nr, nr⟩]
  | .startNr lte nr => [⟨.lte, lte⟩, ⟨.nr, nr⟩]
  | .pushLte lte => [⟨.lte, lte⟩]
  | .startLte lte => [⟨.lte, lte⟩]

variable {cfg : WorkersCfg} {s t : State} {w : Worker}

/-- What a step of a worker does, by its place. -/
inductive WorkerStep (s : State) (w : Worker) : State → Prop
  | waitToStart (hpc : s.pc w = .waitToStart) (hstart : s.status w = .startWork) :
    WorkerStep s w ((s.setStatus w .working).setPc w
      (if w.pool = .lte then .getSched else .syncWait))
  | getSched (hpc : s.pc w = .getSched) :
    WorkerStep s w ({ s with
      schedCalls := s.schedCalls ++ [(s.context w).getD 0]
      txEnable := update s.txEnable w true }.setPc w .semaphoreWait)
  | syncWait (hpc : s.pc w = .syncWait) (hturn : turn s.slotSync w) :
    WorkerStep s w (s.setPc w .syncRelease)
  | syncRelease (hpc : s.pc w = .syncRelease) (success : Bool) :
    WorkerStep s w ({ s.notifyAll .syncWait with
      slotSync := s.slotSync.tail
      syncReleased := s.syncReleased + 1
      txEnable := update s.txEnable w success }.setPc w .semaphoreWait)
  | semaphoreWait (hpc : s.pc w = .semaphoreWait) (hturn : turn s.semaphore w) :
    WorkerStep s w (s.setPc w (if w.pool = .lte then .radioTx
      else if s.txEnable w then .resetLastWorker else .semaphoreRelease))
  | resetLastWorker (hpc : s.pc w = .resetLastWorker) :
    WorkerStep s w ({ s with
      txBuffer := s.txBuffer ++ [(s.context w).getD 0]
      txHold := true }.setPc w .semaphoreRelease)
  | radioTx (hpc : s.pc w = .radioTx) :
    WorkerStep s w ({ s with
      radio := s.radio ++ [((s.context w).getD 0, s.txBuffer ++ [(s.context w).getD 0])]
      txBuffer := [] }.setPc w .lastWorker)
  | lastWorker (hpc : s.pc w = .lastWorker) :
    WorkerStep s w ({ s.notifyAll .waitLastWorker with txHold := false }.setPc w .semaphoreRelease)
  | semaphoreRelease (hpc : s.pc w = .semaphoreRelease) :
    WorkerStep s w ({ s.notifyAll .semaphoreWait with
      semaphore := s.semaphore.tail
      released := s.released + 1 }.setPc w
      (if w.pool = Pool.nr ∧ s.txEnable w then .waitLastWorker else .finished))
  | waitLastWorker (hpc : s.pc w = .waitLastWorker) (hfree : s.txHold = false) :
    WorkerStep s w (s.setPc w .finished)
  | finished (hpc : s.pc w = .finished) :
    WorkerStep s w (({ s with
      txrxAsleep := s.txrxAsleep && !s.txrx.waitsFor w.pool }.setStatus w .idle).setPc w
      .waitToStart)

theorem workerStep (hready : s.ready w) (success : Bool) :
    WorkerStep s w (s.advance w success) := by
  unfold ready at hready
  unfold advance
  cases hpc : s.pc w <;> simp only [hpc] at hready
  case waitToStart => exact .waitToStart hpc (of_decide_eq_true hready)
  case syncRelease => exact .syncRelease hpc success
  case waitLastWorker => exact .waitLastWorker hpc (by simpa using hready)
  all_goals constructor <;> assumption

/-- What `txrx` does, by its place in the loop. -/
inductive TxrxStep (cfg : WorkersCfg) (s : State) : State → Prop
  | waitLte {lte} (hpc : s.txrx = .waitLte) (hfind : s.findFinishedWorker cfg .lte = some lte) :
    TxrxStep cfg s { s.setStatus ⟨.lte, lte⟩ .workerReady with
      txrx := if cfg.nr then .waitNr lte else .pushLte lte }
  | waitNr {lte nr} (hpc : s.txrx = .waitNr lte)
    (hfind : s.findFinishedWorker cfg .nr = some nr) :
    TxrxStep cfg s { s.setStatus ⟨.nr, nr⟩ .workerReady with txrx := .pushNr lte nr }
  | pushNr {lte nr} (hpc : s.txrx = .pushNr lte nr) :
    TxrxStep cfg s { s.push ⟨.nr, nr⟩ with txrx := .pushSync lte nr }
  | pushSync {lte nr} (hpc : s.txrx = .pushSync lte nr) :
    TxrxStep cfg s { s with slotSync := s.slotSync ++ [⟨.nr, nr⟩], txrx := .startNr lte nr }
  | startNr {lte nr} (hpc : s.txrx = .startNr lte nr) :
    TxrxStep cfg s { s.startWorker ⟨.nr, nr⟩ with txrx := .pushLte lte }
  | pushLte {lte} (hpc : s.txrx = .pushLte lte) :
    TxrxStep cfg s { s.push ⟨.lte, lte⟩ with txrx := .startLte lte }
  | startLte {lte} (hpc : s.txrx = .startLte lte) :
    TxrxStep cfg s { s.startWorker ⟨.lte, lte⟩ with txrx := .waitLte, tti := s.tti + 1 }

theorem txrxStep (hready : s.txrxReady cfg) : TxrxStep cfg s (s.txrxAdvance cfg) := by
  unfold txrxReady at hready
  unfold txrxAdvance
  cases hpc : s.txrx with
  | waitLte =>
    rw [hpc] at hready
    obtain ⟨lte, hlte⟩ := Option.isSome_iff_exists.mp hready
    simpa only [hlte] using .waitLte hpc hlte
  | waitNr lte =>
    rw [hpc] at hready
    obtain ⟨nr, hnr⟩ := Option.isSome_iff_exists.mp hready
    simpa only [hnr] using .waitNr hpc hnr
  | _ => constructor; exact hpc

theorem findFinishedWorker_eq_some {pool : Pool} {id : ℕ}
    (h : s.findFinishedWorker cfg pool = some id) :
    id < cfg.nofWorkers pool ∧ s.status ⟨pool, id⟩ = .idle := by
  refine ⟨List.mem_range.mp (List.mem_of_find?_eq_some h), ?_⟩
  simpa using List.find?_some h

/-! ## The thread pools -/

/-- The places where a worker of the pool can be. -/
def WorkerPc.ofPool : WorkerPc → Pool → Bool
  | .getSched, pool => pool = .lte
  | .radioTx, pool => pool = .lte
  | .lastWorker, pool => pool = .lte
  | .syncWait, pool => pool = .nr
  | .syncRelease, pool => pool = .nr
  | .resetLastWorker, pool => pool = .nr
  | .waitLastWorker, pool => pool = .nr
  | _, _ => true

/-- `txrx` is at a step for NR carriers only. -/
def TxrxPc.inNr : TxrxPc → Bool
  | .waitNr _ => true
  | .pushNr _ _ => true
  | .pushSync _ _ => true
  | .startNr _ _ => true
  | _ => false

/-- The status of a worker says who works with it: itself, or `txrx`. -/
structure PoolInv (cfg : WorkersCfg) (s : State) : Prop where
  working : ∀ w, s.status w = .working ↔ s.pc w ≠ .waitToStart
  held : ∀ w, s.status w = .workerReady ↔ w ∈ s.txrx.held
  valid : ∀ w, s.status w ≠ .idle → w.id < cfg.nofWorkers w.pool
  pool : ∀ w, (s.pc w).ofPool w.pool = true
  inNr : s.txrx.inNr = true → cfg.nr = true
  noNr : cfg.nr = false → ∀ w, w.pool = .nr → s.status w = .idle

theorem Worker.lte_or_nr (w : Worker) : w.pool = .lte ∨ w.pool = .nr := by
  cases w.pool <;> simp

theorem PoolInv.workerStep (h : PoolInv cfg s) (hstep : WorkerStep s w t) : PoolInv cfg t := by
  obtain ⟨hworking, hheld, hvalid, hpool, hinNr, hnoNr⟩ := h
  have hplace := hpool w
  have hpools := w.lte_or_nr
  cases hstep <;> constructor <;> simp only [setPc, setStatus, notifyAll] <;>
    grind -linarith [update_apply, WorkerPc.ofPool]

theorem PoolInv.txrxStep (h : PoolInv cfg s) (hstep : TxrxStep cfg s t) : PoolInv cfg t := by
  obtain ⟨hworking, hheld, hvalid, hpool, hinNr, hnoNr⟩ := h
  cases hstep with
  | waitLte hpc hfind | waitNr hpc hfind =>
    obtain ⟨hid, hidle⟩ := findFinishedWorker_eq_some hfind
    constructor <;> simp only [setStatus] <;>
      grind -linarith [update_apply, TxrxPc.held, TxrxPc.inNr]
  | _ =>
    constructor <;> simp only [push, startWorker, setStatus] <;>
      grind -linarith [update_apply, TxrxPc.held, TxrxPc.inNr]

/-! ## The semaphore -/

/-- The number of workers enqueued in each subframe. -/
def WorkersCfg.jobs (cfg : WorkersCfg) : ℕ := if cfg.nr then 2 else 1

/-- The ticket of a worker: the NR worker of a subframe is enqueued before the LTE worker. -/
def ticket (cfg : WorkersCfg) (s : State) (w : Worker) : Option ℕ :=
  (s.context w).map fun context =>
    if w.pool = .lte then cfg.jobs * context + (cfg.jobs - 1) else cfg.jobs * context

/-- A worker that has not released the semaphore. -/
def WorkerPc.queued : WorkerPc → Bool
  | .waitToStart => false
  | .waitLastWorker => false
  | .finished => false
  | _ => true

/-- A worker that has passed its wait for the semaphore. -/
def WorkerPc.holds : WorkerPc → Bool
  | .resetLastWorker => true
  | .radioTx => true
  | .lastWorker => true
  | .semaphoreRelease => true
  | _ => false

/-- The worker that `txrx` has enqueued but not started. -/
def TxrxPc.queued : TxrxPc → List Worker
  | .pushSync _ nr => [⟨.nr, nr⟩]
  | .startNr _ nr => [⟨.nr, nr⟩]
  | .startLte lte => [⟨.lte, lte⟩]
  | _ => []

/-- The workers enqueued in the current subframe. -/
def TxrxPc.pushed (cfg : WorkersCfg) : TxrxPc → ℕ
  | .pushSync _ _ => 1
  | .startNr _ _ => 1
  | .pushLte _ => cfg.jobs - 1
  | .startLte _ => cfg.jobs
  | _ => 0

/-- The semaphore holds the started workers that have not released it, in order. -/
structure QueueInv (cfg : WorkersCfg) (s : State) : Prop where
  numbered : Numbered (ticket cfg s) s.released s.semaphore
  pushed : s.released + s.semaphore.length = cfg.jobs * s.tti + s.txrx.pushed cfg
  mem : ∀ w, w ∈ s.semaphore ↔ s.status w = .startWork ∨ (s.pc w).queued = true ∨ w ∈ s.txrx.queued
  turn : ∀ w, (s.pc w).holds = true → s.semaphore.head? = some w

theorem State.turn_iff {fifo : List Worker} (hmem : w ∈ fifo) :
    turn fifo w ↔ fifo.head? = some w := by
  cases fifo with
  | nil => cases hmem
  | cons v fifo => simp [turn]

theorem TxrxPc.queued_subset_held (pc : TxrxPc) (hw : w ∈ pc.queued) : w ∈ pc.held := by
  cases pc <;> simp_all [queued, held]

theorem QueueInv.workerStep (hp : PoolInv cfg s) (h : QueueInv cfg s)
    (hstep : WorkerStep s w t) : QueueInv cfg t := by
  obtain ⟨hnumbered, hpushed, hmem, hturn⟩ := h
  have hworking := hp.working
  have hheld := hp.held
  have hqueued : ∀ v ∈ s.txrx.queued, v ∈ s.txrx.held := fun v => s.txrx.queued_subset_held
  cases hstep with
  | semaphoreWait hpc hready =>
    have hhead := (turn_iff ((hmem w).mpr (.inr (.inl (by rw [hpc]; rfl))))).mp hready
    refine ⟨hnumbered, hpushed, ?_, ?_⟩ <;> simp only [setPc] <;>
      grind -linarith [update_apply, WorkerPc.queued, WorkerPc.holds]
  | semaphoreRelease hpc =>
    -- the worker at the head is removed, and no other one has its turn
    have hhead := hturn w (by rw [hpc]; rfl)
    have hmem' := fun v => hnumbered.mem_tail hhead (b := v)
    have hne : s.semaphore ≠ [] := by
      rintro hnil
      rw [hnil] at hhead
      cases hhead
    have hlen := List.length_pos_iff.mpr hne
    refine ⟨hnumbered.tail hne, ?_, ?_, ?_⟩ <;> simp only [setPc, notifyAll, List.length_tail]
    · omega
    · grind -linarith [update_apply, WorkerPc.queued]
    · grind -linarith [update_apply, WorkerPc.holds]
  | _ =>
    refine ⟨hnumbered, hpushed, ?_, ?_⟩ <;> simp only [setPc, setStatus, notifyAll] <;>
      grind -linarith [update_apply, WorkerPc.queued, WorkerPc.holds]

/-- A worker that is about to be enqueued gets the next ticket. -/
theorem QueueInv.push (hp : PoolInv cfg s) (h : QueueInv cfg s) {txrx : TxrxPc}
    (hheld : w ∈ s.txrx.held) (hnotQueued : w ∉ s.txrx.queued)
    (hticket : ticket cfg (s.push w) w = some (cfg.jobs * s.tti + s.txrx.pushed cfg))
    (hpushed : txrx.pushed cfg = s.txrx.pushed cfg + 1)
    (hqueued : ∀ v, v ∈ txrx.queued ↔ v = w ∨ v ∈ s.txrx.queued) :
    QueueInv cfg { s.push w with txrx := txrx } := by
  have hready := (hp.held w).mpr hheld
  have hpc : s.pc w = .waitToStart := by
    by_contra hne
    rw [(hp.working w).mpr hne] at hready
    cases hready
  have hnew : w ∉ s.semaphore := by
    rw [h.mem, hready, hpc]
    simp [WorkerPc.queued, hnotQueued]
  have hcongr : ∀ v ∈ s.semaphore, ticket cfg (s.push w) v = ticket cfg s v := by
    intro v hv
    have hne : v ≠ w := fun heq => hnew (heq ▸ hv)
    simp [ticket, State.push, hne]
  have hlen := h.pushed
  refine
    { numbered := (h.numbered.congr hcongr).push (hticket.trans ?_)
      pushed := ?_
      mem := fun v => ?_
      turn := fun v hv => ?_ }
  · rw [hlen]
  · simp [State.push, hpushed]
    omega
  · simp only [State.push, List.mem_append, List.mem_singleton, h.mem, hqueued]
    tauto
  · have hhead := h.turn v hv
    simp only [State.push]
    rw [List.head?_append, hhead]
    rfl

/-- Starting an enqueued worker takes it from `txrx`. -/
theorem QueueInv.start (h : QueueInv cfg s) (tti : ℕ) {txrx : TxrxPc}
    (hpushed : cfg.jobs * tti + txrx.pushed cfg = cfg.jobs * s.tti + s.txrx.pushed cfg)
    (hstatus : s.status w = .workerReady) (hqueued : ∀ v, v ∈ s.txrx.queued ↔ v = w)
    (hempty : txrx.queued = []) :
    QueueInv cfg { s.startWorker w with txrx := txrx, tti := tti } := by
  refine
    { numbered := h.numbered
      pushed := h.pushed.trans hpushed.symm
      mem := fun v => ?_
      turn := h.turn }
  simp only [startWorker, setStatus, h.mem, hqueued, hempty, List.not_mem_nil, or_false]
  by_cases hv : v = w
  · subst hv
    simp
  · simp [hv]

theorem QueueInv.txrxStep (hp : PoolInv cfg s) (h : QueueInv cfg s) (hstep : TxrxStep cfg s t) :
    QueueInv cfg t := by
  have hheld := hp.held
  have hpushed := h.pushed
  cases hstep with
  | @waitLte lte hpc hfind =>
    obtain ⟨-, hidle⟩ := findFinishedWorker_eq_some hfind
    have hnone : (if cfg.nr then TxrxPc.waitNr lte else .pushLte lte).queued = [] ∧
        (if cfg.nr then TxrxPc.waitNr lte else .pushLte lte).pushed cfg = 0 := by
      cases hnr : cfg.nr <;> simp [TxrxPc.queued, TxrxPc.pushed, WorkersCfg.jobs, hnr]
    refine { numbered := h.numbered, pushed := ?_, mem := fun v => ?_, turn := h.turn }
    · rw [hpc] at hpushed
      simp only [setStatus, hnone.2]
      exact hpushed
    · have := h.mem v
      simp only [setStatus, hnone.1]
      grind -linarith [queued, update_apply]
  | waitNr hpc hfind =>
    obtain ⟨-, hidle⟩ := findFinishedWorker_eq_some hfind
    refine { numbered := h.numbered, pushed := ?_, mem := fun v => ?_, turn := h.turn }
    · simpa only [hpc, setStatus, TxrxPc.pushed] using hpushed
    · have := h.mem v
      simp only [setStatus]
      grind -linarith [queued, update_apply]
  | pushNr hpc =>
    have hnr := hp.inNr (by rw [hpc]; rfl)
    refine h.push hp (by simp [hpc, held]) (by simp [hpc, queued]) ?_ ?_ ?_
    · simp [ticket, State.push, hpc, TxrxPc.pushed]
    · simp [hpc, TxrxPc.pushed]
    · simp [hpc, queued]
  | pushSync hpc =>
    refine { numbered := h.numbered, pushed := ?_, mem := fun v => ?_, turn := h.turn }
    · simpa only [hpc, TxrxPc.pushed] using hpushed
    · simpa only [hpc, queued] using h.mem v
  | startNr hpc =>
    have hnr := hp.inNr (by rw [hpc]; rfl)
    refine h.start s.tti ?_ ((hheld _).mpr (by simp [hpc, held])) ?_ rfl
    · simp [hpc, TxrxPc.pushed, WorkersCfg.jobs, hnr]
    · simp [hpc, queued]
  | pushLte hpc =>
    refine h.push hp (by simp [hpc, held]) (by simp [hpc, queued]) ?_ ?_ ?_
    · simp [ticket, State.push, hpc, TxrxPc.pushed]
    · simp only [hpc, TxrxPc.pushed]
      cases hnr : cfg.nr <;> simp [WorkersCfg.jobs, hnr]
    · simp [hpc, TxrxPc.queued]
  | startLte hpc =>
    refine h.start _ ?_ ((hheld _).mpr (by simp [hpc, held])) ?_ rfl
    · simp [hpc, TxrxPc.pushed, Nat.mul_succ]
    · simp [hpc, queued]

end MbmsTx.Phy.Workers
