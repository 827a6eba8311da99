import MbmsTx.Lib.Transition
import Mathlib.Data.Nat.Notation

/-!
# The receive and transmit loop and its workers

For each subframe the `txrx` thread waits for an idle LTE worker, and with an NR carrier for an idle
NR worker, hands them the context of the subframe, enqueues them in the semaphore that keeps the
transmission order, and starts them. The workers process their subframes in parallel and end in
`phy_common::worker_end`, where the LTE worker, the last one of its subframe, calls `radio->tx`.

A step is one critical section of one thread. A thread that waits on a condition variable checks its
condition and goes on or falls asleep; it is woken up by a notification, or without any reason.
-/

namespace MbmsTx.Phy.Workers

open MbmsTx.Transition Function

inductive Pool
  | lte
  | nr
  deriving DecidableEq

/-- A worker of one of the two thread pools. -/
structure Worker where
  pool : Pool
  id : ℕ
  deriving DecidableEq

/-- `thread_pool::worker_status`, without `STOP`. -/
inductive Status
  | idle
  | workerReady
  | startWork
  | working
  deriving DecidableEq

/-- Where a worker thread is. -/
inductive WorkerPc
  /-- In `wait_to_start`. -/
  | waitToStart
  /-- An LTE worker before it asks the MAC for its schedule. -/
  | getSched
  /-- An NR worker in the `wait` of the slot synchronisation. -/
  | syncWait
  /-- An NR worker that holds the slot synchronisation. -/
  | syncRelease
  /-- In `worker_end`, waiting for its turn. -/
  | semaphoreWait
  /-- An NR worker before it combines its samples and calls `reset_last_worker`. -/
  | resetLastWorker
  /-- An LTE worker before it combines its samples and calls `radio->tx`. -/
  | radioTx
  /-- Before `last_worker`. -/
  | lastWorker
  /-- Before it releases the semaphore. -/
  | semaphoreRelease
  /-- In `wait_last_worker`. -/
  | waitLastWorker
  /-- Before `finished`. -/
  | finished
  deriving DecidableEq

/-- Where the `txrx` thread is, with the workers it was handed. -/
inductive TxrxPc
  | waitLte
  | waitNr (lte : ℕ)
  | pushNr (lte nr : ℕ)
  | pushSync (lte nr : ℕ)
  | startNr (lte nr : ℕ)
  | pushLte (lte : ℕ)
  | startLte (lte : ℕ)
  deriving DecidableEq

/-- `txrx` waits for a worker of the pool. -/
def TxrxPc.waitsFor : TxrxPc → Pool → Bool
  | .waitLte, .lte => true
  | .waitNr _, .nr => true
  | _, _ => false

/-- The sizes of the thread pools, and whether there is an NR carrier. -/
structure WorkersCfg where
  nofWorkers : Pool → ℕ
  nr : Bool

/-- The shared state. Subframes are numbered from the first one on, and `tti` is the one that `txrx`
is at. A context is the number of its subframe; of samples, only their context is kept. What was
done so far is recorded in `radio` (the calls of `radio->tx`, with the context and the samples
combined), `schedCalls` (the contexts for which the MAC was asked), and the numbers of releases of
the semaphores. -/
structure State where
  txrx : TxrxPc
  txrxAsleep : Bool
  tti : ℕ
  status : Worker → Status
  pc : Worker → WorkerPc
  asleep : Worker → Bool
  context : Worker → Option ℕ
  txEnable : Worker → Bool
  semaphore : List Worker
  slotSync : List Worker
  txHold : Bool
  txBuffer : List ℕ
  radio : List (ℕ × List ℕ)
  schedCalls : List ℕ
  released : ℕ
  syncReleased : ℕ

/-- All workers are idle, and nothing was transmitted. -/
def State.init : State :=
  { txrx := .waitLte
    txrxAsleep := false
    tti := 0
    status := fun _ => .idle
    pc := fun _ => .waitToStart
    asleep := fun _ => false
    context := fun _ => none
    txEnable := fun _ => false
    semaphore := []
    slotSync := []
    txHold := false
    txBuffer := []
    radio := []
    schedCalls := []
    released := 0
    syncReleased := 0 }

namespace State

/-! ## The primitives -/

def setPc (s : State) (w : Worker) (pc : WorkerPc) : State :=
  { s with pc := update s.pc w pc }

def setStatus (s : State) (w : Worker) (status : Status) : State :=
  { s with status := update s.status w status }

/-- `notify_all` for the workers at `pc`. -/
def notifyAll (s : State) (pc : WorkerPc) : State :=
  { s with asleep := fun w => s.asleep w && s.pc w ≠ pc }

/-- The loop condition of `tti_semaphore::wait` is over. -/
def turn (fifo : List Worker) (w : Worker) : Bool := fifo.isEmpty || fifo.head? = some w

def findFinishedWorker (s : State) (cfg : WorkersCfg) (pool : Pool) : Option ℕ :=
  (List.range (cfg.nofWorkers pool)).find? fun id => s.status ⟨pool, id⟩ = .idle

/-! ## The workers -/

/-- The worker does not have to wait where it is. -/
def ready (s : State) (w : Worker) : Bool :=
  match s.pc w with
  | .waitToStart => s.status w = .startWork
  | .syncWait => turn s.slotSync w
  | .semaphoreWait => turn s.semaphore w
  | .waitLastWorker => !s.txHold
  | _ => true

/-- The next critical section of a worker that does not have to wait. An NR worker has samples to
transmit if its processing was a `success`; an LTE worker always has. -/
def advance (s : State) (w : Worker) (success : Bool) : State :=
  let context := (s.context w).getD 0
  match s.pc w with
  | .waitToStart =>
    (s.setStatus w .working).setPc w (if w.pool = .lte then .getSched else .syncWait)
  | .getSched =>
    { s with
        schedCalls := s.schedCalls ++ [context]
        txEnable := update s.txEnable w true }.setPc w .semaphoreWait
  | .syncWait => s.setPc w .syncRelease
  | .syncRelease =>
    { s.notifyAll .syncWait with
        slotSync := s.slotSync.tail
        syncReleased := s.syncReleased + 1
        txEnable := update s.txEnable w success }.setPc w .semaphoreWait
  | .semaphoreWait =>
    s.setPc w
      (if w.pool = .lte then .radioTx
      else if s.txEnable w then .resetLastWorker
      else .semaphoreRelease)
  | .resetLastWorker =>
    { s with txBuffer := s.txBuffer ++ [context], txHold := true }.setPc w .semaphoreRelease
  | .radioTx =>
    { s with radio := s.radio ++ [(context, s.txBuffer ++ [context])], txBuffer := [] }.setPc w
      .lastWorker
  | .lastWorker =>
    { s.notifyAll .waitLastWorker with txHold := false }.setPc w .semaphoreRelease
  | .semaphoreRelease =>
    { s.notifyAll .semaphoreWait with
        semaphore := s.semaphore.tail
        released := s.released + 1 }.setPc w
      (if w.pool = Pool.nr ∧ s.txEnable w then .waitLastWorker else .finished)
  | .waitLastWorker => s.setPc w .finished
  | .finished =>
    ({ s with txrxAsleep := s.txrxAsleep && !s.txrx.waitsFor w.pool }.setStatus w .idle).setPc w
      .waitToStart

/-! ## The loop of `txrx` -/

/-- `txrx` does not have to wait where it is. -/
def txrxReady (s : State) (cfg : WorkersCfg) : Bool :=
  match s.txrx with
  | .waitLte => (s.findFinishedWorker cfg .lte).isSome
  | .waitNr _ => (s.findFinishedWorker cfg .nr).isSome
  | _ => true

/-- `set_context` and `tti_semaphore::push`. -/
def push (s : State) (w : Worker) : State :=
  { s with
      context := update s.context w (some s.tti)
      semaphore := s.semaphore ++ [w] }

/-- `start_worker`, with its notification of the worker. -/
def startWorker (s : State) (w : Worker) : State :=
  { s.setStatus w .startWork with asleep := update s.asleep w false }

/-- The next critical section of `txrx`, unless it has to wait. -/
def txrxAdvance (s : State) (cfg : WorkersCfg) : State :=
  match s.txrx with
  | .waitLte =>
    match s.findFinishedWorker cfg .lte with
    | none => s
    | some lte =>
      { s.setStatus ⟨.lte, lte⟩ .workerReady with
          txrx := if cfg.nr then .waitNr lte else .pushLte lte }
  | .waitNr lte =>
    match s.findFinishedWorker cfg .nr with
    | none => s
    | some nr => { s.setStatus ⟨.nr, nr⟩ .workerReady with txrx := .pushNr lte nr }
  | .pushNr lte nr => { s.push ⟨.nr, nr⟩ with txrx := .pushSync lte nr }
  | .pushSync lte nr =>
    { s with slotSync := s.slotSync ++ [⟨.nr, nr⟩], txrx := .startNr lte nr }
  | .startNr lte nr => { s.startWorker ⟨.nr, nr⟩ with txrx := .pushLte lte }
  | .pushLte lte => { s.push ⟨.lte, lte⟩ with txrx := .startLte lte }
  | .startLte lte => { s.startWorker ⟨.lte, lte⟩ with txrx := .waitLte, tti := s.tti + 1 }

end State

/-! ## The interleavings -/

/-- A thread takes its next step, or wakes up without reason. -/
inductive Action
  | txrx
  | worker (w : Worker) (success : Bool)
  | wakeTxrx
  | wakeWorker (w : Worker)
  deriving DecidableEq

/-- A thread that is awake goes on, or falls asleep if it has to wait. -/
def step (cfg : WorkersCfg) (s : State) : Action → Option State
  | .txrx =>
    if s.txrxAsleep then none
    else if s.txrxReady cfg then some (s.txrxAdvance cfg)
    else some { s with txrxAsleep := true }
  | .worker w success =>
    if w.id < cfg.nofWorkers w.pool ∧ ¬ s.asleep w then
      if s.ready w then some (s.advance w success)
      else some { s with asleep := update s.asleep w true }
    else none
  | .wakeTxrx => if s.txrxAsleep then some { s with txrxAsleep := false } else none
  | .wakeWorker w =>
    if s.asleep w then some { s with asleep := update s.asleep w false } else none

/-- All interleavings of `txrx` and the workers. -/
def workersSystem (cfg : WorkersCfg) : System State Action :=
  { Init := fun s => s = .init
    step := step cfg }

end MbmsTx.Phy.Workers
