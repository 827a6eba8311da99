import Mathlib.Data.List.Perm.Subperm
import MbmsTx.Phy.Workers.Radio

/-!
# Order and progress of all interleavings

The slot synchronisation of the NR workers is a second queue in ticket order (`SyncInv`), and a
thread that sleeps really has to wait (`SleepInv`). With the other invariants it follows that the
subframes reach the radio in order and that there is always a thread that goes on.
-/

namespace MbmsTx.Phy.Workers

open MbmsTx.Transition MbmsTx.TicketQueue List Option Function State TxrxPc

variable {cfg : WorkersCfg} {s t s' : State} {w : Worker}

/-! ## The slot synchronisation -/

/-- The worker that `txrx` has enqueued there but not started. -/
def TxrxPc.synced : TxrxPc → List Worker
  | .startNr _ nr => [⟨.nr, nr⟩]
  | _ => []

/-- The workers enqueued there in the current subframe. -/
def TxrxPc.syncPushed : TxrxPc → ℕ
  | .startNr _ _ => 1
  | .pushLte _ => 1
  | .startLte _ => 1
  | _ => 0

/-- The slot synchronisation holds the started NR workers that have not released it, in order. -/
structure SyncInv (cfg : WorkersCfg) (s : State) : Prop where
  numbered : Numbered s.context s.syncReleased s.slotSync
  pushed : cfg.nr = true → s.syncReleased + s.slotSync.length = s.tti + s.txrx.syncPushed
  mem : ∀ w, w ∈ s.slotSync ↔ w.pool = .nr ∧ (s.status w = .startWork ∨ s.pc w = .syncWait ∨
    s.pc w = .syncRelease ∨ w ∈ s.txrx.synced)
  turn : ∀ w, s.pc w = .syncRelease → s.slotSync.head? = some w
  context : ∀ lte nr, s.txrx = .pushSync lte nr → s.context ⟨.nr, nr⟩ = some s.tti

theorem SyncInv.workerStep (hp : PoolInv cfg s) (h : SyncInv cfg s) (hstep : WorkerStep s w t) :
    SyncInv cfg t := by
  obtain ⟨hnumbered, hpushed, hmem, hturn, hcontext⟩ := h
  have hworking := hp.working
  have hpool := hp.pool w
  have hheld := hp.held
  have hsynced : ∀ v ∈ s.txrx.synced, v ∈ s.txrx.held := by
    intro v hv
    cases hat : s.txrx <;> simp_all [synced, held]
  cases hstep with
  | syncWait hpc hready =>
    have hnr : w.pool = .nr := by simpa [hpc, WorkerPc.ofPool] using hpool
    have hhead := (turn_iff ((hmem w).mpr ⟨hnr, .inr (.inl hpc)⟩)).mp hready
    refine ⟨hnumbered, hpushed, ?_, ?_, hcontext⟩ <;> simp only [setPc] <;>
      grind -linarith [update_apply]
  | syncRelease hpc =>
    have hhead := hturn w hpc
    have hmem' := fun v => hnumbered.mem_tail hhead (b := v)
    have hne : s.slotSync ≠ [] := by
      rintro hnil
      rw [hnil] at hhead
      cases hhead
    have hlen := length_pos_iff.mpr hne
    refine ⟨hnumbered.tail hne, ?_, ?_, ?_, hcontext⟩ <;>
      simp [setPc, notifyAll]
    · intro hnr
      have := hpushed hnr
      omega
    · grind -linarith [update_apply]
    · grind -linarith [update_apply]
  | _ =>
    refine ⟨hnumbered, hpushed, ?_, ?_, hcontext⟩ <;>
      simp only [setPc, setStatus, notifyAll] <;> grind -linarith [update_apply, WorkerPc.ofPool]

theorem SyncInv.txrxStep (hp : PoolInv cfg s) (h : SyncInv cfg s) (hstep : TxrxStep cfg s t) :
    SyncInv cfg t := by
  obtain ⟨hnumbered, hpushed, hmem, hturn, hcontext⟩ := h
  have hheld := hp.held
  have hworking := hp.working
  cases hstep with
  | waitLte hpc hfind | waitNr hpc hfind =>
    obtain ⟨-, hidle⟩ := findFinishedWorker_eq_some hfind
    refine ⟨hnumbered, ?_, ?_, hturn, ?_⟩ <;> simp only [setStatus] <;>
      grind -linarith [syncPushed, synced, update_apply]
  | @pushNr lte nr hpc =>
    have hnew : (⟨.nr, nr⟩ : Worker) ∉ s.slotSync := by
      grind -linarith [held, synced]
    refine ⟨hnumbered.congr fun v hv => ?_, ?_, ?_, hturn, ?_⟩ <;> simp only [push]
    · have hne : v ≠ ⟨.nr, nr⟩ := fun hvw => hnew (hvw ▸ hv)
      simp [hne]
    · grind -linarith [syncPushed]
    · grind -linarith [synced]
    simp
  | @pushSync lte nr hpc =>
    have hnr := hp.inNr (by rw [hpc]; rfl)
    have hnext := hpushed hnr
    rw [hpc] at hnext
    refine ⟨hnumbered.push ?_, fun _ => ?_, ?_, fun v hv => ?_, ?_⟩
    · rw [hcontext lte nr hpc, hnext]
      rfl
    · simp [syncPushed] at hnext ⊢
      omega
    · grind -linarith [synced]
    · have hhead := hturn v hv
      rw [List.head?_append, hhead]
      rfl
    simp
  | @pushLte lte hpc =>
    have hnew : (⟨.lte, lte⟩ : Worker) ∉ s.slotSync := by
      grind -linarith
    refine ⟨hnumbered.congr fun v hv => ?_, ?_, ?_, hturn, ?_⟩ <;> simp only [push]
    · have hne : v ≠ ⟨.lte, lte⟩ := fun hvw => hnew (hvw ▸ hv)
      simp [hne]
    · grind -linarith [syncPushed]
    · grind -linarith [synced]
    simp
  | startNr hpc | startLte hpc =>
    refine ⟨hnumbered, ?_, ?_, hturn, ?_⟩ <;> simp only [startWorker, setStatus] <;>
      grind -linarith [syncPushed, synced, held, update_apply]

/-! ## Sleeping threads -/

/-- Whoever sleeps has to wait: no notification is missed. -/
structure SleepInv (cfg : WorkersCfg) (s : State) : Prop where
  worker : ∀ w, s.asleep w = true → s.ready w = false
  txrx : s.txrxAsleep = true → s.txrxReady cfg = false

theorem State.findFinishedWorker_congr {pool : Pool}
    (h : ∀ id, s'.status ⟨pool, id⟩ = .idle → s.status ⟨pool, id⟩ = .idle)
    (hnone : (s.findFinishedWorker cfg pool).isSome = false) :
    (s'.findFinishedWorker cfg pool).isSome = false := by
  simp only [findFinishedWorker, List.find?_isSome, Bool.eq_false_iff, ne_eq] at hnone ⊢
  rintro ⟨id, hid, hidle⟩
  exact hnone ⟨id, hid, by simpa using h id (by simpa using hidle)⟩

theorem State.txrxReady_congr (htxrx : s'.txrx = s.txrx)
    (h : ∀ pool, s.txrx.waitsFor pool → ∀ id, s'.status ⟨pool, id⟩ = .idle →
      s.status ⟨pool, id⟩ = .idle) (hnot : s.txrxReady cfg = false) : s'.txrxReady cfg = false := by
  unfold txrxReady at hnot ⊢
  rw [htxrx]
  cases hat : s.txrx <;> simp only [hat] at hnot ⊢ <;> try cases hnot
  · exact findFinishedWorker_congr (h .lte (by rw [hat]; rfl)) hnot
  · exact findFinishedWorker_congr (h .nr (by rw [hat]; rfl)) hnot

theorem SleepInv.workerStep (h : SleepInv cfg s) (hawake : s.asleep w = false)
    (hstep : WorkerStep s w t) : SleepInv cfg t := by
  obtain ⟨hworker, htxrx⟩ := h
  constructor
  · -- those at the place that is notified are awake
    intro v hv
    unfold ready at hworker ⊢
    cases hstep <;> simp only [setPc, setStatus, notifyAll] at hv ⊢ <;>
      grind -linarith [update_apply]
  · intro hasleep
    cases hstep with
    | waitToStart hpc hstart =>
      refine txrxReady_congr (s := s) rfl (fun pool hwaits id hidle => ?_) (htxrx hasleep)
      simp only [setPc, setStatus] at hidle
      grind -linarith [update_apply]
    | finished hpc =>
      simp only [setPc, setStatus, Bool.and_eq_true] at hasleep
      refine txrxReady_congr (s := s) rfl (fun pool hwaits id hidle => ?_) (htxrx hasleep.1)
      simp only [setPc, setStatus] at hidle
      grind -linarith [update_apply]
    | _ => exact htxrx hasleep

theorem State.turn_append {fifo : List Worker} {v : Worker} (h : turn fifo v = false) :
    turn (fifo ++ [w]) v = false := by
  cases fifo with
  | nil => simp [turn] at h
  | cons u fifo => assumption

theorem SleepInv.txrxStep (h : SleepInv cfg s) (hawake : s.txrxAsleep = false)
    (hstep : TxrxStep cfg s t) : SleepInv cfg t := by
  obtain ⟨hworker, -⟩ := h
  cases hstep <;>
  · constructor
    · intro v hv
      simp only [setStatus, push, startWorker] at hv
      have hnot := hworker v (by grind -linarith [update_apply])
      unfold ready at hnot ⊢
      simp only [setStatus, push, startWorker]
      cases hat : s.pc v <;> simp only [hat] at hnot ⊢ <;>
        grind -linarith [update_apply, turn_append]
    · intro hasleep
      simp only [setStatus, push, startWorker, hawake] at hasleep
      cases hasleep

/-! ## Every interleaving -/

structure Inv (cfg : WorkersCfg) (s : State) : Prop where
  pool : PoolInv cfg s
  queue : QueueInv cfg s
  radio : RadioInv cfg s
  hold : HoldInv cfg s
  sync : SyncInv cfg s
  sleep : SleepInv cfg s

theorem inv_init (cfg : WorkersCfg) : Inv cfg .init := by
  refine
    { pool := ?_
      queue := ?_
      radio := ?_
      hold := ?_
      sync := ?_
      sleep := ⟨by simp [init], by simp [init]⟩ }
  · constructor <;> simp [init, held, inNr, WorkerPc.ofPool]
  · constructor <;>
      simp [init, TxrxPc.queued, pushed, WorkerPc.queued, WorkerPc.holds, Numbered]
  · constructor <;> simp [init, Transmitted, cfg.jobs_pos]
  · constructor <;> simp [init]
  · constructor <;> simp [init, synced, syncPushed, Numbered]

theorem Inv.of_asleep (h : Inv cfg s) {asleep : Worker → Bool} {txrxAsleep : Bool}
    (hsleep : SleepInv cfg { s with asleep := asleep, txrxAsleep := txrxAsleep }) :
    Inv cfg { s with asleep := asleep, txrxAsleep := txrxAsleep } := by
  obtain ⟨hp, hq, hr, hh, hs, -⟩ := h
  exact
    { pool := { hp with }
      queue := { hq with }
      radio := { hr with }
      hold := { hh with }
      sync := { hs with }
      sleep := hsleep }

/-- In a step `txrx` or a worker goes on, or a thread falls asleep because it has to wait, or wakes
up. -/
theorem step_cases {a : Action} (hstep : step cfg s a = some s') :
    (s.txrxAsleep = false ∧ TxrxStep cfg s s') ∨
      (∃ w, s.asleep w = false ∧ WorkerStep s w s') ∨
      ∃ asleep txrxAsleep, s' = { s with asleep := asleep, txrxAsleep := txrxAsleep } ∧
        (∀ w, asleep w → s.asleep w ∨ s.ready w = false) ∧
        (txrxAsleep → s.txrxAsleep ∨ s.txrxReady cfg = false) := by
  cases a with
  | txrx =>
    simp only [step] at hstep
    split_ifs at hstep with hasleep hready <;> cases hstep
    · exact .inl ⟨Bool.eq_false_iff.mpr hasleep, txrxStep hready⟩
    · exact .inr (.inr ⟨s.asleep, true, rfl, fun _ h => .inl h,
        fun _ => .inr (Bool.eq_false_iff.mpr hready)⟩)
  | worker w success =>
    simp only [step] at hstep
    split_ifs at hstep with hvalid hready <;> cases hstep
    · exact .inr (.inl ⟨w, Bool.eq_false_iff.mpr hvalid.2, workerStep hready success⟩)
    refine .inr (.inr ⟨_, s.txrxAsleep, rfl, fun v hv => ?_, .inl⟩)
    by_cases hvw : v = w
    · subst hvw
      exact .inr (Bool.eq_false_iff.mpr hready)
    · exact .inl (by simpa [hvw] using hv)
  | wakeTxrx =>
    simp only [step, ite_none_right_eq_some, some.injEq] at hstep
    obtain ⟨-, rfl⟩ := hstep
    exact .inr (.inr ⟨s.asleep, false, rfl, fun _ h => .inl h, fun h => by cases h⟩)
  | wakeWorker w =>
    simp only [step, ite_none_right_eq_some, some.injEq] at hstep
    obtain ⟨-, rfl⟩ := hstep
    refine .inr (.inr ⟨_, s.txrxAsleep, rfl, fun v hv => ?_, .inl⟩)
    by_cases hvw : v = w
    · subst hvw
      simp at hv
    · exact .inl (by simpa [hvw] using hv)

theorem inv_step {a : Action} (h : Inv cfg s) (hstep : step cfg s a = some s') : Inv cfg s' := by
  rcases step_cases hstep with ⟨hawake, hstep⟩ | ⟨w, hawake, hstep⟩ |
    ⟨asleep, txrxAsleep, rfl, hworkers, htxrx⟩
  · exact
      { pool := h.pool.txrxStep hstep
        queue := h.queue.txrxStep h.pool hstep
        radio := h.radio.txrxStep hstep
        hold := h.hold.txrxStep h.pool hstep
        sync := h.sync.txrxStep h.pool hstep
        sleep := h.sleep.txrxStep hawake hstep }
  · exact
      { pool := h.pool.workerStep hstep
        queue := h.queue.workerStep h.pool hstep
        radio := h.radio.workerStep h.pool h.queue hstep
        hold := h.hold.workerStep h.pool h.queue h.radio hstep
        sync := h.sync.workerStep h.pool hstep
        sleep := h.sleep.workerStep hawake hstep }
  · refine h.of_asleep ⟨fun w hw => ?_, fun hw => ?_⟩
    · exact (hworkers w hw).elim (h.sleep.worker w) id
    · exact (htxrx hw).elim h.sleep.txrx id

theorem inv_of_reachable (hs : (workersSystem cfg).Reachable s) : Inv cfg s := by
  refine hs.invariant (Inv cfg) ?_ ?_
  · rintro _ rfl
    exact inv_init cfg
  · intro s a s' h hstep
    exact inv_step h hstep

/-! ## No deadlock -/

/-- Some thread is awake and does not have to wait. -/
def CanGoOn (cfg : WorkersCfg) (s : State) : Prop :=
  (s.txrxAsleep = false ∧ s.txrxReady cfg = true) ∨
    ∃ w : Worker, w.id < cfg.nofWorkers w.pool ∧ s.asleep w = false ∧ s.ready w = true

theorem Inv.canGoOn_of_txrxReady (h : Inv cfg s) (hready : s.txrxReady cfg) : CanGoOn cfg s := by
  refine .inl ⟨Bool.eq_false_iff.mpr fun hasleep => ?_, hready⟩
  rw [h.sleep.txrx hasleep] at hready
  cases hready

theorem Inv.canGoOn_of_ready (h : Inv cfg s) (hbusy : s.status w ≠ .idle) (hready : s.ready w) :
    CanGoOn cfg s := by
  refine .inr ⟨w, h.pool.valid w hbusy, Bool.eq_false_iff.mpr fun hasleep => ?_, hready⟩
  rw [h.sleep.worker w hasleep] at hready
  cases hready

theorem Inv.slotSync_head (h : Inv cfg s) (hw : s.pc w = .syncWait)
    (hhead : s.semaphore.head? = some w) : s.slotSync.head? = some w := by
  have hpool : w.pool = .nr := by simpa [hw, WorkerPc.ofPool] using h.pool.pool w
  have hmem : w ∈ s.slotSync := (h.sync.mem w).mpr ⟨hpool, .inr (.inl hw)⟩
  obtain ⟨first, hfirst⟩ : ∃ first, s.slotSync.head? = some first := by
    cases hq : s.slotSync with
    | nil => rw [hq] at hmem; cases hmem
    | cons first rest => simp
  -- the first one of the slot synchronisation is in the semaphore, hence not before `w`
  have hfirstMem := List.mem_of_mem_head? hfirst
  obtain ⟨hfirstPool, hwhere⟩ := (h.sync.mem first).mp hfirstMem
  have hqueued : first ∈ s.semaphore := by
    rw [h.queue.mem]
    rcases hwhere with hat | hat | hat | hat
    · exact .inl hat
    · exact .inr (.inl (by rw [hat]; rfl))
    · exact .inr (.inl (by rw [hat]; rfl))
    · refine .inr (.inr ?_)
      cases htxrx : s.txrx <;> simp_all [synced, TxrxPc.queued]
  obtain ⟨number, hnumber, hle, -⟩ := h.queue.numbered.le_of_mem hqueued
  have hfirstContext := h.sync.numbered.head hfirst
  have hticket := h.queue.numbered.head hhead
  obtain ⟨context, hcontext, hleSync, -⟩ := h.sync.numbered.le_of_mem hmem
  simp only [ticket, hfirstContext, hcontext, hfirstPool, hpool, map_some, reduceCtorEq,
    if_false, some.injEq] at hnumber hticket
  have hge : context ≤ s.syncReleased := by
    apply Nat.le_of_mul_le_mul_left _ cfg.jobs_pos
    omega
  obtain rfl := le_antisymm hge hleSync
  exact h.sync.numbered.head_of_ticket hmem hcontext

/-- While the semaphore is not empty, its head goes on, or `txrx` is about to start it. -/
theorem Inv.canGoOn_of_head (h : Inv cfg s) (hhead : s.semaphore.head? = some w) :
    CanGoOn cfg s := by
  have hmem := List.mem_of_mem_head? hhead
  rcases (h.queue.mem w).mp hmem with hstart | hqueued | htxrx
  · refine h.canGoOn_of_ready (by rw [hstart]; decide) ?_
    have hpc : s.pc w = .waitToStart := by
      by_contra hne
      rw [(h.pool.working w).mpr hne] at hstart
      cases hstart
    simp [ready, hpc, hstart]
  · have hworking : s.status w = .working := by
      rw [h.pool.working]
      intro hat
      rw [hat] at hqueued
      cases hqueued
    refine h.canGoOn_of_ready (by rw [hworking]; decide) ?_
    unfold ready
    cases hat : s.pc w <;> simp only [hat, WorkerPc.queued, Bool.false_eq_true] at hqueued ⊢
    · simp [turn, h.slotSync_head hat hhead]
    · simp [turn, hhead]
  · apply h.canGoOn_of_txrxReady
    unfold txrxReady
    cases hat : s.txrx <;> simp_all [TxrxPc.queued]

/-- With an empty semaphore, a worker that is neither idle nor with `txrx` and has to wait is a
held-back NR worker. -/
theorem Inv.held_back (h : Inv cfg s) (hempty : s.semaphore = []) (hidle : s.status w ≠ .idle)
    (hheld : w ∉ s.txrx.held) (hready : s.ready w = false) :
    s.pc w = .waitLastWorker ∧ s.txHold := by
  have hqueue := h.queue.mem w
  rw [hempty] at hqueue
  have hworking : s.status w = .working := by
    have := (h.pool.held w).not.mpr hheld
    cases hst : s.status w <;> simp_all
  have hpc := (h.pool.working w).mp hworking
  cases hat : s.pc w <;> simp_all [ready, WorkerPc.queued]

theorem Inv.canGoOn (h : Inv cfg s) (hlte : 0 < cfg.nofWorkers .lte)
    (hnr : cfg.nr → 0 < cfg.nofWorkers .nr) : CanGoOn cfg s := by
  cases hsem : s.semaphore with
  | cons w rest => exact h.canGoOn_of_head (by rw [hsem]; rfl)
  | nil =>
    cases htxrx : s.txrx with
    | waitLte =>
      -- some LTE worker is idle, or about to be
      by_cases hidle : s.status ⟨.lte, 0⟩ = .idle
      · apply h.canGoOn_of_txrxReady
        simp only [txrxReady, htxrx, findFinishedWorker, List.find?_isSome]
        exact ⟨0, mem_range.mpr hlte, by simpa using hidle⟩
      cases hready : s.ready ⟨.lte, 0⟩ with
      | true => exact h.canGoOn_of_ready hidle hready
      | false =>
        obtain ⟨hat, -⟩ := h.held_back hsem hidle (by simp [htxrx, held]) hready
        have := h.pool.pool ⟨.lte, 0⟩
        rw [hat] at this
        cases this
    | waitNr lte =>
      have hcarrier := h.pool.inNr (by rw [htxrx]; rfl)
      by_cases hidle : s.status ⟨.nr, 0⟩ = .idle
      · apply h.canGoOn_of_txrxReady
        simp only [txrxReady, htxrx, findFinishedWorker, List.find?_isSome]
        exact ⟨0, mem_range.mpr (hnr hcarrier), by simpa using hidle⟩
      cases hready : s.ready ⟨.nr, 0⟩ with
      | true => exact h.canGoOn_of_ready hidle hready
      | false =>
        -- it would wait for a subframe that is not complete, but all of them are
        obtain ⟨-, hset⟩ := h.held_back hsem hidle (by simp [htxrx, held]) hready
        have hqueue := h.queue.mem
        have hpushed := h.queue.pushed
        rw [hsem] at hqueue hpushed
        rcases (h.hold.hold hset).2 with ⟨w, -, hat⟩ | heq | ⟨w, hat⟩
        · exact absurd ((hqueue w).mpr (.inr (.inl (by rw [hat]; rfl)))) (by simp)
        · simp [htxrx, pushed, WorkersCfg.jobs, hcarrier] at hpushed
          omega
        · exact absurd ((hqueue w).mpr (.inr (.inl (by rw [hat]; rfl)))) (by simp)
    | _ => exact h.canGoOn_of_txrxReady (by simp [txrxReady, htxrx])

/-! ## The order of the subframes -/

/-- What the workers guarantee: `radio->tx` was called once for each subframe from the first one on,
in order and with its samples; the worker that `wait_worker` hands out next, unless it is an NR
worker without samples to transmit, belongs to a transmitted subframe; and the threads are not
deadlocked. -/
structure SubframesInOrder (cfg : WorkersCfg) (s : State) : Prop where
  contexts : s.radio.map Prod.fst = List.range s.radio.length
  samples : ∀ tx ∈ s.radio, ∀ context ∈ tx.2, context = tx.1
  handedOut : ∀ pool id context, s.txrx.waitsFor pool = true →
    s.findFinishedWorker cfg pool = some id → s.context ⟨pool, id⟩ = some context →
    pool = .lte ∨ s.txEnable ⟨pool, id⟩ = true → context ∈ s.radio.map Prod.fst
  canGoOn : CanGoOn cfg s

/-- With workers in the pools, the subframes reach the radio in order in every interleaving. -/
theorem subframesInOrder_of_reachable (cfg : WorkersCfg) (hlte : 0 < cfg.nofWorkers .lte)
    (hnr : cfg.nr = true → 0 < cfg.nofWorkers .nr) (s : State)
    (hs : (workersSystem cfg).Reachable s) : SubframesInOrder cfg s := by
  have h := inv_of_reachable hs
  refine
    { contexts := h.radio.contexts
      samples := h.radio.samples
      handedOut := fun pool id context _ hfind hcontext htx => ?_
      canGoOn := h.canGoOn hlte hnr }
  obtain ⟨-, hidle⟩ := findFinishedWorker_eq_some hfind
  rw [h.radio.contexts, mem_range]
  rcases h.hold.handedOut _ context (.inl hidle) hcontext with hlt | ⟨hpool, hnone⟩
  · exact hlt
  rcases htx with rfl | hsome
  · cases hpool
  · rw [hnone] at hsome
    cases hsome

/-- Two LTE workers and one NR worker. -/
def exampleWorkers : WorkersCfg :=
  { nofWorkers := fun pool => if pool = .lte then 2 else 1
    nr := true }

/-- `txrx` processes one subframe. -/
def startSubframe : List Action := List.replicate 7 .txrx

/-- The NR worker takes `n` steps. -/
def nrSteps (n : ℕ) (success : Bool) : List Action :=
  List.replicate n (.worker ⟨.nr, 0⟩ success)

/-- The first LTE worker takes `n` steps. -/
def lteSteps (n : ℕ) : List Action :=
  List.replicate n (.worker ⟨.lte, 0⟩ true)

/-- A subframe of both carriers, until both workers are idle again. -/
def wholeSubframe : List Action :=
  startSubframe ++ nrSteps 6 true ++ lteSteps 7 ++ nrSteps 2 true

/-- Two subframes were transmitted, and the NR worker of the second waits for the last worker. -/
theorem subframesInOrder_second_subframe : ∃ s, (workersSystem exampleWorkers).Reachable s ∧
      (s.radio = [(0, [0, 0]), (1, [1, 1])] ∧ s.pc ⟨.nr, 0⟩ = .waitLastWorker) ∧
      SubframesInOrder exampleWorkers s :=
  System.exists_reachable_and rfl
    (wholeSubframe ++ (startSubframe ++ nrSteps 6 true ++ lteSteps 4)) (by decide +kernel)
    fun s hs _ => subframesInOrder_of_reachable exampleWorkers (by decide) (by decide) s hs

/-- An NR worker whose processing failed does not wait for the last worker: it is handed out again
before anything was transmitted. -/
theorem nr_worker_handed_out_before_transmission : ∃ s, (workersSystem exampleWorkers).run .init
          (startSubframe ++ nrSteps 6 false ++ [.txrx]) = some s ∧
      s.txrx = .waitNr 1 ∧ s.findFinishedWorker exampleWorkers .nr = some 0 ∧
      s.context ⟨.nr, 0⟩ = some 0 ∧ s.radio = [] := by
  let run := (workersSystem exampleWorkers).run .init (startSubframe ++ nrSteps 6 false ++ [.txrx])
  exact ⟨run.get (by decide), (some_get _).symm, by decide, by decide, by decide, by decide⟩

/-! ## The subframes in flight -/

/-- At most one worker is between its turn and its release of the semaphore, and `txrx` is not
further ahead of the radio than there are LTE workers. -/
structure InFlight (cfg : WorkersCfg) (s : State) : Prop where
  exclusive : ∀ v w, (s.pc v).holds = true → (s.pc w).holds = true → v = w
  ahead : s.tti ≤ s.radio.length + cfg.nofWorkers .lte

theorem Inv.busy (h : Inv cfg s) (hw : w ∈ s.semaphore) : s.status w ≠ .idle := by
  intro hidle
  rcases (h.queue.mem w).mp hw with hstart | hqueued | htxrx
  · rw [hidle] at hstart
    cases hstart
  · have hworking := (h.pool.working w).mpr (by rintro hat; rw [hat] at hqueued; cases hqueued)
    rw [hidle] at hworking
    cases hworking
  · have hheld := (h.pool.held w).mpr (s.txrx.queued_subset_held htxrx)
    rw [hidle] at hheld
    cases hheld

/-- A subframe that was started and not transmitted has an LTE worker in the semaphore. -/
theorem Inv.exists_worker (h : Inv cfg s) {context : ℕ} (hle : s.radio.length ≤ context)
    (hlt : context < s.tti) :
    ∃ id < cfg.nofWorkers .lte, s.context ⟨.lte, id⟩ = some context := by
  have hpushed := h.queue.pushed
  have hyes := h.radio.transmitted
  have hnot := h.radio.notTransmitted
  have hmono := Nat.mul_le_mul_left cfg.jobs hle
  have hnext := Nat.mul_le_mul_left cfg.jobs (Nat.succ_le_of_lt hlt)
  have hjobs := cfg.jobs_pos
  rw [Nat.mul_succ] at hnext
  obtain ⟨w, hw, hticket⟩ := h.queue.numbered.exists_mem (n := cfg.jobs * context + (cfg.jobs - 1))
    (by by_cases ht : Transmitted s <;> grind -linarith) (by omega)
  obtain ⟨context', hcontext, hnumber⟩ := map_eq_some_iff.mp hticket
  have hbusy := h.busy hw
  have hvalid := h.pool.valid w hbusy
  obtain ⟨pool, id⟩ := w
  cases pool with
  | lte =>
    obtain rfl : context' = context := Nat.eq_of_mul_eq_mul_left hjobs (by simpa using hnumber)
    exact ⟨id, hvalid, hcontext⟩
  | nr =>
    -- the tickets of the NR workers are even
    rcases cfg.jobs_eq with ⟨hnr, -⟩ | ⟨-, htwo⟩
    · exact absurd (h.pool.noNr hnr _ rfl) hbusy
    · simp [htwo] at hnumber
      omega

/-- In every interleaving the workers take turns, and `txrx` stays close to the radio. -/
theorem inFlight_of_reachable (cfg : WorkersCfg) (s : State)
    (hs : (workersSystem cfg).Reachable s) : InFlight cfg s := by
  have h := inv_of_reachable hs
  refine ⟨fun v w => h.queue.holds_unique, ?_⟩
  have hsub : List.range' s.radio.length (s.tti - s.radio.length) ⊆
      (List.range (cfg.nofWorkers .lte)).map fun id => (s.context ⟨.lte, id⟩).getD 0 := by
    intro context hcontext
    rw [mem_range'_1] at hcontext
    obtain ⟨id, hid, hat⟩ := h.exists_worker hcontext.1 (by omega)
    exact mem_map.mpr ⟨id, mem_range.mpr hid, by rw [hat]; rfl⟩
  have hnodup : (List.range' s.radio.length (s.tti - s.radio.length)).Nodup := nodup_range'
  have hlen := (subperm_of_subset hnodup hsub).length_le
  simp at hlen
  omega

/-- The second subframe was started and not transmitted, and its LTE worker has its turn. -/
theorem inFlight_second_subframe : ∃ s, (workersSystem exampleWorkers).Reachable s ∧
      (s.tti = 2 ∧ s.radio = [(0, [0, 0])] ∧ (s.pc ⟨.lte, 0⟩).holds = true) ∧
      InFlight exampleWorkers s :=
  System.exists_reachable_and rfl
    (wholeSubframe ++ (startSubframe ++ nrSteps 6 true ++ lteSteps 3)) (by decide +kernel)
    fun s hs _ => inFlight_of_reachable exampleWorkers s hs

end MbmsTx.Phy.Workers
