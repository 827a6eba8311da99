import MbmsTx.Phy.Workers.Queue

/-!
# The radio and the NR workers

The ticket at the head of the semaphore tells which subframe is transmitted next (`RadioInv`). The
NR worker of a subframe is held back by `tx_hold` until its LTE worker has transmitted (`HoldInv`).
-/

namespace MbmsTx.Phy.Workers

open MbmsTx.TicketQueue Function State WorkerPc

variable {cfg : WorkersCfg} {s t : State} {w : Worker}

/-! ## The radio -/

/-- The LTE worker of this subframe has transmitted but not released. -/
def Transmitted (s : State) : Prop :=
  ∃ w : Worker, w.pool = .lte ∧ (s.pc w = .lastWorker ∨ s.pc w = .semaphoreRelease)

/-- `radio->tx` was called for the subframes whose LTE worker had its turn, in order and with their
samples. -/
structure RadioInv (cfg : WorkersCfg) (s : State) : Prop where
  contexts : s.radio.map Prod.fst = List.range s.radio.length
  samples : ∀ tx ∈ s.radio, ∀ context ∈ tx.2, context = tx.1
  txBuffer : ∀ context ∈ s.txBuffer, context = s.radio.length
  transmitted : Transmitted s → s.released + 1 = cfg.jobs * s.radio.length
  notTransmitted : ¬ Transmitted s →
    cfg.jobs * s.radio.length ≤ s.released ∧ s.released < cfg.jobs * s.radio.length + cfg.jobs

theorem WorkersCfg.jobs_eq (cfg : WorkersCfg) :
    (cfg.nr = false ∧ cfg.jobs = 1) ∨ (cfg.nr ∧ cfg.jobs = 2) := by
  cases h : cfg.nr <;> simp [WorkersCfg.jobs, h]

theorem WorkersCfg.jobs_pos (cfg : WorkersCfg) : 0 < cfg.jobs := by
  rcases cfg.jobs_eq with ⟨-, h⟩ | ⟨-, h⟩ <;> omega

theorem QueueInv.holds_unique (h : QueueInv cfg s) {v : Worker} (hv : (s.pc v).holds)
    (hw : (s.pc w).holds) : v = w :=
  Option.some.inj ((h.turn v hv).symm.trans (h.turn w hw))

theorem transmitted_iff (h : QueueInv cfg s) (hw : (s.pc w).holds) :
    Transmitted s ↔ w.pool = .lte ∧ (s.pc w = .lastWorker ∨ s.pc w = .semaphoreRelease) := by
  constructor
  · rintro ⟨v, hpool, hv⟩
    have hholds : (s.pc v).holds := by
      rcases hv with hv | hv <;> rw [hv] <;> rfl
    obtain rfl := h.holds_unique hholds hw
    exact ⟨hpool, hv⟩
  · intro hw
    exact ⟨w, hw⟩

/-- The worker that has its turn belongs to the next subframe, unless it has transmitted already. -/
theorem RadioInv.context_eq (hp : PoolInv cfg s) (hq : QueueInv cfg s) (h : RadioInv cfg s)
    (hw : (s.pc w).holds) :
    ∃ context, s.context w = some context ∧ ticket cfg s w = some s.released ∧
      (Transmitted s → context + 1 = s.radio.length) ∧
      (¬ Transmitted s → context = s.radio.length) ∧
      (w.pool = .nr → cfg.nr ∧ s.released = 2 * context) ∧
      (w.pool = .lte → s.released + 1 = cfg.jobs * (context + 1)) := by
  have hticket := hq.numbered.head (hq.turn w hw)
  have hvalid := hp.noNr
  obtain ⟨context, hcontext, hnumber⟩ := Option.map_eq_some_iff.mp hticket
  have hbusy : s.status w ≠ .idle := by
    intro hidle
    have := (hp.working w).mpr (fun hat => by rw [hat] at hw; cases hw)
    rw [hidle] at this
    cases this
  have htrans := h.transmitted
  have hnot := h.notTransmitted
  have hiff := transmitted_iff hq hw
  refine ⟨context, hcontext, hticket, ?_⟩
  rcases cfg.jobs_eq with ⟨hnr, hjobs⟩ | ⟨hnr, hjobs⟩ <;> rw [hjobs] at hnumber htrans hnot ⊢ <;>
    cases hpool : w.pool <;> simp only [hpool, if_true, if_false, reduceCtorEq] at hnumber hiff ⊢
  · refine ⟨fun ht => ?_, fun ht => ?_, by simp, fun _ => by omega⟩
    · have := htrans ht
      omega
    · have := hnot ht
      omega
  · exact absurd (hvalid hnr w hpool) hbusy
  · refine ⟨fun ht => ?_, fun ht => ?_, by simp, fun _ => by omega⟩
    · have := htrans ht
      omega
    · have := hnot ht
      omega
  · refine ⟨fun ht => ?_, fun ht => ?_, fun _ => ⟨hnr, hnumber.symm⟩, by simp⟩
    · simpa using hiff.mp ht
    · have := hnot ht
      omega

theorem RadioInv.workerStep (hp : PoolInv cfg s) (hq : QueueInv cfg s) (h : RadioInv cfg s)
    (hstep : WorkerStep s w t) : RadioInv cfg t := by
  have hother : ∀ v, (s.pc w).holds → (s.pc v).holds → v = w := fun v hw hv =>
    hq.holds_unique hv hw
  have hpool := hp.pool w
  have hturn := h.context_eq hp hq (w := w)
  have htrans := transmitted_iff hq (w := w)
  obtain ⟨hcontexts, hsamples, hbuffer, hyes, hnot⟩ := h
  cases hstep with
  | resetLastWorker hpc =>
    obtain ⟨context, hcontext, -, -, hopen, -⟩ := hturn (by rw [hpc]; rfl)
    have hnr : w.pool = .nr := by simpa [hpc, ofPool] using hpool
    have hnext := hopen (by simp [htrans, hpc, holds])
    refine ⟨hcontexts, hsamples, ?_, ?_, ?_⟩ <;> simp only [setPc, Transmitted, update_apply] <;>
      grind -linarith [Transmitted, holds]
  | radioTx hpc =>
    obtain ⟨context, hcontext, -, -, hopen, -, hlte⟩ := hturn (by rw [hpc]; rfl)
    have hpool : w.pool = .lte := by simpa [hpc, ofPool] using hpool
    obtain rfl := hopen (by simp [htrans, hpc, holds])
    have hyes' : Transmitted (s.setPc w .lastWorker) := ⟨w, hpool, .inl (update_self ..)⟩
    refine ⟨?_, ?_, ?_, fun _ => ?_, absurd hyes'⟩ <;> simp only [setPc, hcontext]
    · simp [hcontexts, List.range_succ]
    · intro tx htx c hc
      rcases List.mem_append.mp htx with htx | htx
      · exact hsamples tx htx c hc
      obtain rfl := List.mem_singleton.mp htx
      rcases List.mem_append.mp hc with hc | hc
      · exact hbuffer c hc
      · exact List.mem_singleton.mp hc
    · simp
    · simpa using hlte hpool
  | lastWorker hpc =>
    have hlte : w.pool = .lte := by simpa [hpc, ofPool] using hpool
    refine ⟨hcontexts, hsamples, hbuffer, ?_, ?_⟩ <;>
      simp only [setPc, notifyAll, Transmitted, update_apply] <;> grind -linarith [Transmitted]
  | semaphoreRelease hpc =>
    have hholds : (s.pc w).holds := by rw [hpc]; rfl
    obtain ⟨context, -, -, -, hopen, hnr, -⟩ := hturn hholds
    have hjobs := cfg.jobs_eq
    refine ⟨hcontexts, hsamples, hbuffer, ?_, fun _ => ?_⟩
    · simp only [setPc, notifyAll, Transmitted, update_apply]
      grind -linarith [holds]
    simp only [setPc, notifyAll]
    cases hp' : w.pool with
    | lte =>
      have hdone := hyes ((htrans hholds).mpr ⟨hp', .inr hpc⟩)
      omega
    | nr =>
      have hnot' : ¬ Transmitted s := by simp [htrans hholds, hp']
      have hcontext := hopen hnot'
      obtain ⟨hnr', heven⟩ := hnr hp'
      simp only [hnr', true_and, Bool.true_eq_false, false_and, false_or] at hjobs
      rw [hjobs]
      omega
  | _ =>
    refine ⟨hcontexts, hsamples, hbuffer, ?_, ?_⟩ <;>
      simp only [setPc, setStatus, notifyAll, Transmitted, update_apply] <;>
      grind -linarith [Transmitted, ofPool]

theorem RadioInv.txrxStep (h : RadioInv cfg s) (hstep : TxrxStep cfg s t) : RadioInv cfg t := by
  cases hstep <;> exact { h with }

/-! ## Waiting for the last worker -/

/-- `tx_hold` is set from the turn of the NR worker to the transmission of its subframe, so the NR
worker waits for it. -/
structure HoldInv (cfg : WorkersCfg) (s : State) : Prop where
  nrRelease : ∀ w : Worker, w.pool = .nr → s.pc w = .semaphoreRelease → s.txEnable w = true →
    s.txHold = true
  lteRelease : ∀ w : Worker, w.pool = .lte → s.pc w = .semaphoreRelease → s.txHold = false
  hold : s.txHold = true → cfg.nr = true ∧
    ((∃ w : Worker, w.pool = .nr ∧ s.pc w = .semaphoreRelease) ∨
      s.released = 2 * s.radio.length + 1 ∨ ∃ w, s.pc w = .lastWorker)
  waiting : ∀ w, s.pc w = .waitLastWorker → ∃ context, s.context w = some context ∧
    2 * context < s.released ∧ (context < s.radio.length ∨ s.txHold = true)
  handedOut : ∀ w context, s.status w = .idle ∨ s.pc w = .finished →
    s.context w = some context →
    context < s.radio.length ∨ (w.pool = .nr ∧ s.txEnable w = false)

theorem HoldInv.workerStep (hp : PoolInv cfg s) (hq : QueueInv cfg s) (hr : RadioInv cfg s)
    (h : HoldInv cfg s) (hstep : WorkerStep s w t) : HoldInv cfg t := by
  -- no other worker is at a place where it could have its turn
  have hother : ∀ v, (s.pc w).holds → (s.pc v).holds → v = w := fun v hw hv =>
    hq.holds_unique hv hw
  have hpool := hp.pool w
  have hpools := w.lte_or_nr
  have hworking := hp.working
  have hturn := hr.context_eq hp hq (w := w)
  have htrans := transmitted_iff hq (w := w)
  obtain ⟨hnrRelease, hlteRelease, hhold, hwaiting, hhandedOut⟩ := h
  cases hstep with
  | lastWorker hpc =>
    -- the tickets of the NR workers that wait were released before this one
    have htransmitted : ∀ context, 2 * context < s.released → context < s.radio.length := by
      intro context hlt
      have hyes := hr.transmitted ⟨w, by simpa [hpc, ofPool] using hpool, .inl hpc⟩
      rcases cfg.jobs_eq with ⟨-, hjobs⟩ | ⟨-, hjobs⟩ <;> rw [hjobs] at hyes <;> omega
    constructor <;> simp only [setPc, notifyAll] <;> grind -linarith [update_apply, ofPool, holds]
  | resetLastWorker hpc | radioTx hpc | semaphoreRelease hpc =>
    obtain ⟨context, hcontext, -, hdone, hopen, hnr, -⟩ := hturn (by rw [hpc]; rfl)
    constructor <;> simp only [setPc, notifyAll] <;> grind -linarith [update_apply, ofPool, holds]
  | _ =>
    constructor <;> simp only [setPc, setStatus, notifyAll] <;>
      grind -linarith [update_apply, ofPool, holds]

theorem HoldInv.txrxStep (hp : PoolInv cfg s) (h : HoldInv cfg s) (hstep : TxrxStep cfg s t) :
    HoldInv cfg t := by
  obtain ⟨hnrRelease, hlteRelease, hhold, hwaiting, hhandedOut⟩ := h
  have hheld := hp.held
  have hworking := hp.working
  cases hstep with
  | pushNr hpc | pushLte hpc =>
    refine ⟨hnrRelease, hlteRelease, hhold, ?_, ?_⟩ <;> simp only [State.push] <;>
      grind -linarith [update_apply, TxrxPc.held]
  | pushSync hpc => exact ⟨hnrRelease, hlteRelease, hhold, hwaiting, hhandedOut⟩
  | waitLte hpc | waitNr hpc | startNr hpc | startLte hpc =>
    refine ⟨hnrRelease, hlteRelease, hhold, hwaiting, ?_⟩
    simp only [startWorker, setStatus]
    grind -linarith [update_apply]

end MbmsTx.Phy.Workers
