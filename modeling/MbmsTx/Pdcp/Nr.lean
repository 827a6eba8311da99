import MbmsTx.Lib.Transition
import MbmsTx.Pdcp.Lte

/-!
# The receiver of the NR PDCP entity

`write_pdu` puts a PDU into a queue ordered by COUNT and delivers while the COUNTs are consecutive;
`rx_deliv` is the first COUNT that was not delivered. The reordering timer runs while COUNTs are
missing. When it expires, everything below `rx_reord` is delivered, but `rx_deliv` stays: a PDU that
arrives late is delivered after its successors, or a second time.

The SDUs are delivered in order until the timer expires (`NrReceiver.Inv`), and then they are not.
-/

namespace MbmsTx.Pdcp

open MbmsTx.Transition List

/-- `pdcp_entity_nr` for reception. The queue is in ascending order of COUNT. -/
structure NrEntity where
  rxNext : ℕ
  rxDeliv : ℕ
  rxReord : ℕ
  reorderQueue : List (ℕ × List UInt8)
  timerRunning : Bool
  rxOverflow : Bool
  deriving DecidableEq

/-- The COUNTs of a queue. -/
def counts (queue : List (ℕ × List UInt8)) : List ℕ := queue.map Prod.fst

/-- The result of `deliver_all_consecutive_counts`. -/
structure NrDelivery where
  rxDeliv : ℕ
  rxOverflow : Bool
  queue : List (ℕ × List UInt8)
  sdus : List (ℕ × List UInt8)

/-- The loop of `deliver_all_consecutive_counts`. -/
def deliverConsecutive (rxDeliv : ℕ) (rxOverflow : Bool) :
    List (ℕ × List UInt8) → NrDelivery
  | [] => ⟨rxDeliv, rxOverflow, [], []⟩
  | entry :: queue =>
    if entry.1 ≠ rxDeliv ∨ rxOverflow = true then ⟨rxDeliv, rxOverflow, entry :: queue, []⟩
    else
      let next := (rxDeliv + 1) % 2 ^ 32
      let rest := deliverConsecutive next (decide (next = 0)) queue
      { rest with sdus := entry :: rest.sdus }

namespace NrEntity

/-- An entity that was just configured. -/
def init : NrEntity :=
  { rxNext := 0
    rxDeliv := 0
    rxReord := 0
    reorderQueue := []
    timerRunning := false
    rxOverflow := false }

def windowSize (len : SnLen) : ℕ := 1 <<< (len.bits - 1)

/-- `RCVD_COUNT` of a sequence number. -/
def rcvdCount (e : NrEntity) (len : SnLen) (rcvdSn : ℕ) : ℕ :=
  let rcvdHfn :=
    if (rcvdSn : ℤ) < (sn len e.rxDeliv : ℤ) - windowSize len then hfn len e.rxDeliv + 1
    else if sn len e.rxDeliv + windowSize len ≤ rcvdSn then hfnBefore (hfn len e.rxDeliv)
    else hfn len e.rxDeliv
  count len rcvdHfn rcvdSn

/-- `deliver_all_consecutive_counts`: the entity and the delivered SDUs, with their COUNTs. -/
def deliverAllConsecutiveCounts (e : NrEntity) : NrEntity × List (ℕ × List UInt8) :=
  let d := deliverConsecutive e.rxDeliv e.rxOverflow e.reorderQueue
  ({ e with
      rxDeliv := d.rxDeliv
      rxOverflow := d.rxOverflow
      reorderQueue := d.queue }, d.sdus)

/-- The timer is started if it does not run and a COUNT is missing. -/
def startTimer (e : NrEntity) : NrEntity :=
  if e.timerRunning = false ∧ e.rxDeliv < e.rxNext then
    { e with
        rxReord := e.rxNext
        timerRunning := true }
  else e

/-- The reordering timers at the end of `write_pdu`. -/
def handleTimer (e : NrEntity) : NrEntity :=
  startTimer { e with timerRunning := e.timerRunning && !decide (e.rxReord ≤ e.rxDeliv) }

/-- The part of `write_pdu` behind the integrity check. -/
def storePdu (e : NrEntity) (rcvdCount : ℕ) (pdu : List UInt8) : NrEntity × List (ℕ × List UInt8) :=
  if rcvdCount < e.rxDeliv then (e, [])
  else if rcvdCount ∈ counts e.reorderQueue then (e, [])
  else
    let e :=
      { e with
          reorderQueue := e.reorderQueue.orderedInsert (fun a b => a.1 ≤ b.1) (rcvdCount, pdu)
          rxNext := if e.rxNext ≤ rcvdCount then (rcvdCount + 1) % 2 ^ 32 else e.rxNext }
    let (e, sdus) := if rcvdCount = e.rxDeliv then e.deliverAllConsecutiveCounts else (e, [])
    (e.handleTimer, sdus)

/-- `write_pdu`: the entity and the SDUs, with their COUNTs. -/
def writePdu (e : NrEntity) (len : SnLen) (sec : Security) (stack pdu : List UInt8) :
    NrEntity × List (ℕ × List UInt8) :=
  if pdu.length ≤ len.hdrLenBytes then (e, [])
  else
    let rcvdCount := e.rcvdCount len (readDataHeader len pdu)
    let (msg, mac) := extractMac stack (discardDataHeader len pdu)
    let msg := sec.cipher rcvdCount msg
    if !sec.integrityVerify rcvdCount msg mac then (e, []) else e.storePdu rcvdCount msg

/-- `reordering_callback`, when the timer has expired. -/
def reorderingCallback (e : NrEntity) : NrEntity × List (ℕ × List UInt8) :=
  let below := e.reorderQueue.takeWhile fun entry => entry.1 < e.rxReord
  let (e, sdus) :=
    deliverAllConsecutiveCounts
      { e with
          reorderQueue := e.reorderQueue.dropWhile fun entry => entry.1 < e.rxReord
          timerRunning := false }
  (e.startTimer, below ++ sdus)

end NrEntity

/-! ## The COUNT of a PDU -/

variable {c : ℕ}

/-- In the window the HFN is that of `rx_deliv` or a neighbour, and the sequence number tells which.
-/
theorem hfn_cases_of_window {len : SnLen} {d : ℕ} (hlow : d ≤ c + NrEntity.windowSize len)
    (hhigh : c < d + NrEntity.windowSize len) :
    ((sn len c : ℤ) < (sn len d : ℤ) - NrEntity.windowSize len ∧ hfn len c = hfn len d + 1) ∨
      (sn len d + NrEntity.windowSize len ≤ sn len c ∧ hfn len d = hfn len c + 1) ∨
      (¬ (sn len c : ℤ) < (sn len d : ℤ) - NrEntity.windowSize len ∧
        ¬ sn len d + NrEntity.windowSize len ≤ sn len c ∧ hfn len c = hfn len d) := by
  rw [sn_eq_mod, sn_eq_mod, hfn_eq_div, hfn_eq_div]
  cases len with
  | len5 | len7 | len12 | len15 | len18 =>
    simp only [NrEntity.windowSize, SnLen.bits, Nat.one_shiftLeft] at hlow hhigh ⊢
    omega

variable {e : NrEntity}

/-- A COUNT in the window of `rx_deliv` is found from its sequence number. -/
theorem NrEntity.rcvdCount_eq {len : SnLen} (hc : c < 2 ^ 32)
    (hlow : e.rxDeliv ≤ c + NrEntity.windowSize len)
    (hhigh : c < e.rxDeliv + NrEntity.windowSize len) : e.rcvdCount len (sn len c) = c := by
  have hcount : ∀ h, h = hfn len c → count len h (sn len c) = c := by
    rintro h rfl
    exact count_hfn_sn hc
  unfold rcvdCount
  rcases hfn_cases_of_window hlow hhigh with ⟨hsn, hhfn⟩ | ⟨hsn, hhfn⟩ | ⟨hup, hdown, hhfn⟩
  · rw [if_pos hsn]
    exact hcount _ hhfn.symm
  · have hnot : ¬ (sn len c : ℤ) < (sn len e.rxDeliv : ℤ) - windowSize len := by omega
    have hbefore : hfnBefore (hfn len e.rxDeliv) = hfn len c := by
      rw [hhfn]
      rfl
    rw [if_neg hnot, if_pos hsn]
    exact hcount _ hbefore
  · rw [if_neg hup, if_neg hdown]
    exact hcount _ hhfn.symm

/-! ## Delivering consecutive COUNTs -/

/-- Delivered are the consecutive COUNTs from `rx_deliv` on. -/
structure NrDelivery.Consecutive (d : NrDelivery) (rxDeliv : ℕ) (queue : List (ℕ × List UInt8)) :
    Prop where
  split : queue = d.sdus ++ d.queue
  le : rxDeliv ≤ d.rxDeliv
  sdus : counts d.sdus = List.range' rxDeliv (d.rxDeliv - rxDeliv)
  above : ∀ c ∈ counts d.queue, d.rxDeliv < c
  rxOverflow : d.rxOverflow = false

variable {queue : List (ℕ × List UInt8)} {rxDeliv : ℕ} {pdu : List UInt8}

theorem deliverConsecutive_spec (hsorted : (counts queue).Pairwise (· < ·))
    (hkeys : ∀ c ∈ counts queue, rxDeliv ≤ c ∧ c + 1 < 2 ^ 32) :
    (deliverConsecutive rxDeliv false queue).Consecutive rxDeliv queue := by
  induction queue generalizing rxDeliv with
  | nil =>
    exact ⟨rfl, le_rfl, by simp [deliverConsecutive, counts],
      by simp [deliverConsecutive, counts], rfl⟩
  | cons entry queue ih =>
    obtain ⟨hfirst, hrest⟩ := pairwise_cons.mp hsorted
    obtain ⟨hge, hlt⟩ := hkeys entry.1 mem_cons_self
    rw [deliverConsecutive]
    by_cases hnext : entry.1 = rxDeliv
    · have hsucc : (rxDeliv + 1) % 2 ^ 32 = rxDeliv + 1 := Nat.mod_eq_of_lt (by omega)
      have hcond : ¬ (entry.1 ≠ rxDeliv ∨ false) := by simp [hnext]
      have hzero : decide (rxDeliv + 1 = 0) = false := by simp
      rw [if_neg hcond]
      dsimp only
      rw [hsucc, hzero]
      obtain ⟨hsplit, hle, hsdus, habove, hoverflow⟩ := @ih (rxDeliv + 1) hrest (by
        intro c hc
        have hc' := hfirst c hc
        have hkey := (hkeys c (mem_cons_of_mem _ hc)).2
        omega)
      refine ⟨?_, Nat.le_of_succ_le hle, ?_, habove, hoverflow⟩
      · rw [cons_append, ← hsplit]
      · have hlen : (deliverConsecutive (rxDeliv + 1) false queue).rxDeliv - rxDeliv =
            (deliverConsecutive (rxDeliv + 1) false queue).rxDeliv - (rxDeliv + 1) + 1 := by omega
        rw [hlen, range'_succ, ← hsdus, counts, map_cons, hnext]
        rfl
    · rw [if_pos (.inl hnext)]
      refine ⟨rfl, le_rfl, by simp [counts], ?_, rfl⟩
      intro c hc
      dsimp only at hc ⊢
      rcases mem_cons.mp hc with rfl | hc
      · omega
      · have hc' := hfirst c hc
        omega

/-! ## The queue -/

/-- The queue between two calls, when the timer has not expired. -/
structure NrEntity.Waiting (e : NrEntity) : Prop where
  sorted : (counts e.reorderQueue).Pairwise (· < ·)
  above : ∀ c ∈ counts e.reorderQueue, e.rxDeliv < c
  below : ∀ c ∈ counts e.reorderQueue, c < e.rxNext
  deliv_le : e.rxDeliv ≤ e.rxNext
  next_lt : e.rxNext < 2 ^ 32
  last : e.rxDeliv < e.rxNext → ∃ c ∈ counts e.reorderQueue, c + 1 = e.rxNext
  timer : e.timerRunning = true → ∃ c ∈ counts e.reorderQueue, c + 1 = e.rxReord
  rxOverflow : e.rxOverflow = false

theorem NrEntity.waiting_init : NrEntity.init.Waiting :=
  ⟨List.Pairwise.nil, fun c hc => absurd hc (by simp [init, counts]),
    fun c hc => absurd hc (by simp [init, counts]), le_rfl, by simp [init],
    fun h => absurd h (lt_irrefl _), Bool.noConfusion, rfl⟩

theorem mem_counts_orderedInsert {k : ℕ} :
    k ∈ counts (queue.orderedInsert (fun a b => a.1 ≤ b.1) (c, pdu)) ↔
      k = c ∨ k ∈ counts queue := by
  simp only [counts, mem_map, mem_orderedInsert]
  constructor
  · rintro ⟨entry, rfl | hentry, rfl⟩
    · omega
    · exact .inr ⟨entry, hentry, rfl⟩
  · rintro (rfl | ⟨entry, hentry, rfl⟩)
    · simp
    · exact ⟨entry, .inr hentry, rfl⟩

theorem sorted_orderedInsert (hsorted : (counts queue).Pairwise (· < ·)) (hnew : c ∉ counts queue) :
    (counts (queue.orderedInsert (fun a b => a.1 ≤ b.1) (c, pdu))).Pairwise (· < ·) := by
  induction queue with
  | nil => simp [counts]
  | cons entry queue ih =>
    obtain ⟨hfirst, hrest⟩ := pairwise_cons.mp hsorted
    have hne : c ≠ entry.1 := fun h => hnew (h ▸ mem_cons_self)
    rw [orderedInsert]
    split
    · rename_i hle
      have hlt : c < entry.1 := lt_of_le_of_ne hle hne
      refine pairwise_cons.mpr ⟨?_, hsorted⟩
      intro k hk
      rcases mem_cons.mp hk with rfl | hk
      · exact hlt
      · exact lt_trans hlt (hfirst k hk)
    · rename_i hgt
      refine pairwise_cons.mpr ⟨?_, ih hrest fun h => hnew (mem_cons_of_mem _ h)⟩
      intro k hk
      rcases mem_counts_orderedInsert.mp hk with rfl | hk
      · omega
      · exact hfirst k hk

@[simp] theorem NrEntity.startTimer_rxDeliv (e : NrEntity) : e.startTimer.rxDeliv = e.rxDeliv := by
  unfold startTimer
  split
  · rfl
  · rfl

theorem NrEntity.Waiting.startTimer (h : e.Waiting) : e.startTimer.Waiting := by
  unfold NrEntity.startTimer
  split
  · rename_i hstart
    exact ⟨h.sorted, h.above, h.below, h.deliv_le, h.next_lt, h.last, fun _ => h.last hstart.2,
      h.rxOverflow⟩
  · exact h

variable {d : NrDelivery}

theorem NrDelivery.Consecutive.mem_queue (h : d.Consecutive rxDeliv queue)
    (hc : c ∈ counts queue) (hge : d.rxDeliv ≤ c) : c ∈ counts d.queue := by
  rw [h.split, counts, map_append] at hc
  rcases mem_append.mp hc with hc | hc
  · have hc : c ∈ counts d.sdus := hc
    rw [h.sdus, mem_range'_1] at hc
    omega
  · exact hc

theorem NrEntity.Waiting.store (h : e.Waiting) (hge : e.rxDeliv ≤ c)
    (hnew : c ∉ counts e.reorderQueue) (hlt : c + 1 < 2 ^ 32)
    (hd : d.Consecutive e.rxDeliv (e.reorderQueue.orderedInsert (fun a b => a.1 ≤ b.1) (c, pdu))) :
    NrEntity.Waiting (NrEntity.handleTimer
      { e with
          rxDeliv := d.rxDeliv
          rxOverflow := d.rxOverflow
          reorderQueue := d.queue
          rxNext := if e.rxNext ≤ c then (c + 1) % 2 ^ 32 else e.rxNext }) := by
  have hmod : (c + 1) % 2 ^ 32 = c + 1 := Nat.mod_eq_of_lt hlt
  rw [hmod]
  have hnext : ∀ k, k = c ∨ k ∈ counts e.reorderQueue →
      k < if e.rxNext ≤ c then c + 1 else e.rxNext := by
    rintro k (rfl | hk)
    · split <;> omega
    · have hbelow := h.below k hk
      split <;> omega
  have hlast : ∃ k, (k = c ∨ k ∈ counts e.reorderQueue) ∧
      k + 1 = if e.rxNext ≤ c then c + 1 else e.rxNext := by
    split
    · simp
    · obtain ⟨k, hk, hk'⟩ := h.last (by omega)
      exact ⟨k, .inr hk, hk'⟩
  have hinserted : ∀ {k}, k = c ∨ k ∈ counts e.reorderQueue → d.rxDeliv ≤ k → k ∈ counts d.queue :=
    fun hk => hd.mem_queue (mem_counts_orderedInsert.mpr hk)
  have hmem : ∀ k ∈ counts d.queue, k = c ∨ k ∈ counts e.reorderQueue := by
    intro k hk
    refine @mem_counts_orderedInsert c _ pdu k |>.mp ?_
    rw [hd.split, counts, map_append]
    exact mem_append_right _ hk
  have hsorted : (counts d.queue).Pairwise (· < ·) := by
    have hall := @sorted_orderedInsert c e.reorderQueue pdu h.sorted hnew
    rw [hd.split, counts, map_append] at hall
    exact (pairwise_append.mp hall).2.1
  have hdeliv : d.rxDeliv ≤ if e.rxNext ≤ c then c + 1 else e.rxNext := by
    -- the last COUNT that was delivered is one of those received
    rcases Nat.eq_or_lt_of_le hd.le with heq | hmore
    · have hle := h.deliv_le
      rw [← heq]
      split <;> omega
    have hdelivered : d.rxDeliv - 1 ∈ counts d.sdus := by
      rw [hd.sdus, mem_range'_1]
      omega
    have hreceived := hnext (d.rxDeliv - 1) (@mem_counts_orderedInsert c _ pdu _ |>.mp (by
      rw [hd.split, counts, map_append]
      exact mem_append_left _ hdelivered))
    omega
  refine NrEntity.Waiting.startTimer ⟨hsorted, hd.above, fun k hk => hnext k (hmem k hk),
    hdeliv, ?_, ?_, ?_, hd.rxOverflow⟩
  · have hlt' := h.next_lt
    split <;> omega
  · intro hmissing
    obtain ⟨k, hk, hk'⟩ := hlast
    dsimp only at hmissing ⊢
    exact ⟨k, hinserted hk (by omega), hk'⟩
  · intro hrunning
    simp only [Bool.and_eq_true, Bool.not_eq_true', decide_eq_false_iff_not] at hrunning
    obtain ⟨k, hk, hk'⟩ := h.timer hrunning.1
    exact ⟨k, hinserted (.inr hk) (by omega), hk'⟩

/-! ## Runs -/

/-- A receiver and the COUNTs delivered, in order. -/
structure NrReceiver where
  entity : NrEntity
  delivered : List ℕ
  deriving DecidableEq

/-- A data PDU and its true COUNT. -/
structure NrPdu where
  count : ℕ
  pdu : List UInt8

/-- A PDU arrives, or the reordering timer expires. -/
inductive NrAction
  | receive (a : NrPdu)
  | expire

section

variable (len : SnLen) (sec : Security) (stack : List UInt8)

/-- The PDU carries the sequence number of its COUNT, which is in the window of `rx_deliv`, and a
valid code. -/
def NrPdu.Valid (rxDeliv : ℕ) (a : NrPdu) : Prop :=
  len.hdrLenBytes < a.pdu.length ∧ readDataHeader len a.pdu = sn len a.count ∧ a.count < 2 ^ 32 ∧
    rxDeliv ≤ a.count + NrEntity.windowSize len ∧ a.count < rxDeliv + NrEntity.windowSize len ∧
    sec.integrityVerify a.count
      (sec.cipher a.count (extractMac stack (discardDataHeader len a.pdu)).1)
      (extractMac stack (discardDataHeader len a.pdu)).2 = true

instance (rxDeliv : ℕ) (a : NrPdu) : Decidable (a.Valid len sec stack rxDeliv) :=
  inferInstanceAs (Decidable (_ ∧ _ ∧ _ ∧ _ ∧ _ ∧ _))

/-- The receiver takes a PDU. -/
def NrReceiver.receive (r : NrReceiver) (a : NrPdu) : NrReceiver :=
  let (entity, sdus) := r.entity.writePdu len sec stack a.pdu
  ⟨entity, r.delivered ++ counts sdus⟩

/-- The timer of the receiver expires. -/
def NrReceiver.expire (r : NrReceiver) : NrReceiver :=
  let (entity, sdus) := r.entity.reorderingCallback
  ⟨entity, r.delivered ++ counts sdus⟩

/-- The runs of a receiver of valid PDUs, with any order of arrivals and expirations. -/
def nrSystem : System NrReceiver NrAction :=
  { Init := fun r => r = ⟨.init, []⟩
    step := fun r a =>
      match a with
      | .receive a =>
        if a.Valid len sec stack r.entity.rxDeliv then some (r.receive len sec stack a) else none
      | .expire => if r.entity.timerRunning then some r.expire else none }

end

/-- The delivered COUNTs increase up to `rx_deliv`, and the queue is not below it. -/
structure NrReceiver.InOrder (r : NrReceiver) : Prop where
  increasing : r.delivered.Pairwise (· < ·)
  below : ∀ c ∈ r.delivered, c < r.entity.rxDeliv
  queue : ∀ c ∈ counts r.entity.reorderQueue, r.entity.rxDeliv ≤ c

/-- The timer does not expire, and the last COUNT of all is not used. -/
def NoExpiry (_ : NrReceiver) : NrAction → Prop
  | .receive a => a.count + 1 < 2 ^ 32
  | .expire => False

instance (r : NrReceiver) (a : NrAction) : Decidable (NoExpiry r a) :=
  match a with
  | .receive a => inferInstanceAs (Decidable (a.count + 1 < 2 ^ 32))
  | .expire => isFalse id

/-- The invariant of the runs without expiration. -/
structure NrReceiver.Inv (r : NrReceiver) : Prop where
  inOrder : r.InOrder
  waiting : r.entity.Waiting

section

variable {len : SnLen} {sec : Security} {stack : List UInt8} {r : NrReceiver} {a : NrPdu}

/-- A valid PDU passes the checks with its true COUNT. -/
theorem NrPdu.Valid.writePdu_eq (h : a.Valid len sec stack e.rxDeliv) :
    e.writePdu len sec stack a.pdu =
      e.storePdu a.count
        (sec.cipher a.count (extractMac stack (discardDataHeader len a.pdu)).1) := by
  obtain ⟨hlong, hheader, hlt, hlow, hhigh, hvalid⟩ := h
  unfold NrEntity.writePdu
  rw [if_neg (Nat.not_le_of_lt hlong), hheader]
  dsimp only
  rw [NrEntity.rcvdCount_eq hlt hlow hhigh, hvalid]
  rfl

@[simp] theorem NrEntity.handleTimer_rxDeliv (e : NrEntity) :
    e.handleTimer.rxDeliv = e.rxDeliv := by
  rw [handleTimer, startTimer_rxDeliv]

theorem NrReceiver.Inv.append (h : r.Inv) (hge : r.entity.rxDeliv ≤ c)
    (hnew : c ∉ counts r.entity.reorderQueue) (hlt : c + 1 < 2 ^ 32)
    (hd : d.Consecutive r.entity.rxDeliv (r.entity.reorderQueue.orderedInsert (fun a b => a.1 ≤
      b.1) (c, pdu))) :
    NrReceiver.Inv
      ⟨NrEntity.handleTimer
        { r.entity with
            rxDeliv := d.rxDeliv
            rxOverflow := d.rxOverflow
            reorderQueue := d.queue
            rxNext := if r.entity.rxNext ≤ c then (c + 1) % 2 ^ 32 else r.entity.rxNext },
        r.delivered ++ counts d.sdus⟩ := by
  have hwaiting := h.waiting.store hge hnew hlt hd
  refine ⟨⟨?_, ?_, fun k hk => le_of_lt (hwaiting.above k hk)⟩, hwaiting⟩
  · rw [pairwise_append, hd.sdus]
    refine ⟨h.inOrder.increasing, pairwise_lt_range', ?_⟩
    intro x hx y hy
    have hlt' := h.inOrder.below x hx
    rw [mem_range'_1] at hy
    omega
  · intro k hk
    rw [NrEntity.handleTimer_rxDeliv]
    dsimp only
    rcases mem_append.mp hk with hk | hk
    · exact lt_of_lt_of_le (h.inOrder.below k hk) hd.le
    · rw [hd.sdus, mem_range'_1] at hk
      omega

theorem NrReceiver.Inv.receive (h : r.Inv) (ha : a.Valid len sec stack r.entity.rxDeliv)
    (hlt : a.count + 1 < 2 ^ 32) : (r.receive len sec stack a).Inv := by
  unfold NrReceiver.receive
  rw [ha.writePdu_eq]
  generalize sec.cipher a.count (extractMac stack (discardDataHeader len a.pdu)).1 = pdu
  have hsame : NrReceiver.Inv ⟨r.entity, r.delivered ++ counts []⟩ := by
    rw [counts, map_nil, append_nil]
    exact h
  unfold NrEntity.storePdu
  by_cases hold : a.count < r.entity.rxDeliv
  · rw [if_pos hold]
    exact hsame
  by_cases hnew : a.count ∈ counts r.entity.reorderQueue
  · rw [if_neg hold, if_pos hnew]
    exact hsame
  have hge := Nat.le_of_not_lt hold
  rw [if_neg hold, if_neg hnew]
  dsimp only
  have hkeys : ∀ k ∈ counts (r.entity.reorderQueue.orderedInsert (fun a b => a.1 ≤ b.1)
      (a.count, pdu)), r.entity.rxDeliv ≤ k ∧ k + 1 < 2 ^ 32 := by
    intro k hk
    rcases mem_counts_orderedInsert.mp hk with rfl | hk
    · omega
    have habove := h.waiting.above k hk
    have hbelow := h.waiting.below k hk
    have hnext := h.waiting.next_lt
    omega
  have hsorted := @sorted_orderedInsert a.count _ pdu h.waiting.sorted hnew
  by_cases hfirst : a.count = r.entity.rxDeliv
  · rw [if_pos hfirst]
    have hd := deliverConsecutive_spec hsorted hkeys
    rw [← h.waiting.rxOverflow] at hd
    exact h.append hge hnew hlt hd
  · rw [if_neg hfirst]
    -- the first missing COUNT is still missing, and nothing is delivered
    have hd : NrDelivery.Consecutive
        ⟨r.entity.rxDeliv, r.entity.rxOverflow,
          r.entity.reorderQueue.orderedInsert (fun a b => a.1 ≤ b.1) (a.count, pdu), []⟩
        r.entity.rxDeliv
        (r.entity.reorderQueue.orderedInsert (fun a b => a.1 ≤ b.1) (a.count, pdu)) := by
      refine ⟨rfl, le_rfl, by simp [counts], ?_, h.waiting.rxOverflow⟩
      intro k hk
      rcases mem_counts_orderedInsert.mp hk with rfl | hk
      · exact lt_of_le_of_ne hge (Ne.symm hfirst)
      · exact h.waiting.above k hk
    exact h.append hge hnew hlt hd

theorem deliverConsecutive_of_above {rxOverflow : Bool} (h : ∀ c ∈ counts queue, rxDeliv < c) :
    deliverConsecutive rxDeliv rxOverflow queue = ⟨rxDeliv, rxOverflow, queue, []⟩ := by
  cases queue with
  | nil => rfl
  | cons entry queue =>
    have hne : entry.1 ≠ rxDeliv := ne_of_gt (h entry.1 mem_cons_self)
    rw [deliverConsecutive, if_pos (.inl hne)]

/-- At an expiry a COUNT is delivered that `rx_deliv` does not exceed. -/
theorem NrReceiver.Inv.not_inOrder_expire (h : r.Inv) (hrunning : r.entity.timerRunning) :
    ¬ r.expire.InOrder := by
  obtain ⟨c, hc, hreord⟩ := h.waiting.timer hrunning
  intro hinOrder
  have hrest : ∀ k ∈ counts (r.entity.reorderQueue.dropWhile fun entry =>
        entry.1 < r.entity.rxReord),
      r.entity.rxDeliv < k := by
    intro k hk
    exact h.waiting.above k (((dropWhile_sublist _).map Prod.fst).mem hk)
  have hdeliv : r.expire.entity.rxDeliv = r.entity.rxDeliv := by
    unfold NrReceiver.expire NrEntity.reorderingCallback NrEntity.deliverAllConsecutiveCounts
    rw [NrEntity.startTimer_rxDeliv, deliverConsecutive_of_above hrest]
  -- the first COUNT in the queue is below `rx_reord`, and delivered
  cases hqueue : r.entity.reorderQueue with
  | nil =>
    rw [hqueue] at hc
    exact absurd hc (by simp [counts])
  | cons entry queue =>
    have hsorted := h.waiting.sorted
    have hfirst : entry.1 ∈ counts r.entity.reorderQueue := by
      rw [hqueue]
      exact mem_cons_self
    rw [hqueue] at hsorted hc
    have hsmall : entry.1 < r.entity.rxReord := by
      rcases mem_cons.mp hc with rfl | hc
      · omega
      · have hlt := (pairwise_cons.mp hsorted).1 c hc
        omega
    have hdelivered : entry.1 ∈ r.expire.delivered := by
      unfold NrReceiver.expire NrEntity.reorderingCallback
      rw [hqueue, takeWhile_cons_of_pos (by simpa using hsmall)]
      exact mem_append_right _ mem_cons_self
    have hbelow := hinOrder.below entry.1 hdelivered
    have habove := h.waiting.above entry.1 hfirst
    omega

end

/-- In every run in which the timer does not expire and the last COUNT of all is not used, the SDUs
are delivered in order and once, up to `rx_deliv`; as soon as the timer expires they are not. -/
theorem nr_delivery_in_order (len : SnLen) (sec : Security) (stack : List UInt8) {r : NrReceiver}
    (hr : ((nrSystem len sec stack).restrict NoExpiry).Reachable r) :
    r.InOrder ∧ (r.entity.timerRunning = true → ¬ r.expire.InOrder) := by
  have hinv : r.Inv := by
    refine hr.restrict_invariant NrReceiver.Inv ?_ ?_
    · rintro r rfl
      refine ⟨⟨List.Pairwise.nil, fun c hc => absurd hc (by simp), fun c hc => ?_⟩,
        NrEntity.waiting_init⟩
      exact absurd hc (by simp [NrEntity.init, counts])
    · rintro r a r' hinv hguard hstep
      cases a with
      | expire => exact absurd hguard id
      | receive a =>
        dsimp only [nrSystem] at hstep
        split at hstep
        · rename_i hvalid
          rw [← Option.some.inj hstep]
          exact hinv.receive hvalid hguard
        · cases hstep
  exact ⟨hinv.inOrder, hinv.not_inOrder_expire⟩

/-- The COUNTs 1 and 0 arrive, and are delivered in the other order. -/
theorem nr_delivery_in_order_two :
    ∃ r, ((nrSystem .len12 ⟨none, none⟩ []).restrict NoExpiry).Reachable r ∧ r.delivered = [0, 1] ∧
      r.InOrder := by
  have hinit : ((nrSystem .len12 ⟨none, none⟩ []).restrict NoExpiry).Init ⟨.init, []⟩ := rfl
  exact System.exists_reachable_and hinit
    [.receive ⟨1, [0x80, 0x01, 0x2A, 0, 0, 0, 0]⟩, .receive ⟨0, [0x80, 0x00, 0x2B, 0, 0, 0, 0]⟩]
    (by rfl) fun r hr _ => (nr_delivery_in_order _ _ _ hr).1

/-- The COUNT 1 arrives, the timer expires, and the COUNT 0 is delivered after the COUNT 1. -/
theorem nr_delivery_inverted :
    ∃ r, (nrSystem .len12 ⟨none, none⟩ []).Reachable r ∧ r.delivered = [1, 0] ∧ ¬ r.InOrder := by
  have hinit : (nrSystem .len12 ⟨none, none⟩ []).Init ⟨.init, []⟩ := rfl
  refine System.exists_reachable_and hinit
    [.receive ⟨1, [0x80, 0x01, 0x2A, 0, 0, 0, 0]⟩, .expire,
      .receive ⟨0, [0x80, 0x00, 0x2B, 0, 0, 0, 0]⟩] (by rfl) ?_
  intro r hr hdelivered hinOrder
  have hincreasing := hinOrder.increasing
  rw [hdelivered] at hincreasing
  exact absurd hincreasing (by decide)

end MbmsTx.Pdcp
