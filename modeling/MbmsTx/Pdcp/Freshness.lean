import MbmsTx.Pdcp.AmCount

/-!
# The COUNTs that SDUs are ciphered with

A data bearer over RLC AM gives every new SDU the next COUNT. At a handover a new entity takes over
the bearer state, and the unacknowledged SDUs are written to it again with their sequence numbers.
Their COUNT is then formed with the HFN of the entity: it is the one from before only if the HFN was
not incremented since the SDU was first written.

The runs record the number of each SDU among all SDUs, and the SDUs that were ciphered with their
COUNTs. But for the 32 bits of a COUNT the entity numbers its SDUs consecutively
(`LteState.txNumber`), and an SDU stays in the queue at most until its sequence number comes up
again, which `store_sdu` refuses (`Ledger.held`).
-/

namespace MbmsTx.Pdcp

open MbmsTx.Transition List Option Function Nat

/-! ## One SDU -/

namespace LteEntity

/-- The sequence number of an SDU. -/
def usedSn (e : LteEntity) (upperSn : Option ℕ) : ℕ := upperSn.getD e.st.nextPdcpTxSn

/-- The COUNT that `write_sdu` ciphers an SDU with. -/
def txCount (e : LteEntity) (cfg : Config) (upperSn : Option ℕ) : ℕ :=
  count cfg.snLen e.st.txHfn (e.usedSn upperSn)

def setBearerState (e : LteEntity) (cfg : Config) (state : LteState) (setFmc : Bool) : LteEntity :=
  { e with
      st := state
      fmc := if setFmc then count cfg.snLen state.rxHfn state.lastSubmittedPdcpRxSn else e.fmc }

@[simp] theorem checkSecurityTx_st (e : LteEntity) (c : ℕ) : (e.checkSecurityTx c).st = e.st := by
  unfold checkSecurityTx
  split
  · rfl
  · rfl

@[simp] theorem checkSecurityTx_undeliveredSdus (e : LteEntity) (c : ℕ) :
    (e.checkSecurityTx c).undeliveredSdus = e.undeliveredSdus := by
  unfold checkSecurityTx
  split
  · rfl
  · rfl

theorem writeSdu_cases {cfg : Config} (ham : cfg.isAmDrb) (sec : Security) (e : LteEntity)
    (sdu : ByteBuffer) (upperSn : Option ℕ) :
    e.writeSdu cfg sec sdu upperSn = (e, none) ∨
      ∃ e' pdu, e.writeSdu cfg sec sdu upperSn = (e', some pdu) ∧
        e.undeliveredSdus.storeSdu cfg.maximumAllocatedSnsWindow (e.usedSn upperSn) sdu.contents =
          some e'.undeliveredSdus ∧
        e'.st = (if upperSn = none then e.st.advanceTx cfg else e.st) := by
  unfold writeSdu
  dsimp only
  rw [ham, if_pos rfl]
  cases hstore : e.undeliveredSdus.storeSdu cfg.maximumAllocatedSnsWindow
      (upperSn.getD e.st.nextPdcpTxSn) sdu.contents with
  | none => simp
  | some queue => exact .inr ⟨_, _, rfl, by simp [usedSn, hstore], by simp⟩

end LteEntity

/-! ## Numbering -/

/-- The number of the next SDU: the next COUNT, not cut to 32 bits. -/
def LteState.txNumber (cfg : Config) (st : LteState) : ℕ :=
  st.txHfn * 2 ^ cfg.snLen.bits + st.nextPdcpTxSn

section

variable {cfg : Config} {st : LteState}

theorem lt_of_le_maximumPdcpSn {sn : ℕ} (h : sn ≤ cfg.maximumPdcpSn) : sn < 2 ^ cfg.snLen.bits := by
  have hpos := Nat.two_pow_pos cfg.snLen.bits
  unfold Config.maximumPdcpSn at h
  omega

theorem LteState.advanceTx_spec (h : st.nextPdcpTxSn ≤ cfg.maximumPdcpSn) :
    (st.advanceTx cfg).txNumber cfg = st.txNumber cfg + 1 ∧
      (st.advanceTx cfg).nextPdcpTxSn ≤ cfg.maximumPdcpSn := by
  have hpos := Nat.two_pow_pos cfg.snLen.bits
  unfold advanceTx
  split
  · rename_i hwrap
    refine ⟨?_, zero_le _⟩
    unfold txNumber Config.maximumPdcpSn at *
    dsimp only
    rw [add_mul]
    omega
  · rename_i hnot
    exact ⟨rfl, Nat.le_of_not_lt hnot⟩

theorem LteState.txNumber_mod (h : st.nextPdcpTxSn ≤ cfg.maximumPdcpSn) :
    st.txNumber cfg % 2 ^ cfg.snLen.bits = st.nextPdcpTxSn := by
  rw [txNumber, mul_add_mod_self_right, mod_eq_of_lt (lt_of_le_maximumPdcpSn h)]

end

/-! ## Runs -/

/-- A bearer. `forwarded` are the SDUs in the queue at the last handover, with their numbers among
all SDUs, and `handoverState` is the bearer state transferred. `ids` gives the SDU last stored with
a sequence number. `log` lists the ciphered SDUs and their COUNTs. -/
structure Bearer where
  entity : LteEntity
  handoverState : LteState
  forwarded : ℕ → Option (ℕ × List UInt8)
  ids : ℕ → ℕ
  nofSdus : ℕ
  log : List (ℕ × ℕ)

/-- A new SDU, a sequence number that was acknowledged or discarded, a handover, or an SDU that is
written again to the new entity. -/
inductive BearerAction
  | write (sdu : ByteBuffer)
  | clear (sn : ℕ)
  | handover
  | resubmit (sn : ℕ)

namespace Bearer

/-- A bearer with a new entity and a bearer state. -/
def init (cfg : Config) (state : LteState) : Bearer :=
  { entity := (LteEntity.init cfg).setBearerState cfg state true
    handoverState := state
    forwarded := fun _ => none
    ids := fun _ => 0
    nofSdus := 0
    log := [] }

/-- An SDU is written to the entity. -/
def submit (cfg : Config) (sec : Security) (s : Bearer) (id : ℕ) (sdu : ByteBuffer)
    (upperSn : Option ℕ) : Bearer :=
  match s.entity.writeSdu cfg sec sdu upperSn with
  | (e, none) => { s with entity := e }
  | (e, some _) =>
    { s with
        entity := e
        ids := Function.update s.ids (s.entity.usedSn upperSn) id
        log := s.log ++ [(id, s.entity.txCount cfg upperSn)] }

/-- The new entity has the old bearer state and an empty queue. -/
def handover (cfg : Config) (s : Bearer) : Bearer :=
  { s with
      entity := (LteEntity.init cfg).setBearerState cfg s.entity.st true
      handoverState := s.entity.st
      forwarded := fun sn => (s.entity.undeliveredSdus.get? sn).map fun bytes => (s.ids sn, bytes) }

end Bearer

/-- The runs of a bearer. -/
def bearerSystem (cfg : Config) (sec : Security) : System Bearer BearerAction :=
  { Init := fun s =>
      ∃ state : LteState, state.nextPdcpTxSn ≤ cfg.maximumPdcpSn ∧ s = .init cfg state
    step := fun s a =>
      match a with
      | .write sdu =>
        some ({ s with nofSdus := s.nofSdus + 1 }.submit cfg sec s.nofSdus sdu none)
      | .clear sn =>
        some { s with
          entity := { s.entity with undeliveredSdus := s.entity.undeliveredSdus.clearSdu sn } }
      | .handover => some (s.handover cfg)
      | .resubmit sn =>
        (s.forwarded sn).map fun (id, bytes) =>
          s.submit cfg sec id (.ofReceived (fun _ => 0) bytes) (some sn) }

/-- The ciphered SDUs and their COUNTs determine each other: an SDU always has the same COUNT, and
different SDUs have different ones. -/
def Bearer.Fresh (s : Bearer) : Prop := ∀ x ∈ s.log, ∀ y ∈ s.log, x.1 = y.1 ↔ x.2 = y.2

/-- Whether an SDU may be written again: its sequence number is below the next one of the
transferred bearer state, and the HFN was not incremented since. -/
def SameHfn (s : Bearer) : BearerAction → Prop
  | .resubmit sn =>
    sn < s.handoverState.nextPdcpTxSn ∧ s.entity.st.txHfn = s.handoverState.txHfn
  | _ => True

instance (s : Bearer) : (a : BearerAction) → Decidable (SameHfn s a)
  | .resubmit _ => inferInstanceAs (Decidable (_ ∧ _))
  | .write _ | .clear _ | .handover => isTrue trivial

/-! ## The invariant -/

/-- An SDU with this number waits under `sn` in the queue of an entity in state `st`. -/
structure Waits (cfg : Config) (st : LteState) (sn number : ℕ) : Prop where
  sn_eq : number % 2 ^ cfg.snLen.bits = sn
  lt : number < st.txNumber cfg
  le : st.txNumber cfg ≤ number + 2 ^ cfg.snLen.bits

/-- `number` gives the ciphered SDUs different numbers from `start` on, whose low 32 bits are the
COUNTs. -/
structure Bearer.Ledger (cfg : Config) (start : ℕ) (number : ℕ → ℕ) (s : Bearer) : Prop where
  wellFormed : s.entity.undeliveredSdus.WellFormed
  next_le : s.entity.st.nextPdcpTxSn ≤ cfg.maximumPdcpSn
  start_le : start ≤ s.entity.st.txNumber cfg
  upto : s.entity.st.txNumber cfg ≤ start + s.nofSdus
  log : ∀ x ∈ s.log, x.1 < s.nofSdus ∧ x.2 = number x.1 % 2 ^ 32 ∧ start ≤ number x.1 ∧
    number x.1 < s.entity.st.txNumber cfg
  injective : ∀ x ∈ s.log, ∀ y ∈ s.log, number x.1 = number y.1 → x.1 = y.1
  held : ∀ {i : ℕ} {entry : ℕ × List UInt8}, s.entity.undeliveredSdus.slots i = some entry →
    (∃ c, (s.ids entry.1, c) ∈ s.log) ∧ Waits cfg s.entity.st entry.1 (number (s.ids entry.1))
  forwarded : ∀ {sn : ℕ} {entry : ℕ × List UInt8}, s.forwarded sn = some entry →
    (∃ c, (entry.1, c) ∈ s.log) ∧ Waits cfg s.handoverState sn (number entry.1)
  handover_next_le : s.handoverState.nextPdcpTxSn ≤ cfg.maximumPdcpSn

section

variable {cfg : Config} {sec : Security} {start : ℕ} {number : ℕ → ℕ} {s : Bearer}

theorem Bearer.ledger_init {state : LteState} (h : state.nextPdcpTxSn ≤ cfg.maximumPdcpSn) :
    (Bearer.init cfg state).Ledger cfg (state.txNumber cfg) (fun _ => 0) := by
  refine ⟨UndeliveredSdus.wellFormed_init, h, le_rfl, le_rfl, ?_, ?_, ?_, ?_, h⟩
  · intro x hx
    exact absurd hx (by simp [Bearer.init])
  · intro x hx
    exact absurd hx (by simp [Bearer.init])
  · intro i entry hentry
    exact absurd hentry (by
      simp [Bearer.init, LteEntity.setBearerState, LteEntity.init, UndeliveredSdus.init])
  · intro sn entry hentry
    exact absurd hentry (by simp [Bearer.init])

theorem Waits.eq_of_lt {st : LteState} {sn n : ℕ} (h : Waits cfg st sn n)
    (hnext : st.nextPdcpTxSn ≤ cfg.maximumPdcpSn) (hsn : sn < st.nextPdcpTxSn) :
    n = st.txHfn * 2 ^ cfg.snLen.bits + sn := by
  obtain ⟨hmod, hlt, hle⟩ := h
  unfold LteState.txNumber at hlt hle
  unfold Config.maximumPdcpSn at hnext
  generalize 2 ^ cfg.snLen.bits = m at *
  have hdecomp := div_add_mod n m
  rw [hmod] at hdecomp
  -- the quotient is the HFN, since both numbers are less than `m` behind the next one
  have hup : m * (n / m) < m * (st.txHfn + 1) := by
    rw [mul_add, mul_comm m st.txHfn]
    omega
  have hdown : m * st.txHfn < m * (n / m + 1) := by
    rw [mul_add, mul_comm m st.txHfn]
    omega
  have hhfn : n / m = st.txHfn := by
    have hle₁ := Nat.lt_of_mul_lt_mul_left hup
    have hle₂ := Nat.lt_of_mul_lt_mul_left hdown
    omega
  rw [← hhfn, mul_comm]
  omega

/-- An SDU that waits is not in the way of the next one: that is not yet the next SDU with its
sequence number. -/
theorem Waits.advanceTx {st : LteState} {sn n : ℕ} (h : Waits cfg st sn n)
    (hnext : st.nextPdcpTxSn ≤ cfg.maximumPdcpSn) (hne : sn ≠ st.nextPdcpTxSn) :
    Waits cfg (st.advanceTx cfg) sn n := by
  obtain ⟨hmod, hlt, hle⟩ := h
  obtain ⟨hsucc, -⟩ := LteState.advanceTx_spec hnext
  refine ⟨hmod, by omega, ?_⟩
  have hne' : st.txNumber cfg ≠ n + 2 ^ cfg.snLen.bits := by
    intro heq
    have hcurrent := LteState.txNumber_mod hnext
    rw [heq, add_mod_right, hmod] at hcurrent
    omega
  omega

theorem slots_cases_of_storeSdu {q q' : UndeliveredSdus (List UInt8)} (hq : q.WellFormed)
    {window sn : ℕ} {sdu : List UInt8} (h : q.storeSdu window sn sdu = some q') {i : ℕ}
    {entry : ℕ × List UInt8} (hentry : q'.slots i = some entry) :
    entry = (sn, sdu) ∨ q.slots i = some entry ∧ entry.1 ≠ sn := by
  rw [UndeliveredSdus.slots_of_storeSdu h] at hentry
  dsimp only at hentry
  split at hentry
  · exact .inl (some.inj hentry).symm
  refine .inr ⟨hentry, ?_⟩
  rintro rfl
  have hhas : q.hasSdu entry.1 :=
    UndeliveredSdus.hasSdu_iff.mpr ⟨entry.2, by rw [hq hentry, hentry]⟩
  rw [UndeliveredSdus.storeSdu, if_pos hhas] at h
  cases h

/-- The entity has stored an SDU under `sn` and ciphered it with the COUNT of its number. -/
theorem Bearer.Ledger.submitted {number' : ℕ → ℕ} {e : LteEntity} {window sn id n c : ℕ}
    {bytes : List UInt8} (h : s.Ledger cfg start number)
    (hstore : s.entity.undeliveredSdus.storeSdu window sn bytes = some e.undeliveredSdus)
    (hnumber : ∀ x ∈ s.log, number' x.1 = number x.1) (hn : s.nofSdus ≤ n) (hid : id < n)
    (hnext : e.st.nextPdcpTxSn ≤ cfg.maximumPdcpSn)
    (hmono : s.entity.st.txNumber cfg ≤ e.st.txNumber cfg) (hupto : e.st.txNumber cfg ≤ start + n)
    (hkept : ∀ sn' m, sn' ≠ sn → Waits cfg s.entity.st sn' m → Waits cfg e.st sn' m)
    (hge : start ≤ number' id) (hwaits : Waits cfg e.st sn (number' id))
    (hinj : ∀ x ∈ s.log, number x.1 = number' id → x.1 = id) (hc : c = number' id % 2 ^ 32) :
    Bearer.Ledger cfg start number' { s with
      entity := e, ids := update s.ids sn id, nofSdus := n, log := s.log ++ [(id, c)] } := by
  have hlogged : ∀ {x}, x ∈ s.log ++ [(id, c)] → x ∈ s.log ∨ x = (id, c) := by
    simp
  refine ⟨UndeliveredSdus.WellFormed.storeSdu h.wellFormed hstore, hnext, h.start_le.trans hmono,
    hupto, ?_, ?_, ?_, ?_, h.handover_next_le⟩
  · intro x hx
    rcases hlogged hx with hx | rfl
    · obtain ⟨hlt, hcount, hge, hbelow⟩ := h.log x hx
      rw [hnumber x hx]
      exact ⟨hlt.trans_le hn, hcount, hge, hbelow.trans_le hmono⟩
    · exact ⟨hid, hc, hge, hwaits.lt⟩
  · intro x hx y hy heq
    rcases hlogged hx with hx | rfl <;> rcases hlogged hy with hy | rfl
    · rw [hnumber x hx, hnumber y hy] at heq
      exact h.injective x hx y hy heq
    · rw [hnumber x hx] at heq
      exact hinj x hx heq
    · rw [hnumber y hy] at heq
      exact (hinj y hy heq.symm).symm
    · rfl
  · intro i entry hentry
    dsimp only
    rcases slots_cases_of_storeSdu h.wellFormed hstore hentry with rfl | ⟨hold, hne⟩
    · rw [update_self]
      exact ⟨⟨c, mem_append_right _ mem_cons_self⟩, hwaits⟩
    · obtain ⟨⟨c', hmem⟩, hwaits⟩ := h.held hold
      rw [update_of_ne hne, hnumber _ hmem]
      exact ⟨⟨c', mem_append_left _ hmem⟩, hkept _ _ hne hwaits⟩
  · intro sn' entry hentry
    obtain ⟨⟨c', hmem⟩, hwaits⟩ := h.forwarded hentry
    rw [hnumber _ hmem]
    exact ⟨⟨c', mem_append_left _ hmem⟩, hwaits⟩

theorem Bearer.Ledger.write (h : s.Ledger cfg start number) (ham : cfg.isAmDrb) (sdu : ByteBuffer) :
    ∃ number', ({ s with nofSdus := s.nofSdus + 1 }.submit cfg sec s.nofSdus sdu none).Ledger
      cfg start number' := by
  unfold Bearer.submit
  rcases s.entity.writeSdu_cases ham sec sdu none with hdrop | ⟨e, pdu, hwrite, hstore, hst⟩
  · rw [hdrop]
    refine ⟨number, { h with upto := le_succ_of_le h.upto, log := fun x hx => ?_ }⟩
    obtain ⟨hid, hrest⟩ := h.log x hx
    exact ⟨lt_succ_of_lt hid, hrest⟩
  · rw [hwrite]
    rw [if_pos rfl] at hst
    obtain ⟨hsucc, hnext⟩ := LteState.advanceTx_spec h.next_le
    rw [← hst] at hsucc hnext
    have hupto := h.upto
    have hpos := Nat.two_pow_pos cfg.snLen.bits
    -- the new SDU has the next number, and the numbers of the others stay
    have hnew : Function.update number s.nofSdus (s.entity.st.txNumber cfg) s.nofSdus =
        s.entity.st.txNumber cfg := update_self ..
    refine ⟨Function.update number s.nofSdus (s.entity.st.txNumber cfg), h.submitted hstore
      (fun x hx => update_of_ne (Nat.ne_of_lt (h.log x hx).1) ..) (le_succ _) (lt_succ_self _) hnext
      (by omega) (by dsimp only; omega) (fun sn' m hne hwaits => ?_) ?_ ?_ (fun x hx heq => ?_) ?_⟩
    · rw [hst]
      exact hwaits.advanceTx h.next_le hne
    · rw [hnew]
      exact h.start_le
    · rw [hnew]
      exact ⟨LteState.txNumber_mod h.next_le, by omega, by omega⟩
    · rw [hnew] at heq
      exact absurd heq (Nat.ne_of_lt (h.log x hx).2.2.2)
    · rw [hnew]
      exact count_eq (lt_of_le_maximumPdcpSn h.next_le)

theorem Bearer.Ledger.resubmit (h : s.Ledger cfg start number) (ham : cfg.isAmDrb)
    {sn id : ℕ} {bytes : List UInt8} (hforwarded : s.forwarded sn = some (id, bytes))
    (hsame : SameHfn s (.resubmit sn)) (sdu : ByteBuffer) :
    (s.submit cfg sec id sdu (some sn)).Ledger cfg start number := by
  unfold Bearer.submit
  rcases s.entity.writeSdu_cases ham sec sdu (some sn) with hdrop | ⟨e, pdu, hwrite, hstore, hst⟩
  · rw [hdrop]
    exact { h with }
  rw [hwrite]
  rw [if_neg (by simp)] at hst
  obtain ⟨hbelow, hhfn⟩ := hsame
  obtain ⟨⟨c, hmem⟩, hwaits⟩ := h.forwarded hforwarded
  obtain ⟨hid, -, hge, hlt⟩ := h.log _ hmem
  have hnumber : number id = s.entity.st.txHfn * 2 ^ cfg.snLen.bits + sn := by
    rw [hhfn]
    exact hwaits.eq_of_lt h.handover_next_le hbelow
  have hsn : sn < 2 ^ cfg.snLen.bits := by
    rw [← hwaits.sn_eq]
    omega
  -- the SDU was first written under the HFN that the entity still has
  have hagain : Waits cfg e.st sn (number id) := by
    have hnext := lt_of_le_maximumPdcpSn h.next_le
    rw [hst]
    refine ⟨hwaits.sn_eq, hlt, ?_⟩
    rw [hnumber, LteState.txNumber]
    omega
  refine h.submitted hstore (fun _ _ => rfl) le_rfl hid (hst ▸ h.next_le) (by rw [hst])
    (hst ▸ h.upto) (fun _ _ _ hheld => hst ▸ hheld) hge hagain
    (fun x hx heq => h.injective x hx _ hmem heq) ?_
  rw [hnumber]
  exact count_eq hsn

theorem Bearer.Ledger.clear (h : s.Ledger cfg start number) (sn : ℕ) :
    { s with entity := { s.entity with
      undeliveredSdus := s.entity.undeliveredSdus.clearSdu sn } }.Ledger cfg start number := by
  refine { h with wellFormed := UndeliveredSdus.WellFormed.clearSdu h.wellFormed sn, held := ?_ }
  intro i entry hentry
  rw [UndeliveredSdus.WellFormed.slots_clearSdu h.wellFormed] at hentry
  exact h.held (filter_eq_some_iff.mp hentry).1

theorem UndeliveredSdus.slots_of_get? {q : UndeliveredSdus (List UInt8)} {sn : ℕ}
    {bytes : List UInt8} (h : q.get? sn = some bytes) :
    q.slots (sn % capacity) = some (sn, bytes) := by
  obtain ⟨⟨key, value⟩, hslot, hkey⟩ := bind_eq_some_iff.mp h
  simp only [ite_none_right_eq_some, some.injEq] at hkey
  rw [hslot, hkey.1, hkey.2]

theorem Bearer.Ledger.handover (h : s.Ledger cfg start number) :
    (s.handover cfg).Ledger cfg start number := by
  refine ⟨UndeliveredSdus.wellFormed_init, h.next_le, h.start_le, h.upto, h.log, h.injective, ?_,
    ?_, h.next_le⟩
  · intro i entry hentry
    exact absurd hentry (by
      simp [Bearer.handover, LteEntity.setBearerState, LteEntity.init, UndeliveredSdus.init])
  · intro sn entry hentry
    obtain ⟨bytes, hget, rfl⟩ := map_eq_some_iff.mp hentry
    exact h.held (UndeliveredSdus.slots_of_get? hget)

theorem Bearer.Ledger.fresh (h : s.Ledger cfg start number) (hfew : s.nofSdus < 2 ^ 31) :
    s.Fresh := by
  intro x hx y hy
  obtain ⟨-, hcx, hgex, hltx⟩ := h.log x hx
  obtain ⟨-, hcy, hgey, hlty⟩ := h.log y hy
  have hupto := h.upto
  constructor
  · intro hid
    rw [hcx, hcy, hid]
  · intro hc
    rw [hcx, hcy] at hc
    exact h.injective x hx y hy (by omega)

end

/-- A bearer whose first SDU has the sequence number 4094. -/
def lateState : LteState := ⟨4094, 0, 0, 0, 4095⟩

end MbmsTx.Pdcp
