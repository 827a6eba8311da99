import MbmsTx.Pdcp.Lte

/-!
# A pair of LTE PDCP entities

The PDUs of one entity are given to its peer, in order and without loss. The peer takes a header off
every PDU that the transmitter never wrote: what it passes up is always shorter than the SDU, so the
two agree only as long as nothing is sent.
-/

namespace MbmsTx.Pdcp

open List

/-- A transmitting entity and its peer. -/
structure Pair where
  tx : LteEntity
  rx : LteEntity

section

variable (cfg : Config) (sec : Security) (stack : List UInt8)

/-- An SDU is written, and the PDU given to the peer: the SDU that arrives. -/
def Pair.transfer (l : Pair) (sdu : ByteBuffer) : Pair × Option (List UInt8) :=
  match l.tx.writeSdu cfg sec sdu none with
  | (tx, none) => ({ l with tx := tx }, none)
  | (tx, some pdu) =>
    let (rx, arrived) := l.rx.writePdu cfg sec stack pdu
    (⟨tx, rx⟩, arrived)

/-- A sequence of SDUs: those that arrive. -/
def Pair.transferAll : Pair → List ByteBuffer → Pair × List (List UInt8)
  | l, [] => (l, [])
  | l, sdu :: sdus =>
    let (l, arrived) := l.transfer cfg sec stack sdu
    let (l, rest) := l.transferAll sdus
    (l, arrived.toList ++ rest)

/-- The receiver expects the next HFN and sequence number of the transmitter. -/
def Pair.InSync (l : Pair) : Prop :=
  l.rx.st.rxHfn = l.tx.st.txHfn ∧ l.rx.st.nextPdcpRxSn = l.tx.st.nextPdcpTxSn

/-- The SDUs arrive as written, and the entities are in sync. -/
def Pair.Agrees (l : Pair) (sdus : List ByteBuffer) : Prop :=
  (l.transferAll cfg sec stack sdus).2 = sdus.map ByteBuffer.contents ∧
    (l.transferAll cfg sec stack sdus).1.InSync

end

section

variable {cfg : Config} {sec : Security} {stack : List UInt8}

theorem length_take_append_cipher (count k : ℕ) (msg : List UInt8) :
    (msg.take k ++ sec.cipher count (msg.drop k)).length = msg.length := by
  rw [length_append, Security.length_cipher, ← length_append, take_append_drop]

/-- The PDU of an SDU: only a signalling bearer adds to it. -/
theorem LteEntity.length_buildPdu (e : LteEntity) (sdu : ByteBuffer) (txCount : ℕ) :
    (e.buildPdu cfg sec sdu txCount).length = sdu.nBytes ∨
      cfg.rbType = .srb ∧ (e.buildPdu cfg sec sdu txCount).length = sdu.nBytes + 4 := by
  have hcipher : ∀ msg : List UInt8,
      (if e.encryptionDirection.hasTx then
        msg.take cfg.snLen.hdrLenBytes ++ sec.cipher txCount (msg.drop cfg.snLen.hdrLenBytes)
      else msg).length = msg.length := by
    intro msg
    split
    · exact length_take_append_cipher _ _ _
    · rfl
  unfold buildPdu
  rw [hcipher]
  cases htype : cfg.rbType with
  | drb => simp
  | srb =>
    rw [if_pos rfl, appendMac]
    split
    · simp
    · refine .inr ⟨rfl, ?_⟩
      rw [length_append, ByteBuffer.length_contents]
      split <;> simp

variable {e : LteEntity} {pdu sdu : List UInt8}

/-- What `handle_srb_pdu` passes on: the PDU without its header and, if it is long enough, its code.
-/
theorem LteEntity.length_of_handleSrbPdu (h : (e.handleSrbPdu cfg sec stack pdu).2 = some sdu) :
    sdu.length + cfg.snLen.hdrLenBytes = if pdu.length < 4 then pdu.length else pdu.length - 4 := by
  unfold handleSrbPdu at h
  dsimp only at h
  generalize hplain : (if e.encryptionDirection.hasRx then _ else pdu) = plain at h
  have hlen : plain.length = pdu.length := by
    rw [← hplain]
    split
    · exact length_take_append_cipher _ _ _
    · rfl
  have hrest : (extractMac stack plain).1.length =
      if pdu.length < 4 then pdu.length else pdu.length - 4 := by
    unfold extractMac
    rw [hlen]
    split
    · exact hlen
    · rw [length_take, hlen]
      omega
  split at h
  · cases h
  split at h
  · cases h
  · rename_i hshort
    rw [← Option.some.inj h, discardDataHeader, length_drop, ← hrest]
    omega

theorem LteEntity.length_of_handleDrbPdu
    (h : (if cfg.rbIsUm then e.handleUmDrbPdu cfg sec pdu else e.handleAmDrbPdu cfg sec pdu).2 =
      some sdu) : sdu.length = pdu.length - cfg.snLen.hdrLenBytes := by
  split at h
  · unfold handleUmDrbPdu at h
    rw [← Option.some.inj h]
    split
    · rw [Security.length_cipher, discardDataHeader, length_drop]
    · rw [discardDataHeader, length_drop]
  · unfold handleAmDrbPdu at h
    dsimp only at h
    split at h
    · cases h
    · rw [← Option.some.inj h, Security.length_cipher, discardDataHeader, length_drop]

/-- What is passed on is shorter than the PDU by the header, and on a signalling bearer by the code.
-/
theorem LteEntity.length_of_writePdu (h : (e.writePdu cfg sec stack pdu).2 = some sdu) :
    sdu.length + cfg.snLen.hdrLenBytes ≤ pdu.length ∧
      (cfg.rbType = .srb → 4 ≤ pdu.length →
        sdu.length + cfg.snLen.hdrLenBytes + 4 ≤ pdu.length) := by
  unfold writePdu at h
  split at h
  · cases h
  split at h
  · cases h
  split at h
  · cases h
  cases htype : cfg.rbType with
  | srb =>
    rw [htype] at h
    have hlen := length_of_handleSrbPdu h
    refine ⟨?_, fun _ hfour => ?_⟩
    · split at hlen <;> omega
    · rw [if_neg (by omega)] at hlen
      omega
  | drb =>
    rw [htype] at h
    have hlen := length_of_handleDrbPdu h
    exact ⟨by omega, fun hsrb => absurd hsrb (by decide)⟩

theorem Pair.length_of_transfer {l : Pair} {sdu : ByteBuffer} {arrived : List UInt8}
    (h : (l.transfer cfg sec stack sdu).2 = some arrived) : arrived.length < sdu.nBytes := by
  have hpos : 0 < cfg.snLen.hdrLenBytes := by cases cfg.snLen <;> decide
  unfold Pair.transfer LteEntity.writeSdu at h
  dsimp only at h
  split at h
  · cases h
  rename_i tx pdu hwrite
  split at hwrite
  · cases hwrite
  have hpdu := Option.some.inj (Prod.mk.inj hwrite).2
  obtain ⟨hheader, hcode⟩ := LteEntity.length_of_writePdu h
  rw [← hpdu] at hheader hcode
  rcases LteEntity.length_buildPdu _ sdu _ with hlen | ⟨hsrb, hlen⟩
  · rw [hlen] at hheader
    omega
  · rw [hlen] at hcode
    have hle := hcode hsrb (by omega)
    omega

theorem Pair.forall₂_of_transferAll (l : Pair) (sdus : List ByteBuffer) :
    (l.transferAll cfg sec stack sdus).2.length < sdus.length ∨
      Forall₂ (fun arrived sdu => arrived.length < sdu.nBytes)
        (l.transferAll cfg sec stack sdus).2 sdus := by
  induction sdus generalizing l with
  | nil => exact .inr .nil
  | cons sdu sdus ih =>
    rcases htransfer : l.transfer cfg sec stack sdu with ⟨l', arrived⟩
    have hall : (l.transferAll cfg sec stack (sdu :: sdus)).2 =
        arrived.toList ++ (l'.transferAll cfg sec stack sdus).2 := by
      rw [Pair.transferAll, htransfer]
    rw [hall]
    cases arrived with
    | none =>
      -- nothing arrives for this SDU, and at most one SDU for each of the others
      refine .inl (Nat.lt_succ_of_le ?_)
      rcases ih l' with hless | hall₂
      · exact le_of_lt hless
      · exact le_of_eq hall₂.length_eq
    | some bytes =>
      have hshort : bytes.length < sdu.nBytes := Pair.length_of_transfer (by rw [htransfer])
      rcases ih l' with hless | hall₂
      · exact .inl (Nat.succ_lt_succ hless)
      · exact .inr (.cons hshort hall₂)

theorem Pair.transferAll_ne (l : Pair) (sdu : ByteBuffer) (sdus : List ByteBuffer) :
    (l.transferAll cfg sec stack (sdu :: sdus)).2 ≠ (sdu :: sdus).map ByteBuffer.contents := by
  intro h
  rcases @Pair.forall₂_of_transferAll cfg sec stack l (sdu :: sdus) with hless | hall₂
  · rw [h, length_map] at hless
    omega
  rw [h] at hall₂
  obtain ⟨hlt, -⟩ := forall₂_cons.mp hall₂
  rw [ByteBuffer.length_contents] at hlt
  omega

end

/-- For a pair of entities with the same keys, in sync, the SDUs arrive exactly if there are none.
-/
theorem Pair.agrees_iff (cfg : Config) (sec : Security) (stack : List UInt8) (l : Pair)
    (hsync : l.InSync) (sdus : List ByteBuffer) :
    l.Agrees cfg sec stack sdus ↔ sdus = [] := by
  constructor
  · rintro ⟨harrived, -⟩
    cases sdus with
    | nil => rfl
    | cons sdu sdus => exact absurd harrived (l.transferAll_ne sdu sdus)
  · rintro rfl
    exact ⟨rfl, hsync⟩

/-- A data bearer over RLC UM with sequence numbers of 12 bits. -/
def umDrb : Config := ⟨.len12, .drb, true, false⟩

/-- Two entities that were just configured. -/
def Pair.init (cfg : Config) : Pair := ⟨.init cfg, .init cfg⟩

/-- Not even a single SDU arrives as written. -/
theorem Pair.not_agrees_init_singleton : (Pair.init umDrb).InSync ∧
      ¬ (Pair.init umDrb).Agrees umDrb ⟨none, none⟩ []
        [.ofReceived (fun _ => 0) [0x80, 0x01, 0x02, 0x03]] :=
  ⟨⟨rfl, rfl⟩, fun h =>
    absurd ((Pair.agrees_iff umDrb ⟨none, none⟩ [] (Pair.init umDrb) ⟨rfl, rfl⟩ _).mp h)
      (cons_ne_nil _ _)⟩

/-- The first byte of an IPv4 packet is taken for a control PDU, and the packet is lost. -/
theorem Pair.transfer_ipv4_lost : umDrb.checkValidConfig = true ∧ (Pair.init umDrb).InSync ∧
      ((Pair.init umDrb).transferAll umDrb ⟨none, none⟩ []
        [.ofReceived (fun _ => 0) [0x45, 0x00, 0x00, 0x14]]).2 = [] ∧
      ¬ (Pair.init umDrb).Agrees umDrb ⟨none, none⟩ []
        [.ofReceived (fun _ => 0) [0x45, 0x00, 0x00, 0x14]] := by
  have hlost : ((Pair.init umDrb).transferAll umDrb ⟨none, none⟩ []
      [.ofReceived (fun _ => 0) [0x45, 0x00, 0x00, 0x14]]).2 = [] := by rfl
  refine ⟨by decide, ⟨rfl, rfl⟩, hlost, ?_⟩
  rintro ⟨harrived, -⟩
  rw [hlost] at harrived
  cases harrived

end MbmsTx.Pdcp
