import MbmsTx.Lib.Framing
import MbmsTx.Rlc.Am.Rx
import MbmsTx.Rlc.Um.Header

/-!
# The UM transmitter

`build_data_pdu` fills a PDU with the rest of the SDU being sent and with SDUs from the queue, as
far as the grant has room for their bytes and length indicators. The PDUs are frames of the SDUs
written.
-/

namespace MbmsTx.Rlc.Um

open List

open MbmsTx.Rlc.Am (Fi tailroom maxLis)

/-- `rlc_um_lte_tx`: the next SN, the SDU that is being sent, and the queue; and whether a length
indicator was written behind the end of `header.li`. -/
structure Tx where
  cfg : UmConfig
  vtUs : ℕ := 0
  txSdu : Option (List UInt8) := none
  txSduQueue : List (List UInt8) := []
  liOutside : Bool := false

namespace Tx

/-- The variables of `build_data_pdu`. -/
structure Fill where
  headLen : ℕ
  pduSpace : ℕ
  lastLi : ℕ := 0
  nLi : ℕ := 0
  li : List ℕ := []
  data : List UInt8 := []
  txSdu : Option (List UInt8)
  liOutside : Bool := false

/-- How many bytes of an SDU fit into the PDU. -/
def toMove (f : Fill) (sdu : List UInt8) : ℕ :=
  let space := f.pduSpace - f.headLen
  if sdu.length ≤ space then sdu.length else space

/-- Copy what fits of an SDU; a finished one is released. -/
def Fill.move (f : Fill) (sdu : List UInt8) : Fill :=
  { f with
      data := f.data ++ sdu.take (toMove f sdu)
      lastLi := toMove f sdu
      txSdu := if sdu.length - toMove f sdu = 0 then none else some (sdu.drop (toMove f sdu)) }

/-- The loop that pulls SDUs from the queue. -/
def Fill.pull (snSize : SnSize) : List (List UInt8) → Fill → Fill × List (List UInt8)
  | [], f => (f, [])
  | sdu :: queue, f =>
    if f.headLen + 1 < f.pduSpace then
      let li := if 0 < f.lastLi then f.li ++ [f.lastLi] else f.li
      let nLi := if 0 < f.lastLi then f.nLi + 1 else f.nLi
      -- the size of the array is not tested
      let f := { f with liOutside := f.liOutside || maxLis < nLi }
      let headLen := packedLengthOf snSize nLi
      -- not even a byte of the SDU fits behind the new length indicator
      if f.pduSpace - headLen = 0 then
        ({ f with nLi := nLi - 1, li := li.dropLast, headLen := headLen }, sdu :: queue)
      else
        let f := { f with nLi := nLi, li := li, headLen := headLen }
        Fill.pull snSize queue { f.move sdu with pduSpace := f.pduSpace - toMove f sdu }
    else (f, sdu :: queue)

/-- The PDU before SDUs are pulled: the rest of the SDU that is being sent. -/
def fillInit (s : Tx) (pduSpace : ℕ) : Fill :=
  let f : Fill :=
    { headLen := packedLengthOf s.cfg.txSnFieldLength 0, pduSpace := pduSpace, txSdu := s.txSdu }
  match s.txSdu with
  | none => f
  | some sdu =>
    let g := f.move sdu
    { g with pduSpace := f.pduSpace - min (toMove f sdu) (tailroom g.data.length) }

/-- The header of the PDU that was filled. -/
def headerOf (s : Tx) (f : Fill) : UmdHeader :=
  { fi := ⟨s.txSdu.isSome, f.txSdu.isSome⟩
    snSize := s.cfg.txSnFieldLength
    sn := s.vtUs
    li := f.li }

/-- `build_data_pdu`: the bytes of the PDU, or nothing without data or room. -/
def buildDataPdu (s : Tx) (nofBytes : ℕ) : Tx × Option (List UInt8) :=
  let pduSpace := min nofBytes (tailroom 0)
  if s.txSdu.isNone && s.txSduQueue.isEmpty then (s, none)
  else if pduSpace ≤ packedLengthOf s.cfg.txSnFieldLength 0 + 1 then (s, none)
  else
    let (f, queue) := (s.fillInit pduSpace).pull s.cfg.txSnFieldLength s.txSduQueue
    ({ s with
        vtUs := (s.vtUs + 1) % s.cfg.txMod
        txSdu := f.txSdu
        txSduQueue := queue
        liOutside := s.liOutside || f.liOutside },
      some (writeDataPduHeader (s.headerOf f) ++ f.data))

/-- `write_sdu`, for an SDU that the queue has room for. -/
def writeSdu (s : Tx) (sdu : List UInt8) : Tx := { s with txSduQueue := s.txSduQueue ++ [sdu] }

/-- What is left to be sent: the rest of an SDU, and the queue. -/
def pending (s : Tx) : List (List UInt8) := s.txSdu.toList ++ s.txSduQueue

/-! ## The pieces in a PDU -/

/-- SDUs that can be sent: not empty, and within a length indicator. -/
def Sendable (msgs : List (List UInt8)) : Prop := ∀ msg ∈ msgs, msg ≠ [] ∧ msg.length ≤ 2047

variable {snSize : SnSize} {todo pieces queue : List (List UInt8)} {f : Fill} {sdu : List UInt8}

/-- The PDU holds the pieces. As long as there is room, no SDU is cut. -/
structure Fill.Carries (snSize : SnSize) (todo pieces queue : List (List UInt8)) (f : Fill) :
    Prop extends Filling todo pieces f.data f.li f.lastLi f.txSdu queue where
  nLi_eq : f.nLi = f.li.length
  headLen_ge : packedLengthOf snSize f.nLi ≤ f.headLen
  uncut : f.headLen < f.pduSpace → f.txSdu = none
  inside : pieces.length ≤ maxLis → f.liOutside = false

theorem toMove_le (f : Fill) (sdu : List UInt8) :
    toMove f sdu ≤ sdu.length ∧ toMove f sdu ≤ f.pduSpace - f.headLen ∧
      (toMove f sdu = sdu.length ∨ toMove f sdu = f.pduSpace - f.headLen) := by
  unfold toMove
  dsimp only
  split
  · omega
  omega

theorem Fill.Carries.of_move {pduSpace : ℕ} (hdata : f.data = pieces.flatten)
    (hne : ∀ piece ∈ pieces, piece ≠ []) (hli : f.li = pieces.map List.length)
    (hnLi : f.nLi = f.li.length) (hhead : packedLengthOf snSize f.nLi ≤ f.headLen) (hsdu : sdu ≠ [])
    (hroom : f.headLen < f.pduSpace) (hspace : pduSpace = f.pduSpace - toMove f sdu)
    (htodo : todo = pieces ++ sdu :: queue)
    (hinside : pieces.length ≤ maxLis → f.liOutside = false) :
    Fill.Carries snSize todo (pieces ++ [sdu.take (toMove f sdu)]) queue
      { f.move sdu with pduSpace := pduSpace } := by
  obtain ⟨hle, hspace', hcases⟩ := toMove_le f sdu
  have hlen := length_pos_iff.mpr hsdu
  have hpos : 0 < toMove f sdu := by omega
  have hmove := Filling.move hdata hne htodo hpos hle
    (if_congr (by omega) rfl rfl : (f.move sdu).txSdu = _)
  rw [← hli] at hmove
  refine { hmove with nLi_eq := hnLi, headLen_ge := hhead, uncut := ?_, inside := ?_ }
  · intro hleft
    dsimp only [Fill.move] at hleft ⊢
    rw [if_pos]
    omega
  · rw [length_append]
    exact fun hle => hinside (Nat.le_of_add_right_le hle)

theorem Fill.Carries.lis (hf : f.Carries snSize todo pieces queue) :
    (if 0 < f.lastLi then f.li ++ [f.lastLi] else f.li) = pieces.map List.length ∧
      (if 0 < f.lastLi then f.nLi + 1 else f.nLi) = pieces.length := by
  have hlis := hf.lengths_last
  refine ⟨hlis, ?_⟩
  rw [hf.nLi_eq, ← length_map List.length, ← hlis]
  split <;> simp

/-- The loop keeps the pieces in order, and pulls an SDU into an empty PDU. -/
theorem Fill.Carries.pull (hf : f.Carries snSize todo pieces queue)
    (hqueue : ∀ sdu ∈ queue, sdu ≠ []) :
    ∃ pieces', (f.pull snSize queue).1.Carries snSize todo pieces' (f.pull snSize queue).2 ∧
      ((pieces ≠ [] ∨ f.headLen + 1 < f.pduSpace ∧ queue ≠ []) → pieces' ≠ []) := by
  induction queue generalizing f pieces with
  | nil =>
    refine ⟨pieces, hf, ?_⟩
    simp
  | cons sdu queue ih =>
    rw [Fill.pull]
    split
    · next hroom =>
      have hnone := hf.uncut (by omega)
      obtain ⟨hlis, hnLi⟩ := hf.lis
      dsimp only
      rw [hlis, hnLi]
      have hinside : pieces.length ≤ maxLis →
          (f.liOutside || decide (maxLis < pieces.length)) = false := by
        intro hle
        simp [hf.inside hle, hle]
      split
      · -- the length indicator is taken back
        next hfull =>
          have hne : pieces ≠ [] := by
            rintro rfl
            have hhead := hf.headLen_ge
            rw [hf.nLi_eq, hf.lengths_eq] at hhead
            simp at hhead hfull
            omega
          refine ⟨pieces, ⟨⟨hf.elements_eq, hf.ne_nil, by simp, hf.last_eq, hf.rest, hf.todo_eq⟩,
            by simp, packedLengthOf_mono snSize (Nat.sub_le _ _), fun _ => hnone, hinside⟩,
            fun _ => hne⟩
      · next hfits =>
        have htodo : todo = pieces ++ sdu :: queue := by
          have htodo := hf.todo_eq
          rw [hnone, Option.getD_none, joinLast_nil_right] at htodo
          exact htodo
        have hmoved := Fill.Carries.of_move
          (f := { f with nLi := pieces.length, li := pieces.map List.length,
                         headLen := packedLengthOf snSize pieces.length,
                         liOutside := f.liOutside || maxLis < pieces.length })
          hf.elements_eq hf.ne_nil rfl (by simp) le_rfl (hqueue sdu (by simp))
          (by dsimp only; omega) rfl htodo hinside
        obtain ⟨pieces', hpieces', hne⟩ :=
          ih hmoved fun other hother => hqueue other (mem_cons_of_mem _ hother)
        exact ⟨pieces', hpieces', fun _ => hne (.inl (by simp))⟩
    · next hroom =>
      refine ⟨pieces, hf, ?_⟩
      rintro (hne | ⟨hlt, -⟩)
      · exact hne
      omega

theorem carries_fillInit {s : Tx} {pduSpace : ℕ} (hpending : Sendable s.pending)
    (hroom : packedLengthOf s.cfg.txSnFieldLength 0 + 1 < pduSpace) :
    ∃ pieces, (s.fillInit pduSpace).Carries s.cfg.txSnFieldLength s.pending pieces s.txSduQueue ∧
      (pieces = [] → s.txSdu = none ∧
        (s.fillInit pduSpace).headLen + 1 < (s.fillInit pduSpace).pduSpace) := by
  unfold fillInit
  cases htx : s.txSdu with
  | none =>
    refine ⟨[], ⟨?_, rfl, le_rfl, fun _ => rfl, fun _ => rfl⟩, fun _ => ⟨rfl, hroom⟩⟩
    simpa [pending, htx] using Filling.nil s.txSduQueue
  | some sdu =>
    have hmem : sdu ∈ s.pending := by simp [pending, htx]
    obtain ⟨hne, hlen⟩ := hpending sdu hmem
    set f : Fill :=
      { headLen := packedLengthOf s.cfg.txSnFieldLength 0, pduSpace := pduSpace,
        txSdu := some sdu }
    have hle := (toMove_le f sdu).1
    have htail : min (toMove f sdu) (tailroom (f.move sdu).data.length) = toMove f sdu := by
      have hdata : (f.move sdu).data.length = toMove f sdu := by
        have hmove : (f.move sdu).data = sdu.take (toMove f sdu) := rfl
        rw [hmove, length_take]
        omega
      have hmax : tailroom (toMove f sdu) = 12237 - toMove f sdu := rfl
      rw [hdata, hmax]
      omega
    refine ⟨[] ++ [sdu.take (toMove f sdu)], ?_, fun h => absurd h (by simp)⟩
    refine Fill.Carries.of_move rfl (by simp) rfl rfl le_rfl hne ?_ ?_ ?_ fun _ => rfl
    · exact Nat.lt_of_succ_lt hroom
    · rw [htail]
    · simp [pending, htx]

/-! ## The frame of a PDU -/

/-- The bytes of the PDU `sn` with a frame. -/
def encodeFrame (snSize : SnSize) (sn : ℕ) (f : Frame UInt8) : List UInt8 :=
  writeDataPduHeader
      { fi := ⟨f.notStart, f.notEnd⟩, snSize := snSize, sn := sn, li := f.init.map List.length } ++
    (f.init ++ [f.last]).flatten

/-- The frame `f` was taken from what `s` had to send, and `t` is left. -/
structure SendsFrame (s : Tx) (f : Frame UInt8) (t : Tx) : Prop
    extends f.Takes s.txSdu s.txSduQueue t.txSdu t.txSduQueue where
  cfg : t.cfg = s.cfg
  vtUs : t.vtUs = (s.vtUs + 1) % s.cfg.txMod
  inside : f.init.length < maxLis → t.liOutside = s.liOutside

/-- `build_data_pdu` sends nothing, or a frame of what is left. -/
theorem buildDataPdu_cases {s : Tx} (hpending : Sendable s.pending) (nofBytes : ℕ) :
    s.buildDataPdu nofBytes = (s, none) ∨
      ∃ f t, s.SendsFrame f t ∧
        s.buildDataPdu nofBytes = (t, some (encodeFrame s.cfg.txSnFieldLength s.vtUs f)) := by
  unfold buildDataPdu
  dsimp only
  split
  · simp
  rename_i hdata
  split
  · simp
  rename_i hroom
  refine .inr ?_
  rw [not_le] at hroom
  obtain ⟨pieces₀, hinit, hempty⟩ := carries_fillInit hpending hroom
  have hqueue : ∀ sdu ∈ s.txSduQueue, sdu ≠ [] := fun sdu hsdu =>
    (hpending sdu (mem_append_right _ hsdu)).1
  obtain ⟨pieces, hpull, hne⟩ := hinit.pull hqueue
  have hpieces : pieces ≠ [] := by
    by_cases hnil : pieces₀ = []
    · obtain ⟨hnone, hspace⟩ := hempty hnil
      refine hne (.inr ⟨hspace, fun hnone' => hdata ?_⟩)
      simp [hnone, hnone']
    · exact hne (.inl hnil)
  generalize (s.fillInit (min nofBytes (tailroom 0))).pull s.cfg.txSnFieldLength
    s.txSduQueue = st at hpull
  obtain ⟨f, queue⟩ := st
  obtain ⟨frame, htakes, hbytes, hli, rfl⟩ := hpull.exists_takes rfl hpieces
  refine ⟨frame, { s with vtUs := (s.vtUs + 1) % s.cfg.txMod, txSdu := f.txSdu, txSduQueue := queue
                          liOutside := s.liOutside || f.liOutside },
    ⟨htakes, rfl, rfl, fun hlt => ?_⟩, ?_⟩
  · have hinside : f.liOutside = false := hpull.inside (by rw [length_append]; exact hlt)
    simp [hinside]
  · rw [encodeFrame, flatten_append, flatten_singleton]
    change _ = (_, some (_ ++ frame.elements))
    rw [hbytes, hli, htakes.start, htakes.notEnd]
    rfl

/-! ## Runs of the transmitter -/

/-- The SDUs written and the frames sent. -/
structure Sent (s : Tx) (sdus : List (List UInt8)) (frames : List (Frame UInt8)) : Prop
    extends Sending 2047 sdus s.txSdu s.txSduQueue frames where
  vtUs : s.vtUs = frames.length % s.cfg.txMod

theorem sent_init (cfg : UmConfig) : Sent { cfg := cfg } [] [] :=
  ⟨Sending.nil 2047, by simp⟩

variable {s t : Tx} {sdus : List (List UInt8)} {frames : List (Frame UInt8)}

theorem Sent.sendable (h : s.Sent sdus frames) : Sendable s.pending :=
  fun msg hmsg => ⟨h.ne_nil msg hmsg, h.cut.pending_le msg hmsg⟩

theorem Sent.writeSdu (h : s.Sent sdus frames) (hsdu : sdu ≠ [] ∧ sdu.length ≤ 2047) :
    (s.writeSdu sdu).Sent (sdus ++ [sdu]) frames :=
  ⟨h.append_item hsdu.1 hsdu.2, h.vtUs⟩

theorem Sent.frame {f : Frame UInt8} (h : s.Sent sdus frames) (hsends : s.SendsFrame f t) :
    t.Sent sdus (frames ++ [f]) := by
  refine ⟨h.toSending.frame hsends.toTakes, ?_⟩
  rw [hsends.vtUs, hsends.cfg, h.vtUs, length_append, length_singleton]
  simp

end Tx

end MbmsTx.Rlc.Um
