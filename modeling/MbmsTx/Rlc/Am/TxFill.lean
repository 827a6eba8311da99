import MbmsTx.Rlc.Am.TxWindow

/-!
# Filling a data PDU

The loop of `build_data_pdu` adds one SDU after the other. `Fill.pull_invariant` is the rule for
what holds meanwhile: it is shown for a round that adds an SDU and for one that ends the loop. So
every PDU that is sent has data, a bounded length and length indicators that are not zero, provided
that the SDUs are not empty.
-/

namespace MbmsTx.Rlc.Am.Tx

open List Fill

variable {s : Tx} {f g : Fill} {sdu : Sdu} {queue : List (Option Sdu)} {sn fuel nofBytes : ℕ}

/-! ## The loop -/

/-- The length indicators with that of the last part, before another SDU is added. -/
def Fill.nextLi (f : Fill) : List ℕ := if 0 < f.lastLi then f.li ++ [f.lastLi] else f.li

/-- The PDU in a round that adds an SDU, before it is added. -/
def Fill.opened (f : Fill) (queue : List (Option Sdu)) : Fill :=
  { f with
      txSduQueue := queue
      li := f.nextLi
      headLen := packedLengthOf false f.nextLi.length }

/-- The PDU after a round that ends the loop: a length indicator that was written for the next SDU
is taken back. -/
structure Fill.Ended (f g : Fill) : Prop where
  txSdu : g.txSdu = f.txSdu
  txSduQueue : g.txSduQueue = f.txSduQueue
  tracking : g.tracking = f.tracking
  data : g.data = f.data
  list : g.list = f.list
  pduSpace : g.pduSpace = f.pduSpace
  lastLi : g.lastLi = f.lastLi
  headLen : f.headLen ≤ g.headLen
  li : g.li = f.li ∨ g.li = f.nextLi.dropLast

/-- The SDUs of the queue that were not discarded. -/
def waiting (queue : List (Option Sdu)) : List Sdu := queue.filterMap id

theorem mem_waiting : sdu ∈ waiting queue ↔ some sdu ∈ queue := by
  rw [waiting, mem_filterMap]
  simp

theorem readQueue_of_nSdus (h : 0 < nSdus queue) :
    ∃ sdu rest, readQueue queue = (some sdu, rest) ∧ waiting queue = sdu :: waiting rest ∧
      rest.length < queue.length ∧ rest <:+ queue := by
  induction queue with
  | nil => exact absurd h (by simp [nSdus])
  | cons entry queue ih =>
    cases entry with
    | none =>
      obtain ⟨sdu, rest, hread, hwaiting, hlen, hsuffix⟩ := ih (by assumption)
      exact ⟨sdu, rest, hread, hwaiting, Nat.lt_succ_of_lt hlen, suffix_cons_iff.mpr (.inr hsuffix)⟩
    | some sdu => exact ⟨sdu, queue, rfl, rfl, Nat.lt_succ_self _, suffix_cons _ _⟩

/-- The next round adds an SDU: there is room for a byte of it besides the header, there is one, and
there are segment resources. -/
def Fill.Adds (f : Fill) : Prop :=
  f.headLen < f.pduSpace ∧ 0 < nSdus f.txSduQueue ∧ f.li.length < maxSdusPerPdu ∧
    f.tracking.hasSegments = true ∧ packedLengthOf false f.nextLi.length < f.pduSpace

instance (f : Fill) : Decidable f.Adds := inferInstanceAs (Decidable (_ ∧ _))

/-- The last round finds no segment resources for the first byte, or ends. -/
theorem pull_of_not_adds (sn fuel : ℕ) (h : ¬ f.Adds) :
    pull sn fuel f = .error f ∧ f.data = [] ∨ ∃ g, pull sn fuel f = .ok g ∧ f.Ended g := by
  have hends : f.Ended f := ⟨rfl, rfl, rfl, rfl, rfl, rfl, rfl, le_rfl, .inl rfl⟩
  cases fuel with
  | zero => exact .inr ⟨f, rfl, hends⟩
  | succ fuel =>
    rw [pull]
    by_cases hgo : f.headLen < f.pduSpace ∧ 0 < nSdus f.txSduQueue ∧ f.li.length < maxSdusPerPdu
    · rw [if_pos hgo]
      cases hsegments : f.tracking.hasSegments with
      | false =>
        rw [if_neg (by simp)]
        cases hdata : f.data with
        | nil => simp
        | cons byte data => exact .inr ⟨f, rfl, hends⟩
      | true =>
        have hfull : f.pduSpace ≤ packedLengthOf false f.nextLi.length := by
          apply Nat.not_lt.mp
          intro hroom
          exact h ⟨hgo.1, hgo.2.1, hgo.2.2, hsegments, hroom⟩
        rw [if_pos rfl]
        exact .inr ⟨_, if_pos hfull,
          ⟨rfl, rfl, rfl, rfl, rfl, rfl, rfl, (hgo.1.trans_le hfull).le, .inr rfl⟩⟩
    · rw [if_neg hgo]
      exact .inr ⟨f, rfl, hends⟩

theorem pull_of_adds (sn fuel : ℕ) (h : f.Adds) :
    ∃ sdu queue, readQueue f.txSduQueue = (some sdu, queue) ∧
      waiting f.txSduQueue = sdu :: waiting queue ∧ queue <:+ f.txSduQueue ∧
      pull sn (fuel + 1) f = pull sn fuel ((f.opened queue).addSdu sn sdu) := by
  obtain ⟨hroom, hsdus, hli, hsegments, hhead⟩ := h
  obtain ⟨sdu, queue, hread, hwaiting, -, hsuffix⟩ := readQueue_of_nSdus hsdus
  refine ⟨sdu, queue, hread, hwaiting, hsuffix, ?_⟩
  rw [pull, if_pos ⟨hroom, hsdus, hli⟩, if_pos hsegments]
  refine (if_neg (Nat.not_le.mpr hhead)).trans ?_
  rw [hread]
  rfl

/-- A part of an SDU: the PDCP SN, and whether it is the last one. -/
structure Part where
  pdcpSn : ℕ
  last : Bool
deriving DecidableEq

/-- The part of an SDU that goes into a PDU. -/
def Fill.part (f : Fill) (sdu : Sdu) : Part where
  pdcpSn := sdu.pdcpSn
  last := decide (sdu.msg.length ≤ toMove f sdu)

/-- The parts of SDUs that the loop of `build_data_pdu` adds. -/
def Fill.pullParts (sn : ℕ) : ℕ → Fill → List Part
  | 0, _ => []
  | fuel + 1, f =>
    if f.Adds then
      match readQueue f.txSduQueue with
      | (none, _) => []
      | (some sdu, queue) =>
        (f.opened queue).part sdu :: pullParts sn fuel ((f.opened queue).addSdu sn sdu)
    else []

/-- What holds of a PDU and its parts before the loop, and is kept by its rounds, holds after it,
also after an error. -/
theorem pull_invariant_parts (P : Fill → List Part → Prop) {parts : List Part}
    (hended : ∀ f g parts, P f parts → f.Ended g → P g parts)
    (hadded : ∀ f sdu queue parts, P f parts → f.Adds →
      waiting f.txSduQueue = sdu :: waiting queue → queue <:+ f.txSduQueue →
      P ((f.opened queue).addSdu sn sdu) (parts ++ [(f.opened queue).part sdu])) (hf : P f parts) :
    (∀ g, pull sn fuel f = .ok g → P g (parts ++ pullParts sn fuel f)) ∧
      ∀ g, pull sn fuel f = .error g →
        P g (parts ++ pullParts sn fuel f) ∧ g.data = [] := by
  -- by induction on the rounds; the parts so far are those of the rounds before
  induction fuel generalizing f parts with
  | zero =>
    refine ⟨fun g h => ?_, fun g h => absurd h (by simp [pull])⟩
    obtain rfl := Except.ok.inj h
    rw [pullParts, append_nil]
    exact hf
  | succ fuel ih =>
    by_cases hadds : f.Adds
    · obtain ⟨sdu, queue, hread, hwaiting, hsuffix, hpull⟩ := pull_of_adds sn fuel hadds
      have hparts : pullParts sn (fuel + 1) f = (f.opened queue).part sdu ::
          pullParts sn fuel ((f.opened queue).addSdu sn sdu) := by
        rw [pullParts, if_pos hadds, hread]
      rw [hpull, hparts, append_cons]
      exact ih (hadded f sdu queue parts hf hadds hwaiting hsuffix)
    · have hparts : pullParts sn (fuel + 1) f = [] := by rw [pullParts, if_neg hadds]
      rw [hparts, append_nil]
      rcases pull_of_not_adds sn (fuel + 1) hadds with ⟨herror, hdata⟩ | ⟨g', hok, hends⟩
      · rw [herror]
        refine ⟨fun g h => absurd h (by simp), fun g h => ?_⟩
        obtain rfl := Except.error.inj h
        exact ⟨hf, hdata⟩
      · rw [hok]
        refine ⟨fun g h => ?_, fun g h => absurd h (by simp)⟩
        obtain rfl := Except.ok.inj h
        exact hended f g' parts hf hends

theorem pull_invariant (P : Fill → Prop) (hended : ∀ f g, P f → f.Ended g → P g)
    (hadded : ∀ f sdu queue, P f → f.Adds → waiting f.txSduQueue = sdu :: waiting queue →
      queue <:+ f.txSduQueue → P ((f.opened queue).addSdu sn sdu)) (hf : P f)
    (h : pull sn fuel f = .ok g ∨ pull sn fuel f = .error g) : P g := by
  have hrule := @pull_invariant_parts f sn fuel (fun f _ => P f) [] (fun f g _ => hended f g)
    (fun f sdu queue _ => hadded f sdu queue) hf
  rcases h with hok | herror
  · exact hrule.1 g hok
  · exact (hrule.2 g herror).1

/-! ## Non-empty SDUs -/

/-- The SDUs that wait, and the rest of the one that is being sent, are not empty. -/
structure SdusNonempty (txSdu : Option Sdu) (queue : List (Option Sdu)) : Prop where
  current : ∀ sdu, txSdu = some sdu → sdu.msg ≠ []
  waiting : ∀ sdu ∈ waiting queue, sdu.msg ≠ []

theorem msg_ne_nil_of_sduRest {rest : Sdu} (h : sduRest sdu (toMove f sdu) = some rest) :
    rest.msg ≠ [] := by
  have hle : toMove f sdu ≤ sdu.msg.length := by
    unfold toMove
    split <;> omega
  unfold sduRest at h
  split at h
  · cases h
  rename_i hne
  cases h
  intro hnil
  rw [drop_eq_nil_iff] at hnil
  omega

theorem toMove_pos (hsdu : sdu.msg ≠ []) (hroom : f.headLen < f.pduSpace) : 0 < toMove f sdu := by
  have hlen := length_pos_iff.mpr hsdu
  unfold toMove
  split <;> omega

theorem toMove_le_space (f : Fill) (sdu : Sdu) : toMove f sdu ≤ f.pduSpace := by
  unfold toMove
  split <;> omega

theorem length_take_toMove (f : Fill) (sdu : Sdu) :
    (sdu.msg.take (toMove f sdu)).length = toMove f sdu := by
  rw [length_take]
  unfold toMove
  split <;> omega

/-- What holds of a PDU while it is filled with SDUs that are not empty. The bound on the data is
twice a buffer: the room is not counted right after a long SDU segment. -/
structure Fill.Sane (f : Fill) : Prop where
  li_pos : ∀ l ∈ f.li, 0 < l
  li_length : f.li.length ≤ maxSdusPerPdu
  bound : f.data.length + f.pduSpace ≤ 2 * tailroom 0
  sdus : SdusNonempty f.txSdu f.txSduQueue

theorem Fill.Sane.nextLi_pos (hf : f.Sane) : ∀ l ∈ f.nextLi, 0 < l := by
  unfold nextLi
  split
  · next hlast => exact forall_mem_append.mpr ⟨hf.li_pos, forall_mem_singleton.mpr hlast⟩
  · exact hf.li_pos

theorem Fill.length_nextLi_le (f : Fill) : f.nextLi.length ≤ f.li.length + 1 := by
  unfold nextLi
  split
  · simp
  · omega

theorem Fill.Sane.ended (hf : f.Sane) (h : f.Ended g) : g.Sane := by
  refine ⟨?_, ?_, ?_, ?_⟩
  · rcases h.li with hli | hli
    · rw [hli]
      exact hf.li_pos
    · rw [hli]
      exact fun l hl => hf.nextLi_pos l (mem_of_mem_dropLast hl)
  · have hlen := hf.li_length
    rcases h.li with hli | hli
    · rw [hli]
      exact hlen
    · have hnext := f.length_nextLi_le
      rw [hli, length_dropLast]
      omega
  · rw [h.data, h.pduSpace]
    exact hf.bound
  · rw [h.txSdu, h.txSduQueue]
    exact hf.sdus

theorem Fill.Sane.addSdu (hf : f.Sane) (hadds : f.Adds)
    (hwaiting : waiting f.txSduQueue = sdu :: waiting queue) :
    ((f.opened queue).addSdu sn sdu).Sane where
  li_pos := hf.nextLi_pos
  li_length := f.length_nextLi_le.trans hadds.2.2.1
  bound := by
    have hbound := hf.bound
    have hspace : toMove (f.opened queue) sdu ≤ f.pduSpace := toMove_le_space _ sdu
    have htake := length_take_toMove (f.opened queue) sdu
    unfold Fill.addSdu
    rw [length_append, htake]
    change f.data.length + _ + (if _ < f.pduSpace then f.pduSpace - _ else 0) ≤ _
    split <;> omega
  sdus := by
    refine ⟨fun _ h => msg_ne_nil_of_sduRest h, fun rest hrest => hf.sdus.waiting rest ?_⟩
    rw [hwaiting]
    exact mem_cons_of_mem _ hrest

theorem addSdu_data_ne_nil (hsdu : sdu.msg ≠ []) (hroom : f.headLen < f.pduSpace) :
    (f.addSdu sn sdu).data ≠ [] := by
  have hpos := toMove_pos hsdu hroom
  have htake := length_take_toMove f sdu
  intro hnil
  rw [(append_eq_nil_iff.mp hnil).2, length_nil] at htake
  omega

theorem Fill.Sane.pull (hf : f.Sane)
    (h : pull sn fuel f = .ok g ∨ pull sn fuel f = .error g) :
    g.Sane ∧ (f.data ≠ [] → g.data ≠ []) := by
  refine pull_invariant (fun g => g.Sane ∧ (f.data ≠ [] → g.data ≠ [])) ?_ ?_ ⟨hf, id⟩ h
  · rintro g g' ⟨hg, hdata⟩ hends
    refine ⟨hg.ended hends, ?_⟩
    rw [hends.data]
    exact hdata
  · rintro g sdu queue ⟨hg, hdata⟩ hadds hwaiting -
    exact ⟨hg.addSdu hadds hwaiting, fun hne hnil => hdata hne (append_eq_nil_iff.mp hnil).1⟩

theorem Fill.Sane.pull_first (hf : f.Sane) (hli : f.li = []) (hlast : f.lastLi = 0)
    (hhead : f.headLen = packedLengthOf false 0) (hspace : packedLengthOf false 0 < f.pduSpace)
    (hsdus : 0 < nSdus f.txSduQueue) (h : Fill.pull sn f.txSduQueue.length f = .ok g) :
    g.data ≠ [] := by
  obtain ⟨_, _, _, _, hlen, _⟩ := readQueue_of_nSdus hsdus
  obtain ⟨fuel, hfuel⟩ := Nat.exists_eq_add_one_of_ne_zero (Nat.ne_zero_of_lt hlen)
  have hnext : f.nextLi = [] := by simp [nextLi, hlast, hli]
  rw [hfuel] at h
  by_cases hadds : f.Adds
  · obtain ⟨sdu, queue, -, hwaiting, -, hpull⟩ := pull_of_adds sn fuel hadds
    rw [hpull] at h
    refine ((hf.addSdu hadds hwaiting).pull (.inl h)).2 (addSdu_data_ne_nil ?_ hadds.2.2.2.2)
    exact hf.sdus.waiting sdu (by rw [hwaiting]; simp)
  · -- the loop ends in its first round only when the segment resources are used up
    have hsegments : f.tracking.hasSegments = false := by
      apply Bool.eq_false_iff.mpr
      intro hhas
      refine hadds ⟨by omega, hsdus, by simp [hli, maxSdusPerPdu], hhas, ?_⟩
      rw [hnext]
      exact hspace
    cases hdata : f.data with
    | nil =>
      rw [Fill.pull, if_pos ⟨by omega, hsdus, by simp [hli, maxSdusPerPdu]⟩,
        if_neg (by simp [hsegments]), hdata] at h
      cases h
    | cons byte data => exact (hf.pull (.inl h)).2 (by simp [hdata])

theorem packedLengthOf_zero_lt_space (hbytes : minDataPduSize ≤ nofBytes) :
    packedLengthOf false 0 < min nofBytes (tailroom 0) := by
  have htail : packedLengthOf false 0 < tailroom 0 := by decide
  have hmin : packedLengthOf false 0 < minDataPduSize := by decide
  omega

theorem sane_fillInit (hs : SdusNonempty s.txSdu s.txSduQueue) (nofBytes : ℕ) :
    (s.fillInit nofBytes).Sane := by
  have hempty : min nofBytes (tailroom 0) ≤ tailroom 0 := Nat.min_le_right _ _
  unfold fillInit
  cases htx : s.txSdu with
  | none =>
    refine ⟨by simp [fillEmpty], Nat.zero_le _, ?_, by assumption⟩
    change 0 + min nofBytes (tailroom 0) ≤ _
    omega
  | some sdu =>
    refine ⟨by simp [fillEmpty, addSegment], Nat.zero_le _, ?_, ?_⟩
    · have hspace : toMove (s.fillEmpty nofBytes) sdu ≤ min nofBytes (tailroom 0) :=
        toMove_le_space _ sdu
      have htake := length_take_toMove (s.fillEmpty nofBytes) sdu
      change ([] ++ sdu.msg.take _).length + (if _ < min nofBytes (tailroom 0) then
        min nofBytes (tailroom 0) - _ else 0) ≤ _
      rw [nil_append, htake]
      split <;> omega
    · exact ⟨fun _ h => msg_ne_nil_of_sduRest h, hs.waiting⟩

theorem fillInit_data_ne_nil (hs : SdusNonempty s.txSdu s.txSduQueue) (hsome : s.txSdu = some sdu)
    (hbytes : minDataPduSize ≤ nofBytes) : (s.fillInit nofBytes).data ≠ [] := by
  have hroom : (s.fillEmpty nofBytes).headLen < (s.fillEmpty nofBytes).pduSpace :=
    packedLengthOf_zero_lt_space hbytes
  have hpos := toMove_pos (hs.current sdu hsome) hroom
  have htake := length_take_toMove (s.fillEmpty nofBytes) sdu
  rw [fillInit, hsome]
  intro hnil
  have hnil : [] ++ sdu.msg.take (toMove (s.fillEmpty nofBytes) sdu) = [] := hnil
  rw [nil_append] at hnil
  rw [hnil, length_nil] at htake
  omega

/-- The PDU that `build_data_pdu` fills is sane, and not empty when an SDU is being sent or waits.
-/
theorem sane_pull_fillInit (hs : SdusNonempty s.txSdu s.txSduQueue)
    (hbytes : minDataPduSize ≤ nofBytes) (hsdus : s.txSdu = none → 0 < nSdus s.txSduQueue)
    (h : Fill.pull sn s.txSduQueue.length (s.fillInit nofBytes) = .ok g) :
    g.Sane ∧ g.data ≠ [] := by
  have hinit := sane_fillInit hs nofBytes
  obtain ⟨hg, hdata⟩ := hinit.pull (.inl h)
  refine ⟨hg, ?_⟩
  cases htx : s.txSdu with
  | some sdu => exact hdata (fillInit_data_ne_nil hs htx hbytes)
  | none =>
    have heq : s.fillInit nofBytes = s.fillEmpty nofBytes := by rw [fillInit, htx]
    rw [heq] at h hinit
    exact hinit.pull_first rfl rfl rfl (packedLengthOf_zero_lt_space hbytes) (hsdus htx) h

end MbmsTx.Rlc.Am.Tx
