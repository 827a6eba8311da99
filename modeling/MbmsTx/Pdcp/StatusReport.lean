import MbmsTx.Pdcp.AmCount

/-!
# PDCP status reports

The report of a receiver holds the sequence number of the first missing COUNT and a bitmap of the
COUNTs above it that it has received. The sender takes off its queue what the report acknowledges.

The two do not agree. The sender keeps 14 of 18 bits of the first missing sequence number, compares
sequence numbers without regard to their wrap-around, and skips the last bit of each byte of the
bitmap. The module says what is taken off the queue (`slots_handleStatusReportPdu`), and for which
queues this is what the receiver has received.
-/

namespace MbmsTx.Pdcp

open LteEntity List Nat
open Option (some bind_some filter_some)

/-! ## The bitmap -/

/-- The bit at an offset of a bitmap, the most significant first. -/
def bitmapBit (bitmap : List UInt8) (offset : ℕ) : Bool :=
  (bitmap.getD (offset / 8) 0).toNat.testBit (7 - offset % 8)

theorem toNat_ofNat_one_shiftLeft {k : ℕ} (hk : k < 8) : (UInt8.ofNat (1 <<< k)).toNat = 2 ^ k := by
  rw [UInt8.toNat_ofNat', one_shiftLeft]
  exact mod_eq_of_lt (Nat.pow_lt_pow_right (by omega) hk)

theorem bitmapBit_setBitmap {bitmap : List UInt8} {offset : ℕ} (h : offset / 8 < bitmap.length)
    (o : ℕ) :
    bitmapBit (setBitmap bitmap offset) o = (bitmapBit bitmap o || decide (o = offset)) := by
  unfold bitmapBit setBitmap
  by_cases hbyte : o / 8 = offset / 8
  · -- the byte that is changed
    rw [hbyte, getD_eq_getElem?_getD, List.getElem?_modify_eq, getD_eq_getElem?_getD,
      List.getElem?_eq_getElem h]
    simp only [Option.map_eq_map, Option.map_some, Option.getD_some, UInt8.toNat_or, testBit_or]
    rw [toNat_ofNat_one_shiftLeft (by omega), testBit_two_pow]
    congr 2
    exact propext ⟨fun hbit => by omega, fun hoffset => by rw [hoffset]⟩
  · have hne : o ≠ offset := fun heq => hbyte (by rw [heq])
    rw [getD_eq_getElem?_getD, List.getElem?_modify_ne _ _ (Ne.symm hbyte),
      getD_eq_getElem?_getD, decide_eq_false hne, Bool.or_false]

theorem bitmapBit_foldl_setBitmap {counts : List ℕ} {offsetOf : ℕ → ℕ} (bitmap : List UInt8)
    (h : ∀ c ∈ counts, offsetOf c / 8 < bitmap.length) (o : ℕ) :
    bitmapBit (counts.foldl (fun bitmap c => setBitmap bitmap (offsetOf c)) bitmap) o ↔
      bitmapBit bitmap o ∨ ∃ c ∈ counts, o = offsetOf c := by
  induction counts generalizing bitmap with
  | nil => simp
  | cons c counts ih =>
    have hlen : (setBitmap bitmap (offsetOf c)).length = bitmap.length := length_modify ..
    rw [foldl_cons, ih _ (fun d hd => by rw [hlen]; exact h d (mem_cons_of_mem c hd)),
      bitmapBit_setBitmap (h c mem_cons_self)]
    simp [or_assoc]

theorem bitmapBit_replicate (n o : ℕ) : bitmapBit (replicate n 0) o = false := by
  have hbyte : (replicate n (0 : UInt8)).getD (o / 8) 0 = 0 := by
    simp
  rw [bitmapBit, hbyte]
  simp

theorem mem_ackedSns {fms i s : ℕ} {byte : UInt8} : s ∈ ackedSns fms i byte ↔
      ∃ j, 0 < j ∧ j < 8 ∧ byte.toNat.testBit (8 - j) ∧ s = fms + i * 8 + j := by
  simp only [ackedSns, mem_filterMap, mem_range, Option.ite_none_right_eq_some, some.injEq]
  constructor
  · rintro ⟨j, hj, hbit, hs⟩
    refine ⟨j, Nat.pos_of_ne_zero ?_, hj, hbit, hs.symm⟩
    rintro rfl
    have hout : byte.toNat.testBit 8 = false := testBit_lt_two_pow (UInt8.toNat_lt byte)
    rw [Nat.sub_zero, hout] at hbit
    exact Bool.noConfusion hbit
  · rintro ⟨j, -, hj, hbit, hs⟩
    exact ⟨j, hj, hbit, hs.symm⟩

/-- The sequence numbers that a bitmap acknowledges: seven bits of each byte. -/
theorem mem_flatten_ackedSns {fms s : ℕ} {bitmap : List UInt8} :
    s ∈ (bitmap.mapIdx (ackedSns fms)).flatten ↔
      fms < s ∧ ¬ 8 ∣ s - fms ∧ bitmapBit bitmap (s - fms - 1) := by
  simp only [mem_flatten, mem_mapIdx]
  constructor
  · rintro ⟨_, ⟨i, hi, rfl⟩, hs⟩
    obtain ⟨j, hpos, hj, hbit, rfl⟩ := mem_ackedSns.mp hs
    have hbyte : (fms + i * 8 + j - fms - 1) / 8 = i := by omega
    have hplace : 7 - (fms + i * 8 + j - fms - 1) % 8 = 8 - j := by omega
    refine ⟨by omega, by omega, ?_⟩
    rw [bitmapBit, hbyte, hplace, getD_eq_getElem _ _ hi]
    exact hbit
  · rintro ⟨hlt, hdvd, hbit⟩
    rw [bitmapBit] at hbit
    have hbyte : (s - fms - 1) / 8 = (s - fms) / 8 := by omega
    have hplace : 7 - (s - fms - 1) % 8 = 8 - (s - fms) % 8 := by omega
    rw [hbyte, hplace] at hbit
    have hi : (s - fms) / 8 < bitmap.length := by
      by_contra hout
      rw [getD_eq_default _ _ (by omega)] at hbit
      simp at hbit
    rw [getD_eq_getElem _ _ hi] at hbit
    exact ⟨_, ⟨_, hi, rfl⟩, mem_ackedSns.mpr ⟨(s - fms) % 8, by omega, by omega, hbit, by omega⟩⟩

/-! ## The report -/

/-- The first missing sequence number as the sender reads it. -/
def readFms (len : SnLen) (fmc : ℕ) : ℕ :=
  match len with
  | .len18 => sn .len18 fmc % 2 ^ 14
  | _ => sn len fmc

theorem toNat_ofNat_mask (k n : ℕ) (hk : k ≤ 8) :
    (UInt8.ofNat ((2 ^ k - 1) &&& n)).toNat = n % 2 ^ k := by
  have hle : 2 ^ k ≤ 2 ^ 8 := Nat.pow_le_pow_right (by omega) hk
  have hlt : n % 2 ^ k < 2 ^ 8 := lt_of_lt_of_le (Nat.mod_lt _ (Nat.two_pow_pos k)) hle
  rw [UInt8.toNat_ofNat', Nat.and_comm, and_two_pow_sub_one_eq_mod, mod_eq_of_lt hlt]

theorem shiftLeft_eight_or (high low : ℕ) : high <<< 8 ||| low % 256 = high * 256 + low % 256 := by
  have hlt : low % 256 < 2 ^ 8 := Nat.mod_lt _ (by omega)
  rw [← shiftLeft_add_eq_or_of_lt hlt, shiftLeft_eq]

theorem readStatusReportHeader_append {len : SnLen} {fmc : ℕ} {header : List UInt8}
    (h : statusReportHeader len (sn len fmc) = some header) (bitmap : List UInt8) :
    readStatusReportHeader len (header ++ bitmap) = some (readFms len fmc, header.length) := by
  have hbyte : ∀ n, (UInt8.ofNat (0xFF &&& n)).toNat = n % 256 :=
    fun n => toNat_ofNat_mask 8 n (by omega)
  cases len with
  | len5 | len7 | len15 => exact absurd h (by simp [statusReportHeader])
  | len12 =>
    have hlt : sn .len12 fmc < 4096 := sn_lt fmc
    have hfirst : ∀ n, (UInt8.ofNat (0x0F &&& n)).toNat = n % 16 :=
      fun n => toNat_ofNat_mask 4 n (by omega)
    rw [← some.inj h]
    simp only [readStatusReportHeader, cons_append, getD_cons_zero, getD_cons_succ,
      length_cons, length_nil, readFms]
    rw [hfirst, hbyte, shiftLeft_eight_or, and_two_pow_sub_one_eq_mod _ 12, shiftRight_eq_div_pow]
    congr 2
    omega
  | len18 =>
    have hfirst : ∀ n, (UInt8.ofNat (0x03 &&& n)).toNat = n % 4 :=
      fun n => toNat_ofNat_mask 2 n (by omega)
    rw [← some.inj h]
    simp only [readStatusReportHeader, cons_append, getD_cons_zero, getD_cons_succ,
      length_cons, length_nil, readFms]
    have hhigh : ∀ a b : ℕ, a <<< 16 ||| b <<< 8 = (a <<< 8 ||| b) <<< 8 := by
      intro a b
      rw [shiftLeft_or_distrib, ← shiftLeft_add]
    rw [hfirst, hbyte, hbyte, hhigh, shiftLeft_eight_or,
      shiftLeft_eight_or, and_two_pow_sub_one_eq_mod _ 14,
      shiftRight_eq_div_pow, shiftRight_eq_div_pow]
    congr 2
    omega

/-! ## The receiver -/

/-- The receiver after the COUNTs of a history. -/
def LteEntity.afterCounts (cfg : Config) (history : List ℕ) : LteEntity :=
  history.foldl (fun e rxCount => e.updateRxCountsQueue cfg rxCount) (.init cfg)

/-- No COUNT in the queue is above the largest one. -/
def LteEntity.CountsBounded (e : LteEntity) : Prop := ∀ c ∈ e.rxCountsInfo, c ≤ e.largestRxCount

theorem mem_of_mem_popConsecutive {fmc c : ℕ} {info : List ℕ}
    (h : c ∈ (popConsecutive fmc info).2) : c ∈ info := by
  induction info generalizing fmc with
  | nil => exact h
  | cons rxCount info ih =>
    rw [popConsecutive] at h
    split at h
    · exact mem_cons_of_mem _ (ih h)
    · exact h

theorem LteEntity.CountsBounded.updateRxCountsQueue {e : LteEntity} (h : e.CountsBounded)
    (cfg : Config) (rxCount : ℕ) : (e.updateRxCountsQueue cfg rxCount).CountsBounded := by
  unfold LteEntity.updateRxCountsQueue
  split
  · exact h
  dsimp only
  have hlargest : ∀ c, c = rxCount ∨ c ∈ e.rxCountsInfo →
      c ≤ if e.largestRxCount < rxCount then rxCount else e.largestRxCount := by
    rintro c (rfl | hc)
    · split <;> omega
    · have hle := h c hc
      split <;> omega
  -- a COUNT of the queue was in the queue before, or is the new one
  generalize hpair : (if rxCount = e.fmc then popConsecutive ((e.fmc + 1) % 2 ^ 32)
    e.rxCountsInfo else (e.fmc, e.rxCountsInfo.orderedInsert (· ≤ ·) rxCount)) = pair
  have hmem : ∀ c ∈ pair.2, c = rxCount ∨ c ∈ e.rxCountsInfo := by
    intro c hc
    rw [← hpair] at hc
    split at hc
    · exact .inr (mem_of_mem_popConsecutive hc)
    · exact (mem_orderedInsert (· ≤ ·)).mp hc
  intro c hc
  refine hlargest c (hmem c ?_)
  split at hc
  · exact mem_of_mem_popConsecutive hc
  · exact hc

theorem LteEntity.countsBounded_afterCounts (cfg : Config) (history : List ℕ) :
    (afterCounts cfg history).CountsBounded := by
  have hinit : (LteEntity.init cfg).CountsBounded :=
    fun c hc => absurd hc (by simp [LteEntity.init])
  exact foldlRecOn history _ hinit fun e h rxCount _ => h.updateRxCountsQueue cfg rxCount

/-- The report can be written: every queued COUNT is above the first missing one, and the bitmap
fits. -/
structure LteEntity.Reports (cfg : Config) (e : LteEntity) : Prop where
  required : cfg.statusReportRequired = true
  above : ∀ c ∈ e.rxCountsInfo, e.fmc < c
  room : e.rxCountsInfo ≠ [] →
    cfg.snLen.hdrLenBytes + (e.largestRxCount - e.fmc + 8) / 8 ≤ ByteBuffer.emptyTailroom

/-- A bitmap with the bits of the COUNTs in the queue. -/
def LteEntity.BitmapOf (e : LteEntity) (bitmap : List UInt8) : Prop :=
  ∀ o, bitmapBit bitmap o = true ↔ e.fmc + 1 + o ∈ e.rxCountsInfo

section

variable {cfg : Config} {e : LteEntity}

theorem statusReportHeader_isSome (hcfg : cfg.IsAmDrb) (fms : ℕ) :
    ∃ header, statusReportHeader cfg.snLen fms = some header ∧
      header.length = cfg.snLen.hdrLenBytes := by
  rcases hcfg.snLen with h | h
  all_goals
    rw [h]
    exact ⟨_, rfl, by simp [SnLen.hdrLenBytes, SnLen.bits]⟩

theorem LteEntity.CountsBounded.bitmapOf (h : e.CountsBounded)
    (habove : ∀ c ∈ e.rxCountsInfo, e.fmc < c)
    {size : ℕ} (hsize : (e.largestRxCount - e.fmc + 8) / 8 ≤ size) :
    e.BitmapOf (e.rxCountsInfo.foldl
      (fun bitmap rxCount => setBitmap bitmap (rxCount - (e.fmc + 1))) (replicate size 0)) := by
  intro o
  rw [bitmapBit_foldl_setBitmap, bitmapBit_replicate]
  · constructor
    · rintro (hfalse | ⟨c, hc, rfl⟩)
      · cases hfalse
      · have hlt := habove c hc
        have hback : e.fmc + 1 + (c - (e.fmc + 1)) = c := by omega
        rw [hback]
        exact hc
    · intro hmem
      exact .inr ⟨_, hmem, by omega⟩
  · intro c hc
    have hlt := habove c hc
    have hle := h c hc
    rw [length_replicate]
    omega

theorem LteEntity.CountsBounded.sendStatusReport_eq_some (h : e.CountsBounded) (hcfg : cfg.IsAmDrb)
    (hreports : e.Reports cfg) :
    ∃ header bitmap, e.sendStatusReport cfg = some (header ++ bitmap) ∧
      statusReportHeader cfg.snLen (sn cfg.snLen e.fmc) = some header ∧ e.BitmapOf bitmap := by
  obtain ⟨header, hheader, hlen⟩ := statusReportHeader_isSome hcfg (sn cfg.snLen e.fmc)
  have ham : (!cfg.isAmDrb || !cfg.statusReportRequired) = false := by
    simp [Config.isAmDrb, hcfg.rbType, hcfg.rbIsUm, hreports.required]
  unfold sendStatusReport
  rw [ham, if_neg (by simp), hheader, bind_some]
  by_cases hempty : e.rxCountsInfo = []
  · refine ⟨header, [], by simp [hempty], rfl, ?_⟩
    intro o
    rw [hempty]
    exact ⟨fun hbit => absurd hbit (by simp [bitmapBit]), fun hmem => absurd hmem (by simp)⟩
  · have hroom := hreports.room hempty
    obtain ⟨c, hc⟩ := exists_mem_of_ne_nil _ hempty
    have hlt := hreports.above c hc
    have hle := h c hc
    have htail : ByteBuffer.emptyTailroom = 12237 := rfl
    have hsize : (((e.largestRxCount : ℤ) - ((e.fmc : ℤ) - 1)).toNat + 7) / 8 =
        (e.largestRxCount - e.fmc + 8) / 8 := by omega
    have hfits : ¬ ((∃ rxCount ∈ e.rxCountsInfo, rxCount ≤ e.fmc) ∨
        ByteBuffer.emptyTailroom < header.length + (e.largestRxCount - e.fmc + 8) / 8) := by
      rintro (⟨d, hd, hsmall⟩ | hlarge)
      · exact absurd (hreports.above d hd) (by omega)
      · omega
    rw [if_neg hempty, if_neg (by omega), hsize, if_neg hfits]
    exact ⟨header, _, rfl, rfl, h.bitmapOf hreports.above le_rfl⟩

theorem LteEntity.CountsBounded.reports_of_sendStatusReport (h : e.CountsBounded)
    (hcfg : cfg.IsAmDrb) {report : List UInt8} (hsend : e.sendStatusReport cfg = some report) :
    e.Reports cfg := by
  obtain ⟨header, hheader, hlen⟩ := statusReportHeader_isSome hcfg (sn cfg.snLen e.fmc)
  unfold sendStatusReport at hsend
  split at hsend
  · cases hsend
  rename_i hrequired
  have hrequired : cfg.statusReportRequired := by
    cases hreq : cfg.statusReportRequired with
    | true => rfl
    | false => exact absurd hrequired (by simp [hreq])
  rw [hheader, bind_some] at hsend
  split at hsend
  · rename_i hempty
    exact ⟨hrequired, by simp [hempty], absurd hempty⟩
  dsimp only at hsend
  split at hsend
  · cases hsend
  split at hsend
  · cases hsend
  rename_i hfits
  have habove : ∀ c ∈ e.rxCountsInfo, e.fmc < c := by
    intro c hc
    by_contra hle
    exact hfits (.inl ⟨c, hc, Nat.le_of_not_lt hle⟩)
  refine ⟨hrequired, habove, fun hne => ?_⟩
  obtain ⟨c, hc⟩ := exists_mem_of_ne_nil _ hne
  have hlt := habove c hc
  have hle := h c hc
  omega

end

/-! ## The sender -/

/-- The sender reads the bit of a sequence number, and it is set. It does not read the last bit of a
byte. -/
def LteEntity.Acks (e : LteEntity) (fms s : ℕ) : Prop :=
  fms < s ∧ ¬ 8 ∣ s - fms ∧ e.fmc + (s - fms) ∈ e.rxCountsInfo

instance (e : LteEntity) (fms s : ℕ) : Decidable (e.Acks fms s) :=
  inferInstanceAs (Decidable (_ ∧ _ ∧ _))

section

variable {α : Type*} {cfg : Config} {e : LteEntity} {q : UndeliveredSdus α}

theorem slots_handleStatusReportPdu (hcfg : cfg.IsAmDrb) (hq : q.WellFormed)
    {header bitmap : List UInt8}
    (hheader : statusReportHeader cfg.snLen (sn cfg.snLen e.fmc) = some header)
    (hbitmap : e.BitmapOf bitmap) (i : ℕ) :
    (handleStatusReportPdu cfg q (header ++ bitmap)).slots i = (q.slots i).filter fun entry =>
      ¬ (entry.1 < readFms cfg.snLen e.fmc ∨ e.Acks (readFms cfg.snLen e.fmc) entry.1) := by
  have ham : (!cfg.isAmDrb) = false := by simp [Config.isAmDrb, hcfg.rbType, hcfg.rbIsUm]
  unfold handleStatusReportPdu
  rw [ham, if_neg (by simp), readStatusReportHeader_append hheader]
  dsimp only
  rw [drop_left, UndeliveredSdus.WellFormed.slots_foldl_clearSdu (hq.foldl_clearSdu _),
    hq.slots_foldl_clearSdu, Option.filter_filter]
  congr 1
  funext entry
  have hacks : entry.1 ∈ (bitmap.mapIdx (ackedSns (readFms cfg.snLen e.fmc))).flatten ↔
      e.Acks (readFms cfg.snLen e.fmc) entry.1 := by
    rw [mem_flatten_ackedSns, hbitmap, Acks]
    refine and_congr_right fun hlt => and_congr_right fun _ => ?_
    have hoffset : e.fmc + 1 + (entry.1 - readFms cfg.snLen e.fmc - 1) =
        e.fmc + (entry.1 - readFms cfg.snLen e.fmc) := by omega
    rw [hoffset]
  simp [hacks]

end

/-! ## Reports and what was received -/

section

variable {α : Type*}

/-- Every SDU is stored under the sequence number of its COUNT. -/
structure UndeliveredSdus.Holds (q : UndeliveredSdus α) (len : SnLen) (countOf : α → ℕ) : Prop where
  wellFormed : q.WellFormed
  sn_eq : ∀ {i : ℕ} {entry : ℕ × α}, q.slots i = some entry → entry.1 = sn len (countOf entry.2)

/-- An SDU with this COUNT is in the queue. -/
def UndeliveredSdus.HasCount (q : UndeliveredSdus α) (countOf : α → ℕ) (c : ℕ) : Prop :=
  ∃ i entry, q.slots i = some entry ∧ countOf entry.2 = c

/-- A receiver with this history sends a report, which takes off the queue of the sender exactly the
SDUs whose COUNT is below the first missing one or in the history. -/
def ReportExact (cfg : Config) (history : List ℕ) (q : UndeliveredSdus α)
    (countOf : α → ℕ) : Prop :=
  ∃ report, (afterCounts cfg history).sendStatusReport cfg = some report ∧
    ∀ i, (handleStatusReportPdu cfg q report).slots i = (q.slots i).filter fun entry =>
      ¬ (countOf entry.2 < (afterCounts cfg history).fmc ∨ countOf entry.2 ∈ history)

/-- The conditions for that. `fms` is the first missing sequence number as read. -/
structure ReportReadable (cfg : Config) (history : List ℕ) (q : UndeliveredSdus α)
    (countOf : α → ℕ) (e : LteEntity) (fms : ℕ) : Prop where
  reports : e.Reports cfg
  below : ∀ c, q.HasCount countOf c → c < e.fmc → sn cfg.snLen c < fms ∨ e.Acks fms (sn cfg.snLen c)
  received : ∀ c, q.HasCount countOf c → e.fmc ≤ c → c ∈ history →
    sn cfg.snLen c < fms ∨ e.Acks fms (sn cfg.snLen c)
  missing : ∀ c, q.HasCount countOf c → e.fmc ≤ c → c ∉ history →
    fms ≤ sn cfg.snLen c ∧ ¬ e.Acks fms (sn cfg.snLen c)

theorem filter_eq_filter_iff {o : Option α} {p r : α → Bool} :
    o.filter p = o.filter r ↔ ∀ x, o = some x → p x = r x := by
  cases o with
  | none => simp
  | some x =>
    constructor
    · rintro h y hy
      rw [← some.inj hy]
      rw [filter_some, filter_some] at h
      cases hp : p x <;> cases hr : r x <;> simp [hp, hr] at h ⊢
    · intro h
      rw [filter_some, filter_some, h x rfl]

/-- For a receiver with any history and a sender with any SDUs: when the status report is exact. -/
theorem reportExact_iff {cfg : Config} (hcfg : cfg.IsAmDrb) (history : List ℕ)
    (q : UndeliveredSdus α) (countOf : α → ℕ) (hq : q.Holds cfg.snLen countOf) :
    ReportExact cfg history q countOf ↔
      ReportReadable cfg history q countOf (afterCounts cfg history)
        (readFms cfg.snLen (afterCounts cfg history).fmc) := by
  have hbounded := countsBounded_afterCounts cfg history
  unfold ReportExact
  generalize afterCounts cfg history = e at hbounded ⊢
  generalize hfms : readFms cfg.snLen e.fmc = fms
  constructor
  · rintro ⟨report, hsend, hslots⟩
    have hreports := hbounded.reports_of_sendStatusReport hcfg hsend
    obtain ⟨header, bitmap, hreport, hheader, hbitmap⟩ :=
      hbounded.sendStatusReport_eq_some hcfg hreports
    rw [some.inj (hsend.symm.trans hreport)] at hslots
    -- for an SDU of the queue, what the sender does and what it should do
    have hheld : ∀ c, q.HasCount countOf c →
        ((sn cfg.snLen c < fms ∨ e.Acks fms (sn cfg.snLen c)) ↔ (c < e.fmc ∨ c ∈ history)) := by
      rintro c ⟨i, entry, hentry, rfl⟩
      have heq := hslots i
      rw [slots_handleStatusReportPdu hcfg hq.wellFormed hheader hbitmap, hfms,
        filter_eq_filter_iff] at heq
      have hboth := heq entry hentry
      rw [hq.sn_eq hentry, decide_eq_decide, not_iff_not] at hboth
      exact hboth
    refine ⟨hreports, ?_, ?_, ?_⟩
    · intro c hc hlt
      exact (hheld c hc).mpr (.inl hlt)
    · intro c hc hge hmem
      exact (hheld c hc).mpr (.inr hmem)
    · intro c hc hge hmem
      have hkept : ¬ (sn cfg.snLen c < fms ∨ e.Acks fms (sn cfg.snLen c)) := by
        rw [hheld c hc]
        rintro (hlt | hin)
        · omega
        · exact hmem hin
      exact ⟨Nat.le_of_not_lt fun hlt => hkept (.inl hlt), fun hacks => hkept (.inr hacks)⟩
  · intro h
    obtain ⟨header, bitmap, hreport, hheader, hbitmap⟩ :=
      hbounded.sendStatusReport_eq_some hcfg h.reports
    refine ⟨header ++ bitmap, hreport, fun i => ?_⟩
    rw [slots_handleStatusReportPdu hcfg hq.wellFormed hheader hbitmap, hfms, filter_eq_filter_iff]
    intro entry hentry
    have hcount : q.HasCount countOf (countOf entry.2) := ⟨i, entry, hentry, rfl⟩
    rw [hq.sn_eq hentry, decide_eq_decide, not_iff_not]
    rcases lt_or_ge (countOf entry.2) e.fmc with hlt | hge
    · exact iff_of_true (h.below _ hcount hlt) (.inl hlt)
    by_cases hmem : countOf entry.2 ∈ history
    · exact iff_of_true (h.received _ hcount hge hmem) (.inr hmem)
    obtain ⟨hsn, hacks⟩ := h.missing _ hcount hge hmem
    refine iff_of_false ?_ ?_
    · rintro (hless | hin)
      · omega
      · exact hacks hin
    · rintro (hless | hin)
      · omega
      · exact hmem hin

end

/-- A data bearer over RLC AM with sequence numbers of 12 bits. -/
def amDrb : Config := ⟨.len12, .drb, false, true⟩

/-- A queue with one SDU, which stands for its COUNT. -/
def oneSdu (c : ℕ) : UndeliveredSdus ℕ :=
  { slots := fun i => if i = c then some (c, c) else none
    count := 1
    fms := c }

theorem holds_oneSdu {c : ℕ} (hc : c < 4096) : (oneSdu c).Holds .len12 id := by
  have hslot : ∀ {i : ℕ} {entry : ℕ × ℕ}, (oneSdu c).slots i = some entry →
      i = c ∧ entry = (c, c) := by
    intro i entry h
    simp only [oneSdu, Option.ite_none_right_eq_some, some.injEq] at h
    exact ⟨h.1, h.2.symm⟩
  refine ⟨?_, ?_⟩
  · intro i entry h
    obtain ⟨rfl, rfl⟩ := hslot h
    exact mod_eq_of_lt hc
  · intro i entry h
    obtain ⟨rfl, rfl⟩ := hslot h
    rw [sn_eq_mod]
    exact (mod_eq_of_lt hc).symm

/-- The COUNT 1 was received, and 0 is missing. -/
theorem reportExact_one : (oneSdu 1).Holds .len12 id ∧ ReportExact amDrb [1] (oneSdu 1) id := by
  have hholds : (oneSdu 1).Holds .len12 id := holds_oneSdu (by omega)
  refine ⟨hholds, (reportExact_iff ⟨rfl, rfl, .inl rfl⟩ [1] (oneSdu 1) id hholds).mpr ?_⟩
  have hone : ∀ c, (oneSdu 1).HasCount id c → c = 1 := by
    rintro c ⟨i, entry, hentry, rfl⟩
    simp only [oneSdu, Option.ite_none_right_eq_some, some.injEq] at hentry
    rw [← hentry.2]
    rfl
  refine ⟨⟨rfl, by decide, fun _ => by decide⟩, ?_, ?_, ?_⟩
  · intro c hc hlt
    exact absurd hlt (Nat.not_lt_zero _)
  · intro c hc _ _
    rw [hone c hc]
    exact .inr (by decide)
  · intro c hc _ hmem
    rw [hone c hc] at hmem
    simp at hmem

/-- The COUNT 8 is in the report, but stays in the queue. -/
theorem not_reportExact_eight : (oneSdu 8).Holds .len12 id ∧
      (afterCounts amDrb [8]).sendStatusReport amDrb = some [0x00, 0x00, 0x01, 0x00] ∧
      (handleStatusReportPdu amDrb (oneSdu 8) [0x00, 0x00, 0x01, 0x00]).slots 8 = some (8, 8) ∧
      ¬ ReportExact amDrb [8] (oneSdu 8) id := by
  have hsent : (afterCounts amDrb [8]).sendStatusReport amDrb = some [0x00, 0x00, 0x01, 0x00] := by
    rfl
  have hkept : (handleStatusReportPdu amDrb (oneSdu 8) [0x00, 0x00, 0x01, 0x00]).slots 8 =
      some (8, 8) := by rfl
  refine ⟨holds_oneSdu (by omega), hsent, hkept, ?_⟩
  rintro ⟨report, hsend, hslots⟩
  have hgone := hslots 8
  rw [← some.inj (hsent.symm.trans hsend), hkept] at hgone
  cases hgone

end MbmsTx.Pdcp
