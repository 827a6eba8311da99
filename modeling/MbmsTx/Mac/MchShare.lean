import Mathlib.Algebra.BigOperators.Ring.List
import Mathlib.Algebra.Order.BigOperators.Group.List
import MbmsTx.Mac.Mch

/-!
# How the MTCHs share the scheduling period

`build_mch_sched` cuts the subframes of a period into one piece for each MTCH. When the buffers hold
less than the period can carry, each MTCH gets the subframes of its buffer, rounded up; the sum may
exceed the period. When they hold more, each is meant to get its proportion, but the ratio is an
integer division: zero unless a single MTCH holds everything.

`periodShared_iff` says for which buffers the pieces are what the scheduler is for.
-/

namespace MbmsTx.Mac

open List

/-! ## Buffers -/

/-- The whole subframes that a buffer needs. -/
def neededSfs (bytesPerSf bufferSize : ℕ) : ℕ := (bufferSize + bytesPerSf - 1) / bytesPerSf

/-- The number of buffers with data. -/
def nofWithData (sizes : List ℕ) : ℕ := (sizes.filter (0 < ·)).length

theorem le_neededSfs_mul {bytesPerSf : ℕ} (h : 0 < bytesPerSf) (bufferSize : ℕ) :
    bufferSize ≤ neededSfs bytesPerSf bufferSize * bytesPerSf := by
  have hlt := Nat.lt_mul_div_succ (bufferSize + bytesPerSf - 1) h
  rw [Nat.mul_succ, mul_comm] at hlt
  unfold neededSfs
  omega

theorem sum_filter_pos (sizes : List ℕ) : (sizes.filter (0 < ·)).sum = sizes.sum := by
  induction sizes with
  | nil => rfl
  | cons size sizes ih =>
    rcases eq_zero_or_pos size with rfl | hpos
    · simp [ih]
    · simp [hpos, ih]

variable {sizes : List ℕ}

theorem nofWithData_pos (h : 0 < sizes.sum) : 0 < nofWithData sizes := by
  rw [← sum_filter_pos] at h
  refine length_pos_iff.mpr ?_
  intro hnil
  rw [hnil] at h
  cases h

theorem eq_zero_or_sum_of_nofWithData_le_one (h : nofWithData sizes ≤ 1) {size : ℕ}
    (hsize : size ∈ sizes) : size = 0 ∨ size = sizes.sum := by
  rcases eq_zero_or_pos size with hzero | hpos
  · omega
  right
  have hmem : size ∈ sizes.filter (0 < ·) := mem_filter.mpr ⟨hsize, by simpa using hpos⟩
  have hone := le_antisymm h (length_pos_of_mem hmem)
  obtain ⟨other, hother⟩ := length_eq_one_iff.mp hone
  rw [hother, mem_singleton] at hmem
  rw [← sum_filter_pos, hother, sum_singleton, hmem]

theorem lt_sum_of_one_lt_nofWithData (h : 1 < nofWithData sizes) {size : ℕ} (hsize : size ∈ sizes) :
    size < sizes.sum := by
  have hall : ∀ n ∈ sizes.filter (0 < ·), 0 < n := by
    simp
  rw [← sum_filter_pos]
  rcases eq_zero_or_pos size with rfl | hpos
  · obtain ⟨n, hn⟩ := exists_mem_of_length_pos (lt_trans Nat.zero_lt_one h)
    exact lt_of_lt_of_le (hall n hn) (le_sum_of_mem hn)
  have hmem : size ∈ sizes.filter (0 < ·) := mem_filter.mpr ⟨hsize, by simpa using hpos⟩
  have hperm := perm_cons_erase hmem
  -- what is left without this buffer is not empty
  have hrest : 0 < ((sizes.filter (0 < ·)).erase size).length := by
    have hlen := hperm.length_eq
    rw [length_cons] at hlen
    unfold nofWithData at h
    omega
  obtain ⟨n, hn⟩ := exists_mem_of_length_pos hrest
  have hn0 := hall n (mem_of_mem_erase hn)
  have hle := le_sum_of_mem hn
  rw [hperm.sum_eq, sum_cons]
  omega

theorem nofWithData_le_sum_neededSfs {bytesPerSf : ℕ} (h : 0 < bytesPerSf) (sizes : List ℕ) :
    nofWithData sizes ≤ (sizes.map (neededSfs bytesPerSf)).sum := by
  induction sizes with
  | nil => rfl
  | cons size sizes ih =>
    unfold nofWithData at ih ⊢
    rw [map_cons, sum_cons]
    rcases eq_zero_or_pos size with rfl | hpos
    · simp
      omega
    · have hneeded : neededSfs bytesPerSf size ≠ 0 := by
        intro hzero
        have hle := le_neededSfs_mul h size
        rw [hzero] at hle
        omega
      simp [hpos]
      omega

theorem sum_div_le_div_sum (sizes : List ℕ) (total : ℕ) :
    (sizes.map (· / total)).sum ≤ sizes.sum / total := by
  induction sizes with
  | nil => simp
  | cons size sizes ih =>
    rw [map_cons, sum_cons, sum_cons]
    exact (Nat.add_le_add_left ih _).trans Nat.div_add_div_le_add_div

theorem sum_neededSfs_le {bytesPerSf : ℕ} (h : 0 < bytesPerSf) (sizes : List ℕ) :
    (sizes.map (neededSfs bytesPerSf)).sum ≤ sizes.sum / bytesPerSf + sizes.length := by
  induction sizes with
  | nil => simp
  | cons size sizes ih =>
    have hone : neededSfs bytesPerSf size ≤ size / bytesPerSf + 1 := by
      rw [← Nat.add_div_right _ h]
      exact Nat.div_le_div_right (by omega)
    have hadd : size / bytesPerSf + sizes.sum / bytesPerSf ≤ (size + sizes.sum) / bytesPerSf :=
      Nat.div_add_div_le_add_div
    rw [map_cons, sum_cons, sum_cons, length_cons]
    omega

/-! ## Stop values -/

/-- The subframes of each MTCH, from the stop values. -/
def assignedSfs : (lastMtchStop : ℕ) → List ℕ → List ℕ
  | _, [] => []
  | lastMtchStop, stop :: stops => (stop - lastMtchStop) :: assignedSfs stop stops

variable {assigned : ℕ → ℕ} {mtchSched : List DlMtchSched}

theorem assignedSfs_assignStops (assigned : ℕ → ℕ) (last : ℕ) (mtchSched : List DlMtchSched) :
    assignedSfs last ((assignStops assigned last mtchSched).map (·.stop)) =
      mtchSched.map fun mtch => assigned mtch.lcidBufferSize := by
  induction mtchSched generalizing last with
  | nil => rfl
  | cons mtch rest ih =>
    simp [assignStops, assignedSfs, ih]

theorem stop_le_sum (assigned : ℕ → ℕ) (last : ℕ) (mtchSched : List DlMtchSched) :
    ∀ mtch ∈ assignStops assigned last mtchSched,
      mtch.stop ≤ last + (mtchSched.map fun mtch => assigned mtch.lcidBufferSize).sum := by
  induction mtchSched generalizing last with
  | nil => simp [assignStops]
  | cons first rest ih =>
    intro mtch hmtch
    simp only [assignStops, mem_cons] at hmtch
    rw [map_cons, sum_cons]
    rcases hmtch with rfl | hmtch
    · simp
    · have hle := ih _ mtch hmtch
      omega

theorem exists_stop_eq_sum (assigned : ℕ → ℕ) (last : ℕ) (hne : mtchSched ≠ []) :
    ∃ mtch ∈ assignStops assigned last mtchSched,
      mtch.stop = last + (mtchSched.map fun mtch => assigned mtch.lcidBufferSize).sum := by
  induction mtchSched generalizing last with
  | nil => exact absurd rfl hne
  | cons first rest ih =>
    by_cases hrest : rest = []
    · subst hrest
      exact ⟨_, mem_singleton_self _, by simp⟩
    · obtain ⟨mtch, hmtch, heq⟩ := ih (last + assigned first.lcidBufferSize) hrest
      refine ⟨mtch, mem_cons_of_mem _ hmtch, ?_⟩
      rw [heq, map_cons, sum_cons, add_assoc]

/-! ## What the schedule is for -/

/-- The bytes of a subframe without the headers. -/
def bytesPerSf (tbs : ℕ) : ℕ := tbs / 8 - 6

/-- `sched` schedules the buffers in `mtchSched` over `sfAllocEnd` subframes. -/
structure PeriodShared (sfAllocEnd tbs : ℕ) (mtchSched sched : List DlMtchSched) : Prop where
  sorted : (sched.map (·.stop)).Pairwise (· ≤ ·)
  le_end : ∀ mtch ∈ sched, mtch.stop ≤ sfAllocEnd
  /-- Buffers that fit, in whole subframes, are sent. -/
  enough :
    (mtchSched.map fun mtch => neededSfs (bytesPerSf tbs) mtch.lcidBufferSize).sum ≤ sfAllocEnd →
      List.Forall₂ (fun mtch sfs => mtch.lcidBufferSize ≤ sfs * bytesPerSf tbs) mtchSched
        (assignedSfs 0 (sched.map (·.stop)))
  /-- Otherwise each gets its proportion of the period, up to one subframe. -/
  proportional :
    let total := (mtchSched.map (·.lcidBufferSize)).sum
    0 < total → sfAllocEnd * bytesPerSf tbs ≤ total →
      List.Forall₂ (fun mtch sfs =>
        sfs * total ≤ sfAllocEnd * mtch.lcidBufferSize + total ∧
          sfAllocEnd * mtch.lcidBufferSize ≤ sfs * total + total) mtchSched
        (assignedSfs 0 (sched.map (·.stop)))
  /-- Something is sent if each MTCH with data can have a subframe. -/
  progress :
    let total := (mtchSched.map (·.lcidBufferSize)).sum
    0 < total → sfAllocEnd * bytesPerSf tbs ≤ total →
      nofWithData (mtchSched.map (·.lcidBufferSize)) ≤ sfAllocEnd →
        ∃ sfs ∈ assignedSfs 0 (sched.map (·.stop)), 0 < sfs

/-- The buffers that `build_mch_sched` handles: below the capacity their rounded sizes fit; from
there on one MTCH has everything, or there are too few subframes for each MTCH with data and the
proportion of none exceeds a subframe. -/
def BuffersFit (sfAllocEnd tbs : ℕ) (sizes : List ℕ) : Prop :=
  if 0 < sizes.sum ∧ sfAllocEnd * bytesPerSf tbs ≤ sizes.sum then
    nofWithData sizes ≤ 1 ∨
      sfAllocEnd < nofWithData sizes ∧ ∀ size ∈ sizes, sfAllocEnd * size ≤ sizes.sum
  else (sizes.map (neededSfs (bytesPerSf tbs))).sum ≤ sfAllocEnd

instance (sfAllocEnd tbs : ℕ) (sizes : List ℕ) : Decidable (BuffersFit sfAllocEnd tbs sizes) :=
  inferInstanceAs (Decidable (ite _ _ _))

section

variable {sfAllocEnd tbs : ℕ}

/-- The two branches of `build_mch_sched`, in subframes with room for data, if the sum of the buffer
sizes is an `int`. -/
theorem buildMchSched_eq (htbs : 6 < tbs / 8)
    (hint : (mtchSched.map (·.lcidBufferSize)).sum < 2 ^ 31) :
    buildMchSched sfAllocEnd tbs mtchSched =
      if 0 < (mtchSched.map (·.lcidBufferSize)).sum ∧
          sfAllocEnd * bytesPerSf tbs ≤ (mtchSched.map (·.lcidBufferSize)).sum then
        assignStops (fun size => sfAllocEnd * (size / (mtchSched.map (·.lcidBufferSize)).sum)) 0
          mtchSched
      else assignStops (neededSfs (bytesPerSf tbs)) 0 mtchSched := by
  have hbytes : (((tbs / 8 : ℕ) : ℤ) - 6) = (bytesPerSf tbs : ℤ) := by
    unfold bytesPerSf
    omega
  have htotal : (((mtchSched.map (·.lcidBufferSize)).sum : ℕ) : ℤ).bmod (2 ^ 32) =
      ((mtchSched.map (·.lcidBufferSize)).sum : ℕ) := by
    apply Int.bmod_eq_of_le <;> omega
  unfold buildMchSched
  simp only [hbytes, htotal, Int.toNat_natCast, gt_iff_lt]
  refine if_congr ?_ rfl rfl
  rw [← Int.natCast_mul, Int.natCast_pos, Int.ofNat_le]

/-- A schedule with the pieces `assigned`. -/
theorem periodShared_assignStops_iff (assigned : ℕ → ℕ)
    (hsizes : mtchSched.map (·.lcidBufferSize) = sizes) :
    PeriodShared sfAllocEnd tbs mtchSched (assignStops assigned 0 mtchSched) ↔
      (sizes.map assigned).sum ≤ sfAllocEnd ∧
      ((sizes.map (neededSfs (bytesPerSf tbs))).sum ≤ sfAllocEnd →
        ∀ size ∈ sizes, size ≤ assigned size * bytesPerSf tbs) ∧
      (0 < sizes.sum → sfAllocEnd * bytesPerSf tbs ≤ sizes.sum →
        (∀ size ∈ sizes, assigned size * sizes.sum ≤ sfAllocEnd * size + sizes.sum ∧
          sfAllocEnd * size ≤ assigned size * sizes.sum + sizes.sum) ∧
        (nofWithData sizes ≤ sfAllocEnd → ∃ size ∈ sizes, 0 < assigned size)) := by
  subst hsizes
  set sizes := mtchSched.map (·.lcidBufferSize)
  have hmap : ∀ f : ℕ → ℕ, sizes.map f = mtchSched.map fun mtch => f mtch.lcidBufferSize := by
    intro f
    rw [map_map]
    rfl
  have hforall : ∀ p : ℕ → ℕ → Prop,
      Forall₂ (fun mtch sfs => p mtch.lcidBufferSize sfs) mtchSched
        (mtchSched.map fun mtch => assigned mtch.lcidBufferSize) ↔
      ∀ size ∈ sizes, p size (assigned size) := by
    intro p
    rw [forall₂_map_right_iff, forall₂_same, forall_mem_map]
  constructor
  · intro h
    obtain ⟨-, hend, henough, hprop, hprogress⟩ := h
    rw [assignedSfs_assignStops] at henough hprop hprogress
    refine ⟨?_, ?_, ?_⟩
    · by_cases hne : mtchSched = []
      · simp [sizes, hne]
      · obtain ⟨mtch, hmtch, heq⟩ := exists_stop_eq_sum assigned 0 hne
        have hle := hend mtch hmtch
        rw [hmap]
        omega
    · intro hneeded
      rw [hmap] at hneeded
      exact (hforall fun size sfs => size ≤ sfs * bytesPerSf tbs).mp (henough hneeded)
    · intro hpos hcap
      refine ⟨(hforall fun size sfs => sfs * sizes.sum ≤ sfAllocEnd * size + sizes.sum ∧
        sfAllocEnd * size ≤ sfs * sizes.sum + sizes.sum).mp (hprop hpos hcap), ?_⟩
      intro hnof
      obtain ⟨sfs, hsfs, hgt⟩ := hprogress hpos hcap hnof
      obtain ⟨mtch, hmtch, rfl⟩ := mem_map.mp hsfs
      exact ⟨_, mem_map_of_mem hmtch, hgt⟩
  · rintro ⟨hsum, henough, hshare⟩
    refine ⟨(pairwise_assignStops _ _ _).1, ?_, ?_, ?_, ?_⟩
    · intro mtch hmtch
      have hle := stop_le_sum assigned 0 mtchSched mtch hmtch
      rw [hmap] at hsum
      omega
    · intro hneeded
      rw [assignedSfs_assignStops]
      rw [← hmap] at hneeded
      exact (hforall fun size sfs => size ≤ sfs * bytesPerSf tbs).mpr (henough hneeded)
    · intro total hpos hcap
      rw [assignedSfs_assignStops]
      exact (hforall fun size sfs => sfs * sizes.sum ≤ sfAllocEnd * size + sizes.sum ∧
        sfAllocEnd * size ≤ sfs * sizes.sum + sizes.sum).mpr (hshare hpos hcap).1
    · intro total hpos hcap hnof
      obtain ⟨size, hsize, hgt⟩ := (hshare hpos hcap).2 hnof
      obtain ⟨mtch, hmtch, rfl⟩ := mem_map.mp hsize
      rw [assignedSfs_assignStops]
      exact ⟨_, mem_map_of_mem hmtch, hgt⟩

theorem sum_ratio_le (sfAllocEnd : ℕ) (sizes : List ℕ) :
    (sizes.map fun size => sfAllocEnd * (size / sizes.sum)).sum ≤ sfAllocEnd := by
  have hmul : (sizes.map fun size => sfAllocEnd * (size / sizes.sum)).sum =
      sfAllocEnd * (sizes.map (· / sizes.sum)).sum := by
    rw [@List.sum_map_mul_left ℕ ℕ]
  rw [hmul]
  have hone : sizes.sum / sizes.sum ≤ 1 := by
    rcases eq_zero_or_pos sizes.sum with hzero | hpos
    · simp [hzero]
    · exact le_of_eq (Nat.div_self hpos)
  calc sfAllocEnd * (sizes.map (· / sizes.sum)).sum
      ≤ sfAllocEnd * 1 := Nat.mul_le_mul_left _ ((sum_div_le_div_sum sizes _).trans hone)
    _ = sfAllocEnd := mul_one _

/-- A period is exceeded by at most a subframe for each MTCH. -/
theorem stop_le_buildMchSched (sfAllocEnd : ℕ) (htbs : 6 < tbs / 8)
    (hint : (mtchSched.map (·.lcidBufferSize)).sum < 2 ^ 31) :
    ∀ mtch ∈ buildMchSched sfAllocEnd tbs mtchSched, mtch.stop ≤ sfAllocEnd + mtchSched.length := by
  intro mtch hmtch
  have hbytes : 0 < bytesPerSf tbs := by
    unfold bytesPerSf
    omega
  rw [buildMchSched_eq htbs hint] at hmtch
  split at hmtch
  · have hstop := stop_le_sum _ 0 mtchSched mtch hmtch
    have hsum := sum_ratio_le sfAllocEnd (mtchSched.map (·.lcidBufferSize))
    rw [map_map] at hsum
    simp only [Function.comp_def] at hsum
    omega
  · rename_i hunder
    have hstop := stop_le_sum _ 0 mtchSched mtch hmtch
    have hsum := sum_neededSfs_le hbytes (mtchSched.map (·.lcidBufferSize))
    have hdiv : (mtchSched.map (·.lcidBufferSize)).sum / bytesPerSf tbs ≤ sfAllocEnd := by
      refine Nat.div_le_of_le_mul ?_
      rw [mul_comm]
      omega
    rw [map_map, length_map] at hsum
    simp only [Function.comp_def] at hsum
    omega

theorem ratio_eq (hpos : 0 < sizes.sum) {size : ℕ} (hsize : size ∈ sizes) :
    size / sizes.sum = if size = sizes.sum then 1 else 0 := by
  have hle : size ≤ sizes.sum := le_sum_of_mem hsize
  split
  · rename_i heq
    rw [heq]
    exact Nat.div_self hpos
  · exact Nat.div_eq_of_lt (by omega)

theorem periodShared_ratio_iff (htbs : 6 < tbs / 8)
    (hsizes : mtchSched.map (·.lcidBufferSize) = sizes) (hpos : 0 < sizes.sum)
    (hcap : sfAllocEnd * bytesPerSf tbs ≤ sizes.sum) :
    PeriodShared sfAllocEnd tbs mtchSched
        (assignStops (fun size => sfAllocEnd * (size / sizes.sum)) 0 mtchSched) ↔
      nofWithData sizes ≤ 1 ∨
        sfAllocEnd < nofWithData sizes ∧ ∀ size ∈ sizes, sfAllocEnd * size ≤ sizes.sum := by
  have hbytes : 0 < bytesPerSf tbs := by
    unfold bytesPerSf
    omega
  rw [periodShared_assignStops_iff _ hsizes]
  by_cases hone : nofWithData sizes ≤ 1
  · -- one MTCH gets the whole period
    refine iff_of_true ⟨sum_ratio_le sfAllocEnd sizes, ?_, fun _ _ => ⟨?_, ?_⟩⟩ (.inl hone)
    · intro hneeded size hsize
      rcases eq_zero_or_sum_of_nofWithData_le_one hone hsize with rfl | heq
      · omega
      · have hle := (le_sum_of_mem (mem_map_of_mem hsize)).trans hneeded
        rw [ratio_eq hpos hsize, if_pos heq, mul_one]
        exact (le_neededSfs_mul hbytes size).trans (Nat.mul_le_mul_right _ hle)
    · intro size hsize
      rcases eq_zero_or_sum_of_nofWithData_le_one hone hsize with rfl | heq
      · simp
      · rw [ratio_eq hpos hsize, if_pos heq, mul_one, heq]
        omega
    · intro hnof
      have hsome := nofWithData_pos hpos
      obtain ⟨size, hsize⟩ := exists_mem_of_length_pos hsome
      obtain ⟨hsize, hgt⟩ := mem_filter.mp hsize
      have hgt : 0 < size := by simpa using hgt
      refine ⟨size, hsize, ?_⟩
      rcases eq_zero_or_sum_of_nofWithData_le_one hone hsize with hzero | heq
      · omega
      · rw [ratio_eq hpos hsize, if_pos heq, mul_one]
        omega
  · -- the ratio is zero for each of them
    have hratio : ∀ size ∈ sizes, sfAllocEnd * (size / sizes.sum) = 0 := by
      intro size hsize
      have hlt := lt_sum_of_one_lt_nofWithData (Nat.lt_of_not_le hone) hsize
      rw [ratio_eq hpos hsize, if_neg (ne_of_lt hlt), mul_zero]
    constructor
    · rintro ⟨-, -, hshare⟩
      obtain ⟨hprop, hprogress⟩ := hshare hpos hcap
      refine .inr ⟨?_, ?_⟩
      · by_contra hle
        obtain ⟨size, hsize, hgt⟩ := hprogress (Nat.le_of_not_lt hle)
        rw [hratio size hsize] at hgt
        cases hgt
      · intro size hsize
        have hle := (hprop size hsize).2
        rwa [hratio size hsize, zero_mul, zero_add] at hle
    · rintro (hle | ⟨hlt, hshare⟩)
      · omega
      · refine ⟨sum_ratio_le sfAllocEnd sizes, ?_, fun _ _ => ⟨?_, ?_⟩⟩
        · intro hneeded
          have hle := nofWithData_le_sum_neededSfs hbytes sizes
          omega
        · intro size hsize
          rw [hratio size hsize, zero_mul, zero_add]
          exact ⟨Nat.zero_le _, hshare size hsize⟩
        omega

theorem periodShared_needed_iff (htbs : 6 < tbs / 8) (mtchSched : List DlMtchSched)
    (hunder : ¬ (0 < (mtchSched.map (·.lcidBufferSize)).sum ∧
      sfAllocEnd * bytesPerSf tbs ≤ (mtchSched.map (·.lcidBufferSize)).sum)) :
    PeriodShared sfAllocEnd tbs mtchSched (assignStops (neededSfs (bytesPerSf tbs)) 0 mtchSched) ↔
      ((mtchSched.map (·.lcidBufferSize)).map (neededSfs (bytesPerSf tbs))).sum ≤ sfAllocEnd := by
  have hbytes : 0 < bytesPerSf tbs := by
    unfold bytesPerSf
    omega
  rw [periodShared_assignStops_iff _ rfl]
  constructor
  · omega
  · intro hsum
    refine ⟨hsum, fun _ size _ => le_neededSfs_mul hbytes size, ?_⟩
    omega

/-- The buffers for which `build_mch_sched` shares the period among the MTCHs. -/
theorem periodShared_buildMchSched_iff (sfAllocEnd : ℕ) {tbs : ℕ} (htbs : 6 < tbs / 8)
    (mtchSched : List DlMtchSched) (hint : (mtchSched.map (·.lcidBufferSize)).sum < 2 ^ 31) :
    PeriodShared sfAllocEnd tbs mtchSched (buildMchSched sfAllocEnd tbs mtchSched) ↔
      BuffersFit sfAllocEnd tbs (mtchSched.map (·.lcidBufferSize)) := by
  rw [buildMchSched_eq htbs hint]
  unfold BuffersFit
  split
  · rename_i hover
    exact periodShared_ratio_iff htbs rfl hover.1 hover.2
  · rename_i hunder
    exact periodShared_needed_iff htbs mtchSched hunder

/-- Two MTCHs with 100 and 0 bytes in subframes of 50 bytes. -/
theorem periodShared_buildMchSched_of_two :
    PeriodShared 2 448 [⟨⟨1, by decide⟩, 100, 0⟩, ⟨⟨2, by decide⟩, 0, 0⟩]
      (buildMchSched 2 448 [⟨⟨1, by decide⟩, 100, 0⟩, ⟨⟨2, by decide⟩, 0, 0⟩]) :=
  (periodShared_buildMchSched_iff 2 (by decide) _ (by decide)).mpr (by decide)

/-- Two MTCHs that fill the period get nothing, and two that do not may get more than it has. -/
theorem not_periodShared_buildMchSched :
    ¬ PeriodShared 10 448 [⟨⟨1, by decide⟩, 300, 0⟩, ⟨⟨2, by decide⟩, 300, 0⟩]
        (buildMchSched 10 448 [⟨⟨1, by decide⟩, 300, 0⟩, ⟨⟨2, by decide⟩, 300, 0⟩]) ∧
      ¬ PeriodShared 3 448 [⟨⟨1, by decide⟩, 51, 0⟩, ⟨⟨2, by decide⟩, 51, 0⟩]
        (buildMchSched 3 448 [⟨⟨1, by decide⟩, 51, 0⟩, ⟨⟨2, by decide⟩, 51, 0⟩]) := by
  constructor
  · intro h
    obtain ⟨sfs, hsfs, hpos⟩ := h.progress (by decide) (by decide) (by decide)
    have hzero : ∀ sfs ∈ assignedSfs 0 ((buildMchSched 10 448
        [⟨⟨1, by decide⟩, 300, 0⟩, ⟨⟨2, by decide⟩, 300, 0⟩]).map (·.stop)), sfs = 0 := by
      decide
    exact ne_of_gt hpos (hzero sfs hsfs)
  · intro h
    have hend := h.le_end ⟨⟨2, by decide⟩, 51, 4⟩ (by decide)
    exact absurd hend (by decide)

end

end MbmsTx.Mac
