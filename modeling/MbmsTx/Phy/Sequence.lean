import Mathlib.Data.List.Induction
import Mathlib.Logic.Function.Iterate
import MbmsTx.Lib.Lfsr
import MbmsTx.Phy.Fec.Bit

/-!
# The pseudo-random sequence

`sequence.c` keeps two registers with windows of 31 elements of two recurrences. The windows after
1600 elements are computed once for every bit of the seed and then only added. A call produces 24
elements in a step as long as so many are left, and then single ones.

All calls go through one loop (`generate`), so a call produces the next elements of the sequence
wherever the calls before it stopped (`generate_spec`).
-/

namespace MbmsTx.Phy.Sequence

open Lfsr Memory Fec Recurrence Function
open BitVec (slt getLsbD_xor getLsbD_ushiftRight twoPow_eq twoPow and_twoPow)

/-! ## The functions of the source -/

/-- `SEQUENCE_SEED_LEN` -/
def seedLen : ℕ := 31

/-- `SEQUENCE_NC` -/
def nc : ℕ := 1600

/-- `SEQUENCE_PAR_BITS` -/
def parBits : ℕ := 24

/-- Shift a register by some places and insert the feedback. -/
def insertFeedback (bits : ℕ) (mask state f : BitVec 32) : BitVec 32 :=
  (state >>> bits) ^^^ ((f &&& mask) <<< (seedLen - bits))

/-- The feedback of the first register. -/
def feedbackX1 (state : BitVec 32) : BitVec 32 := state ^^^ (state >>> 3)

/-- The feedback of the second register. -/
def feedbackX2 (state : BitVec 32) : BitVec 32 :=
  state ^^^ (state >>> 1) ^^^ (state >>> 2) ^^^ (state >>> 3)

/-- `sequence_gen_LTE_pr_memless_step_par_x1` -/
def stepParX1 (state : BitVec 32) : BitVec 32 :=
  insertFeedback parBits ((1#32 <<< parBits) - 1#32) state (feedbackX1 state)

/-- `sequence_gen_LTE_pr_memless_step_x1` -/
def stepX1 (state : BitVec 32) : BitVec 32 := insertFeedback 1 1#32 state (feedbackX1 state)

/-- `sequence_gen_LTE_pr_memless_step_par_x2` -/
def stepParX2 (state : BitVec 32) : BitVec 32 :=
  insertFeedback parBits ((1#32 <<< parBits) - 1#32) state (feedbackX2 state)

/-- `sequence_gen_LTE_pr_memless_step_x2` -/
def stepX2 (state : BitVec 32) : BitVec 32 := insertFeedback 1 1#32 state (feedbackX2 state)

/-- `sequence_x1_init`, as `srsran_lte_pr_pregen` leaves it. -/
def sequenceX1Init : BitVec 32 := stepX1^[nc] 1#32

/-- `sequence_x2_init`, as `srsran_lte_pr_pregen` leaves it. -/
def sequenceX2Init (i : ℕ) : BitVec 32 := stepX2^[nc] (1#32 <<< i)

def sequenceGetX2Init (seed : BitVec 32) : BitVec 32 :=
  (List.range seedLen).foldl (fun x2 i =>
    if (seed >>> i) &&& 1#32 ≠ 0#32 then x2 ^^^ sequenceX2Init i else x2) 0#32

/-- `srsran_sequence_state_t` -/
structure State where
  x1 : BitVec 32
  x2 : BitVec 32

namespace State

/-- `srsran_sequence_state_init` -/
def init (seed : BitVec 32) : State := ⟨sequenceX1Init, sequenceGetX2Init seed⟩

theorem init_x1 (seed : BitVec 32) : (init seed).x1 = sequenceX1Init := by rw [init]

theorem init_x2 (seed : BitVec 32) : (init seed).x2 = sequenceGetX2Init seed := by rw [init]

def stepPar (s : State) : State := ⟨stepParX1 s.x1, stepParX2 s.x2⟩

def step (s : State) : State := ⟨stepX1 s.x1, stepX2 s.x2⟩

end State

section Generate

variable {α : Type*}

/-- The loops of all calls: steps of 24 elements for `i = 0, 24, …` below `length - 23`, then single
ones. `par` and `single` are what a call does with the elements from `i` on. -/
def generate (par single : ℕ → BitVec 32 → α → α) (s : State) (length : ℕ) (out : α) : State × α :=
  let blocks := if parBits ≤ length then
    (length - (parBits - 1) + (parBits - 1)) / parBits else 0
  let p := (List.range blocks).foldl (fun p k =>
    (p.1.stepPar, par (parBits * k) (p.1.x1 ^^^ p.1.x2) p.2)) (s, out)
  (List.range' (parBits * blocks) (length - parBits * blocks)).foldl (fun p i =>
    (p.1.step, single i (p.1.x1 ^^^ p.1.x2) p.2)) p

end Generate

def sequenceGenLtePr (pr : ℕ → BitVec 8) (len : ℕ) (seed : BitVec 32) : ℕ → BitVec 8 :=
  (generate
    (fun n c pr => (List.range parBits).foldl (fun pr i =>
      update pr (n + i) (((c >>> i) &&& 1#32).setWidth 8)) pr)
    (fun n c pr => update pr n ((c &&& 1#32).setWidth 8)) (State.init seed) len pr).2

/-- `srsran_sequence_state_advance` -/
def stateAdvance (s : State) (length : ℕ) : State :=
  (generate (fun _ _ out => out) (fun _ _ out => out) s length ()).1

/-- What a call stores for 24 elements: the vector code does the first `done`, the generic code the
others. -/
def storeBlock {β : Type*} (sse : Bool) (done : ℕ) (vec gen : ℕ → β) (i : ℕ)
    (out : ℕ → β) : ℕ → β :=
  let j := if sse then done else 0
  let out := (List.range j).foldl (fun out l => update out (i + l) (vec l)) out
  (List.range' j (parBits - j)).foldl (fun out j => update out (i + j) (gen j)) out

/-- `srsran_sequence_state_apply_f`; the vectors have four lanes. Values are the bits of floats. -/
def stateApplyF (sse : Bool) (s : State) (input out : ℕ → BitVec 32) (length : ℕ) :
    State × (ℕ → BitVec 32) :=
  generate
    (fun i c out => storeBlock sse parBits
      (fun l => input (i + l) ^^^
        (if slt 0#32 ((c >>> (4 * (l / 4))) &&& (1#32 <<< (l % 4))) then 0x80000000#32
          else 0#32))
      (fun j => input (i + j) ^^^ ((c <<< (31 - j)) &&& 0x80000000#32)) i out)
    (fun i c out => update out i (input i ^^^ (c <<< 31))) s length out

/-- `srsran_sequence_state_gen_f`: the same with one value in place of the input. -/
def stateGenF (sse : Bool) (s : State) (value : BitVec 32) (out : ℕ → BitVec 32) (length : ℕ) :
    State × (ℕ → BitVec 32) := stateApplyF sse s (fun _ => value) out length

/-- The mask of a lane: all ones if its bit of `c` is set. -/
def laneMask (c : BitVec 32) (l : ℕ) : BitVec 8 :=
  let bit := 1#8 <<< (l % 8)
  if (c >>> (8 * (l / 8))).setWidth 8 &&& bit = bit then 0xff#8 else 0#8

/-- `srsran_sequence_state_apply_c` -/
def stateApplyC (sse : Bool) (s : State) (input out : ℕ → BitVec 8) (length : ℕ) :
    State × (ℕ → BitVec 8) :=
  generate
    (fun i c out => storeBlock sse 16
      (fun l => (laneMask c l ^^^ input (i + l)) + (laneMask c l &&& 1#8))
      (fun j => input (i + j) * (if (c >>> j) &&& 1#32 ≠ 0#32 then -1#8 else 1#8)) i out)
    (fun i c out =>
      update out i (input i * (if c &&& 1#32 ≠ 0#32 then -1#8 else 1#8))) s length out

/-- `srsran_sequence_state_apply_bit` -/
def stateApplyBit (sse : Bool) (s : State) (input out : ℕ → BitVec 8) (length : ℕ) :
    State × (ℕ → BitVec 8) :=
  generate
    (fun i c out => storeBlock sse 16
      (fun l => (laneMask c l &&& 1#8) ^^^ input (i + l))
      (fun j => input (i + j) ^^^ ((c >>> j) &&& 1#32).setWidth 8) i out)
    (fun i c out => update out i (input i ^^^ (c &&& 1#32).setWidth 8)) s length out

/-! ## The sequence -/

/-- `x1(n + 31) = x1(n + 3) + x1(n)` -/
def recurrenceX1 : Recurrence := ⟨seedLen, [⟨3, by decide⟩, ⟨0, by decide⟩]⟩

/-- `x2(n + 31) = x2(n + 3) + x2(n + 2) + x2(n + 1) + x2(n)` -/
def recurrenceX2 : Recurrence :=
  ⟨seedLen, [⟨3, by decide⟩, ⟨2, by decide⟩, ⟨1, by decide⟩, ⟨0, by decide⟩]⟩

/-- The sequence of the seed with only its first element 1. -/
def x1 (n : ℕ) : Bool := recurrenceX1.seq (fun i => decide (i = 0)) n

/-- The sequence that starts with the bits of the seed. -/
def x2 (seed : BitVec 32) (n : ℕ) : Bool := recurrenceX2.seq seed.getLsbD n

/-- The pseudo-random sequence of a seed. -/
def prSequence (seed : BitVec 32) (n : ℕ) : Bool := x1 (n + nc) ^^ x2 seed (n + nc)

theorem seq_recurrenceX1 (seed : ℕ → Bool) (n : ℕ) : recurrenceX1.seq seed (n + seedLen) =
    (recurrenceX1.seq seed (n + 3) ^^ recurrenceX1.seq seed n) := by
  refine (recurrenceX1.seq_add seed n).trans ?_
  simp [recurrenceX1]

theorem seq_recurrenceX2 (seed : ℕ → Bool) (n : ℕ) : recurrenceX2.seq seed (n + seedLen) =
    (recurrenceX2.seq seed (n + 3) ^^ recurrenceX2.seq seed (n + 2) ^^
      recurrenceX2.seq seed (n + 1) ^^ recurrenceX2.seq seed n) := by
  refine (recurrenceX2.seq_add seed n).trans ?_
  simp [recurrenceX2]

/-! ## The registers -/

section Registers

variable {seed : ℕ → Bool} {n k : ℕ} {w mask : BitVec 32}

theorem window_insertFeedback_x1 (h : Window seedLen (recurrenceX1.seq seed) n w) (hk : k ≤ 28)
    (hmask : ∀ i, mask.getLsbD i = decide (i < k)) :
    Window seedLen (recurrenceX1.seq seed) (n + k) (insertFeedback k mask w (feedbackX1 w)) := by
  refine h.shift (by decide) (by rw [seedLen]; omega) ?_ hmask
  intro i hi
  have hidx : n + seedLen + i = n + i + seedLen := by omega
  have hthree : n + (3 + i) = n + i + 3 := by omega
  rw [feedbackX1, getLsbD_xor, getLsbD_ushiftRight, hidx, seq_recurrenceX1,
    h.getLsbD (by rw [seedLen]; omega), h.getLsbD (by rw [seedLen]; omega), hthree, Bool.xor_comm]

theorem window_insertFeedback_x2 (h : Window seedLen (recurrenceX2.seq seed) n w) (hk : k ≤ 28)
    (hmask : ∀ i, mask.getLsbD i = decide (i < k)) :
    Window seedLen (recurrenceX2.seq seed) (n + k) (insertFeedback k mask w (feedbackX2 w)) := by
  refine h.shift (by decide) (by rw [seedLen]; omega) ?_ hmask
  intro i hi
  have hidx : n + seedLen + i = n + i + seedLen := by omega
  have hplace : ∀ t, n + (t + i) = n + i + t := by omega
  simp only [feedbackX2, getLsbD_xor, getLsbD_ushiftRight]
  rw [hidx, seq_recurrenceX2, h.getLsbD (by rw [seedLen]; omega),
    h.getLsbD (by rw [seedLen]; omega), h.getLsbD (by rw [seedLen]; omega),
    h.getLsbD (by rw [seedLen]; omega), hplace, hplace, hplace]
  cases recurrenceX2.seq seed (n + i) <;> cases recurrenceX2.seq seed (n + i + 1) <;>
    cases recurrenceX2.seq seed (n + i + 2) <;> cases recurrenceX2.seq seed (n + i + 3) <;> rfl

theorem getLsbD_parMask (i : ℕ) : ((1#32 <<< parBits) - 1#32).getLsbD i = decide (i < parBits) := by
  have hall : ∀ i < 32, ((1#32 <<< parBits) - 1#32).getLsbD i = decide (i < parBits) := by decide
  rcases lt_or_ge i 32 with hlt | hge
  · exact hall i hlt
  · rw [BitVec.getLsbD_of_ge _ _ hge, decide_eq_false (by rw [parBits]; omega)]

theorem getLsbD_singleMask (i : ℕ) : (1#32).getLsbD i = decide (i < 1) := by
  simp

theorem window_single {r : Recurrence} (hr : r.length = seedLen) {i : ℕ} (hi : i < seedLen) :
    Window seedLen (r.seq fun k => decide (k = i)) 0 (1#32 <<< i) := by
  intro k
  rw [zero_add, ← twoPow_eq, BitVec.getLsbD_twoPow]
  rw [seedLen] at hi ⊢
  by_cases hk : k < 31
  · rw [seq_of_lt (by rwa [hr, seedLen]), decide_eq_true hk]
    simp [show i < 32 by omega, eq_comm]
  · simp [hk, show i ≠ k by omega]

theorem window_iterate {x : ℕ → Bool} {f : BitVec 32 → BitVec 32}
    (hf : ∀ n w, Window seedLen x n w → Window seedLen x (n + 1) (f w)) (m : ℕ)
    (h : Window seedLen x n w) : Window seedLen x (n + m) (f^[m] w) := by
  induction m with
  | zero => exact h
  | succ m ih =>
    rw [iterate_succ_apply']
    exact hf _ _ ih

theorem window_sequenceX1Init : Window seedLen x1 nc sequenceX1Init := by
  have hstart : Window seedLen x1 0 1#32 := window_single rfl (by decide)
  have hmoved := window_iterate
    (fun _ _ h => window_insertFeedback_x1 h (by decide) getLsbD_singleMask) nc hstart
  assumption

theorem and_one_ne_zero (v : BitVec 32) : v &&& 1#32 ≠ 0#32 ↔ v.getLsbD 0 := by
  rw [BitVec.and_one_eq_setWidth_ofBool_getLsbD]
  cases v.getLsbD 0 <;> decide

theorem seq_decide_lt_succ (r : Recurrence) (b : ℕ → Bool) (i n : ℕ) :
    r.seq (fun k => decide (k < i + 1) && b k) n =
      (r.seq (fun k => decide (k < i) && b k) n ^^ (b i && r.seq (fun k => decide (k = i)) n)) := by
  have hsplit : (fun k => decide (k < i + 1) && b k) =
      fun k => (decide (k < i) && b k) ^^ (decide (k = i) && b i) := by
    funext k
    rcases lt_trichotomy k i with hlt | rfl | hgt
    · simp [hlt, show k < i + 1 by omega, show k ≠ i by omega]
    · simp
    · simp [show ¬ k < i by omega, show ¬ k < i + 1 by omega, show k ≠ i by omega]
  rw [hsplit, seq_xor]
  cases b i
  · simp [seq_zero]
  · simp

theorem window_sequenceGetX2Init (seed : BitVec 32) :
    Window seedLen (x2 seed) nc (sequenceGetX2Init seed) := by
  have hloop : Window seedLen
      (recurrenceX2.seq fun k => decide (k < seedLen) && seed.getLsbD k) nc
      (sequenceGetX2Init seed) := by
    refine Blocks.foldl_range (P := fun i (acc : BitVec 32) => Window seedLen
      (recurrenceX2.seq fun k => decide (k < i) && seed.getLsbD k) nc acc) ?_ ?_
    · intro acc i hi h
      have hone : Window seedLen (recurrenceX2.seq fun k => decide (k = i)) nc
          (sequenceX2Init i) := by
        have hmoved := window_iterate (fun _ _ h => window_insertFeedback_x2 h (by decide)
          getLsbD_singleMask) nc (window_single rfl hi)
        assumption
      have hsum := funext (seq_decide_lt_succ recurrenceX2 seed.getLsbD i)
      simp only [hsum, and_one_ne_zero, getLsbD_ushiftRight, add_zero]
      cases seed.getLsbD i
      · simpa using h
      · simpa using h.xor hone
    · intro k
      simp [seq_zero]
  have hseed : ∀ i < recurrenceX2.length,
      (decide (i < seedLen) && seed.getLsbD i) = seed.getLsbD i := by
    intro i hi
    rw [decide_eq_true (show i < seedLen from hi), Bool.true_and]
  intro k
  rw [hloop k, x2, seq_congr hseed]

end Registers

/-! ## Generating -/

/-- The registers hold what follows the first `n` elements. -/
structure Follows (seed : BitVec 32) (n : ℕ) (s : State) : Prop where
  x1 : Window seedLen x1 (n + nc) s.x1
  x2 : Window seedLen (x2 seed) (n + nc) s.x2

section Follows

variable {seed : BitVec 32} {n : ℕ} {s : State}

theorem follows_init (seed : BitVec 32) : Follows seed 0 (State.init seed) := by
  refine ⟨?_, ?_⟩
  · rw [zero_add, State.init_x1]
    exact window_sequenceX1Init
  · rw [zero_add, State.init_x2]
    exact window_sequenceGetX2Init seed

variable (h : Follows seed n s)
include h

theorem Follows.insertFeedback {k : ℕ} {mask : BitVec 32} (hk : k ≤ 28)
    (hmask : ∀ i, mask.getLsbD i = decide (i < k)) :
    Follows seed (n + k) ⟨insertFeedback k mask s.x1 (feedbackX1 s.x1),
      insertFeedback k mask s.x2 (feedbackX2 s.x2)⟩ := by
  have hidx : n + k + nc = n + nc + k := by omega
  refine ⟨?_, ?_⟩
  · rw [hidx]
    exact window_insertFeedback_x1 h.x1 hk hmask
  · rw [hidx]
    exact window_insertFeedback_x2 h.x2 hk hmask

theorem Follows.step : Follows seed (n + 1) s.step :=
  h.insertFeedback (by decide) getLsbD_singleMask

theorem Follows.getLsbD {j : ℕ} (hj : j < seedLen) :
    (s.x1 ^^^ s.x2).getLsbD j = prSequence seed (n + j) := by
  have hidx : n + nc + j = n + j + nc := by omega
  rw [getLsbD_xor, h.x1.getLsbD hj, h.x2.getLsbD hj, prSequence, hidx]

/-- A call after `n` elements takes the next ones: an invariant of what it has done with the
elements holds at its end. -/
theorem generate_spec {α : Type*} {par single : ℕ → BitVec 32 → α → α} {P : ℕ → α → Prop}
    (length : ℕ) {out : α} (hout : P 0 out)
    (hpar : ∀ i c out, (∀ j < parBits, c.getLsbD j = prSequence seed (n + (i + j))) → P i out →
      P (i + parBits) (par i c out))
    (hsingle : ∀ i c out, c.getLsbD 0 = prSequence seed (n + i) → P i out →
      P (i + 1) (single i c out)) :
    Follows seed (n + length) (generate par single s length out).1 ∧
      P length (generate par single s length out).2 := by
  obtain ⟨blocks, hblocks⟩ : ∃ blocks, (if parBits ≤ length then
    (length - (parBits - 1) + (parBits - 1)) / parBits else 0) = blocks := ⟨_, rfl⟩
  have hle : parBits * blocks ≤ length := by
    rw [← hblocks, parBits]
    split <;> omega
  rw [generate, hblocks]
  have hfirst := Blocks.foldl_range (n := blocks) (s := (s, out))
    (P := fun k (p : State × α) => Follows seed (n + parBits * k) p.1 ∧ P (parBits * k) p.2)
    (f := fun p k => (p.1.stepPar, par (parBits * k) (p.1.x1 ^^^ p.1.x2) p.2)) ?_ ⟨h, hout⟩
  · have hrest := Blocks.foldl_range_from (n := length - parBits * blocks)
      (P := fun i (p : State × α) => Follows seed (n + i) p.1 ∧ P i p.2)
      (f := fun p i => (p.1.step, single i (p.1.x1 ^^^ p.1.x2) p.2)) ?_ hfirst
    · rwa [Nat.add_sub_cancel' hle] at hrest
    · rintro ⟨s, out⟩ i ⟨hs, hout⟩
      exact ⟨hs.step, hsingle i _ out (hs.getLsbD (by decide)) hout⟩
  · rintro ⟨s, out⟩ k _ ⟨hs, hout⟩
    rw [Nat.mul_succ]
    refine ⟨hs.insertFeedback (by decide) getLsbD_parMask, hpar _ _ out ?_ hout⟩
    intro j hj
    rw [hs.getLsbD (by rw [seedLen]; rw [parBits] at hj; omega), add_assoc]

/-- A call took the next elements and stored a value for each. -/
def Stored {β : Type*} (seed : BitVec 32) (n length : ℕ) (value : ℕ → Bool → β) (out : ℕ → β)
    (r : State × (ℕ → β)) : Prop :=
  Follows seed (n + length) r.1 ∧
    ∀ k, r.2 k = if k < length then value k (prSequence seed (n + k)) else out k

theorem generate_store {β : Type*} {p q : ℕ → BitVec 32 → (ℕ → β) → ℕ → β}
    (value : ℕ → Bool → β) (length : ℕ) (out : ℕ → β)
    (hpar : ∀ i c out k, p i c out k =
      if i ≤ k ∧ k < i + parBits then value k (c.getLsbD (k - i)) else out k)
    (hsingle : ∀ i c out, q i c out = update out i (value i (c.getLsbD 0))) :
    Stored seed n length value out (generate p q s length out) := by
  refine generate_spec h length
    (P := fun i (mem : ℕ → β) => ∀ k, mem k =
      if k < i then value k (prSequence seed (n + k)) else out k) ?_ ?_ ?_
  · simp
  · intro i c mem hc hmem k
    rw [hpar, hmem]
    by_cases hin : i ≤ k ∧ k < i + parBits
    · have hidx : i + (k - i) = k := by omega
      rw [if_pos hin, if_pos hin.2, hc _ (by omega), hidx]
    · have hpos : 0 < parBits := by decide
      rw [if_neg hin]
      exact if_congr (by omega) rfl rfl
  · intro i c mem hc hmem k
    rw [hsingle]
    by_cases hk : k = i
    · rw [hk, update_self, if_pos (Nat.lt_succ_self i), hc]
    · rw [update_of_ne hk, hmem]
      exact if_congr (by omega) rfl rfl

omit h in
theorem storeBlock_apply {β : Type*} (sse : Bool) {done : ℕ} (hdone : done ≤ parBits)
    {vec gen g : ℕ → β} {i : ℕ} (hvec : ∀ l < done, vec l = g (i + l))
    (hgen : ∀ j < parBits, gen j = g (i + j)) (out : ℕ → β) (k : ℕ) :
    storeBlock sse done vec gen i out k = if i ≤ k ∧ k < i + parBits then g k else out k := by
  obtain ⟨j, hj⟩ : ∃ j, (if sse = true then done else 0) = j := ⟨_, rfl⟩
  have hjle : j ≤ done := by
    rw [← hj]
    split <;> omega
  have hgo : ∀ (mem : ℕ → β), (List.range' j (parBits - j)).foldl
      (fun out j => update out (i + j) (gen j)) mem k =
        if i + j ≤ k ∧ k < i + j + (parBits - j) then gen (j + (k - (i + j))) else mem k := by
    intro mem
    rw [List.range'_eq_map_range, List.foldl_map]
    simp only [← add_assoc]
    exact foldl_update_add (fun t => gen (j + t)) mem (i + j) (parBits - j) k
  rw [storeBlock, hj, hgo, foldl_update_add]
  by_cases hlow : i ≤ k ∧ k < i + j
  · have hidx : i + (k - i) = k := by omega
    rw [if_neg (by omega), if_pos hlow, if_pos (by omega), hvec _ (by omega), hidx]
  by_cases hhigh : i + j ≤ k ∧ k < i + j + (parBits - j)
  · have hidx : i + (j + (k - (i + j))) = k := by omega
    rw [if_pos hhigh, if_pos (by omega), hgen _ (by omega), hidx]
  · rw [if_neg hhigh, if_neg hlow, if_neg (by omega)]

end Follows

/-! ## The calls -/

section Calls

variable {seed : BitVec 32} {n : ℕ} {s : State}

theorem setWidth_and_one (v : BitVec 32) : (v &&& 1#32).setWidth 8 = toBit (v.getLsbD 0) := by
  rw [BitVec.and_one_eq_setWidth_ofBool_getLsbD]
  cases v.getLsbD 0 <;> decide

/-- A float with its sign changed if the bit is set. -/
def flipSign (v : BitVec 32) (b : Bool) : BitVec 32 := v ^^^ (if b then 0x80000000#32 else 0#32)

/-- A number that is negated if the bit is set. -/
def negateIf (v : BitVec 8) (b : Bool) : BitVec 8 := if b then -v else v

/-- `sequence_gen_LTE_pr` writes the sequence. -/
theorem sequenceGenLtePr_apply (pr : ℕ → BitVec 8) (len : ℕ) (seed : BitVec 32) (k : ℕ) :
    sequenceGenLtePr pr len seed k = if k < len then toBit (prSequence seed k) else pr k := by
  have hspec := (generate_store (follows_init seed) (fun _ b => toBit b) len pr
    (p := fun n c pr => (List.range parBits).foldl (fun pr i =>
      update pr (n + i) (((c >>> i) &&& 1#32).setWidth 8)) pr)
    (q := fun n c pr => update pr n ((c &&& 1#32).setWidth 8)) ?_ ?_).2 k
  · rwa [zero_add] at hspec
  · intro i c out k
    rw [foldl_update_add, setWidth_and_one, getLsbD_ushiftRight, add_zero]
  · intro i c out
    rw [setWidth_and_one]

theorem follows_stateAdvance (h : Follows seed n s) (length : ℕ) :
    Follows seed (n + length) (stateAdvance s length) :=
  (generate_spec h (P := fun _ _ => True) length trivial (fun _ _ _ _ _ => trivial)
    fun _ _ _ _ _ => trivial).1

theorem flipSign_lane (v c : BitVec 32) (l : ℕ) :
    (v ^^^ (if slt 0#32 ((c >>> (4 * (l / 4))) &&& (1#32 <<< (l % 4))) then 0x80000000#32
      else 0#32)) = flipSign v (c.getLsbD l) := by
  have hpos : ∀ j < 4, slt 0#32 (twoPow 32 j) := by decide
  have hidx : 4 * (l / 4) + l % 4 = l := Nat.div_add_mod l 4
  rw [← twoPow_eq, and_twoPow, getLsbD_ushiftRight, hidx, flipSign]
  cases c.getLsbD l
  · rfl
  · simp [hpos _ (Nat.mod_lt l (by decide))]

theorem flipSign_shift (v c : BitVec 32) {j : ℕ} (hj : j < 32) :
    v ^^^ ((c <<< (31 - j)) &&& 0x80000000#32) = flipSign v (c.getLsbD j) := by
  have hidx : 31 - (31 - j) = j := by omega
  have htop : 0x80000000#32 = twoPow 32 31 := rfl
  rw [flipSign, htop, and_twoPow, BitVec.getLsbD_shiftLeft, hidx,
    decide_eq_false (by omega : ¬ 31 < 31 - j)]
  simp

theorem stateApplyF_spec (h : Follows seed n s) (sse : Bool) (input out : ℕ → BitVec 32)
    (length : ℕ) : Stored seed n length (fun k b => flipSign (input k) b) out
      (stateApplyF sse s input out length) := by
  refine generate_store h _ length out ?_ ?_
  · intro i c out k
    refine storeBlock_apply sse le_rfl
      (g := fun k => flipSign (input k) (c.getLsbD (k - i))) ?_ ?_ out k
    · intro l hl
      rw [flipSign_lane, Nat.add_sub_cancel_left]
    · intro j hj
      rw [flipSign_shift _ _ (by rw [parBits] at hj; omega), Nat.add_sub_cancel_left]
  · intro i c out
    have hlast : c <<< 31 = (c <<< (31 - 0)) &&& 0x80000000#32 := by
      have hbit : ∀ j < 32, (0x80000000#32).getLsbD j = decide (31 ≤ j) := by decide
      refine BitVec.eq_of_getLsbD_eq ?_
      intro j hj
      rw [BitVec.getLsbD_and, hbit j hj, BitVec.getLsbD_shiftLeft]
      by_cases hlow : j < 31
      · simp [hlow]
      · simp [hlow, show 31 ≤ j by omega]
    rw [hlast, flipSign_shift _ _ (by decide)]

theorem laneMask_eq (c : BitVec 32) (l : ℕ) :
    laneMask c l = if c.getLsbD l then 0xff#8 else 0#8 := by
  have hidx : 8 * (l / 8) + l % 8 = l := Nat.div_add_mod l 8
  have hne : ∀ j < 8, 0#8 ≠ twoPow 8 j := by decide
  rw [laneMask, ← twoPow_eq, and_twoPow, BitVec.getLsbD_setWidth,
    getLsbD_ushiftRight, hidx, decide_eq_true (Nat.mod_lt l (by decide)), Bool.true_and]
  cases c.getLsbD l
  · simp [hne _ (Nat.mod_lt l (by decide))]
  · simp

theorem stateApplyC_spec (h : Follows seed n s) (sse : Bool) (input out : ℕ → BitVec 8)
    (length : ℕ) : Stored seed n length (fun k b => negateIf (input k) b) out
      (stateApplyC sse s input out length) := by
  have hvec : ∀ (v : BitVec 8) (b : Bool),
      ((if b then 0xff#8 else 0#8) ^^^ v) + ((if b then 0xff#8 else 0#8) &&& 1#8) =
        negateIf v b := by decide
  have hgen : ∀ (v : BitVec 8) (b : Bool), v * (if b = true then -1#8 else 1#8) =
      negateIf v b := by decide
  refine generate_store h _ length out ?_ ?_
  · intro i c out k
    refine storeBlock_apply sse (by decide)
      (g := fun k => negateIf (input k) (c.getLsbD (k - i))) ?_ ?_ out k
    · intro l hl
      rw [laneMask_eq, hvec, Nat.add_sub_cancel_left]
    · intro j hj
      simp only [and_one_ne_zero, getLsbD_ushiftRight, add_zero, hgen,
        Nat.add_sub_cancel_left]
  · intro i c out
    simp only [and_one_ne_zero, hgen]

theorem stateApplyBit_spec (h : Follows seed n s) (sse : Bool) (input out : ℕ → BitVec 8)
    (length : ℕ) : Stored seed n length (fun k b => input k ^^^ toBit b) out
      (stateApplyBit sse s input out length) := by
  have hvec : ∀ b : Bool, (if b then 0xff#8 else 0#8) &&& 1#8 = toBit b := by decide
  refine generate_store h _ length out ?_ ?_
  · intro i c out k
    refine storeBlock_apply sse (by decide)
      (g := fun k => input k ^^^ toBit (c.getLsbD (k - i))) ?_ ?_ out k
    · intro l hl
      rw [laneMask_eq, hvec, Nat.add_sub_cancel_left, BitVec.xor_comm]
    · intro j hj
      rw [setWidth_and_one, getLsbD_ushiftRight, add_zero, Nat.add_sub_cancel_left]
  · intro i c out
    rw [setWidth_and_one]

end Calls

/-! ## Runs of calls -/

/-- A call on a state; what it does to the elements does not matter to later calls. -/
inductive Call
  | advance (length : ℕ)
  | genF (value : BitVec 32) (out : ℕ → BitVec 32) (length : ℕ)
  | applyF (input out : ℕ → BitVec 32) (length : ℕ)
  | applyC (input out : ℕ → BitVec 8) (length : ℕ)
  | applyBit (input out : ℕ → BitVec 8) (length : ℕ)

namespace Call

/-- The state after a call. -/
def exec (sse : Bool) (s : State) : Call → State
  | advance length => stateAdvance s length
  | genF value out length => (stateGenF sse s value out length).1
  | applyF input out length => (stateApplyF sse s input out length).1
  | applyC input out length => (stateApplyC sse s input out length).1
  | applyBit input out length => (stateApplyBit sse s input out length).1

/-- The number of elements that a call takes. -/
def length : Call → ℕ
  | advance length => length
  | genF _ _ length => length
  | applyF _ _ length => length
  | applyC _ _ length => length
  | applyBit _ _ length => length

end Call

theorem Follows.exec {seed : BitVec 32} {n : ℕ} {s : State} (h : Follows seed n s) (sse : Bool)
    (call : Call) : Follows seed (n + call.length) (call.exec sse s) := by
  cases call with
  | advance length => exact follows_stateAdvance h length
  | genF value out length => exact (stateApplyF_spec h sse (fun _ => value) out length).1
  | applyF input out length => exact (stateApplyF_spec h sse input out length).1
  | applyC input out length => exact (stateApplyC_spec h sse input out length).1
  | applyBit input out length => exact (stateApplyBit_spec h sse input out length).1

theorem follows_foldl_exec (sse : Bool) (seed : BitVec 32) (calls : List Call) :
    Follows seed (calls.map Call.length).sum (calls.foldl (Call.exec sse) (State.init seed)) := by
  induction calls using List.reverseRecOn with
  | nil => exact follows_init seed
  | append_singleton calls call ih =>
    rw [List.map_append, List.sum_append, List.foldl_append]
    exact ih.exec sse call

/-- The sequence of a seed as the two recurrences give it. -/
structure IsPrSequence (seed : BitVec 32) (c : ℕ → Bool) : Prop where
  exists_registers : ∃ x1 x2 : ℕ → Bool,
    (∀ i < 31, x1 i = decide (i = 0)) ∧ (∀ n, x1 (n + 31) = (x1 (n + 3) ^^ x1 n)) ∧
    (∀ i < 31, x2 i = seed.getLsbD i) ∧
    (∀ n, x2 (n + 31) = (x2 (n + 3) ^^ x2 (n + 2) ^^ x2 (n + 1) ^^ x2 n)) ∧
    ∀ n, c n = (x1 (n + 1600) ^^ x2 (n + 1600))

theorem isPrSequence_prSequence (seed : BitVec 32) : IsPrSequence seed (prSequence seed) := by
  refine ⟨x1, x2 seed, ?_, seq_recurrenceX1 _, ?_, seq_recurrenceX2 _, fun _ => rfl⟩
  · intro i hi
    exact seq_of_lt hi
  · intro i hi
    exact seq_of_lt hi

/-- What is produced for a seed: the whole sequence at once, and after any calls the elements that
follow. -/
structure ProducesSequence (sse : Bool) (seed : BitVec 32) (c : ℕ → Bool) : Prop where
  genLtePr : ∀ pr len k, sequenceGenLtePr pr len seed k = if k < len then toBit (c k) else pr k
  genF : ∀ (calls : List Call) value out length k,
    (stateGenF sse (calls.foldl (Call.exec sse) (State.init seed)) value out length).2 k =
      if k < length then flipSign value (c ((calls.map Call.length).sum + k)) else out k
  applyF : ∀ (calls : List Call) input out length k,
    (stateApplyF sse (calls.foldl (Call.exec sse) (State.init seed)) input out length).2 k =
      if k < length then flipSign (input k) (c ((calls.map Call.length).sum + k)) else out k
  applyC : ∀ (calls : List Call) input out length k,
    (stateApplyC sse (calls.foldl (Call.exec sse) (State.init seed)) input out length).2 k =
      if k < length then negateIf (input k) (c ((calls.map Call.length).sum + k)) else out k
  applyBit : ∀ (calls : List Call) input out length k,
    (stateApplyBit sse (calls.foldl (Call.exec sse) (State.init seed)) input out length).2 k =
      if k < length then input k ^^^ toBit (c ((calls.map Call.length).sum + k)) else out k

theorem exists_producesSequence (sse : Bool) (seed : BitVec 32) :
    ∃ c, IsPrSequence seed c ∧ ProducesSequence sse seed c := by
  refine ⟨prSequence seed, isPrSequence_prSequence seed, ?_⟩
  have hfollows := follows_foldl_exec sse seed
  exact {
    genLtePr := fun pr len k => sequenceGenLtePr_apply pr len seed k
    genF := fun calls value out length =>
      (stateApplyF_spec (hfollows calls) sse (fun _ => value) out length).2
    applyF := fun calls input out length =>
      (stateApplyF_spec (hfollows calls) sse input out length).2
    applyC := fun calls input out length =>
      (stateApplyC_spec (hfollows calls) sse input out length).2
    applyBit := fun calls input out length =>
      (stateApplyBit_spec (hfollows calls) sse input out length).2 }

/-! ## The scrambling of the PMCH -/

/-- `srsran_sequence_pmch` -/
def sequencePmch (pr : ℕ → BitVec 8) (nslot mbsfnId len : ℕ) : ℕ → BitVec 8 :=
  sequenceGenLtePr pr len (BitVec.ofNat 32 ((nslot / 2) <<< 9 + mbsfnId))

/-- The recurrence goes back as well: the elements of a window determine those before it. -/
theorem seq_recurrenceX2_back {a b : ℕ → Bool} (n : ℕ)
    (h : ∀ k < seedLen, recurrenceX2.seq a (n + k) = recurrenceX2.seq b (n + k)) :
    ∀ k < seedLen, recurrenceX2.seq a k = recurrenceX2.seq b k := by
  induction n with
  | zero => simpa using h
  | succ n ih =>
    have hlater : ∀ k < seedLen,
        recurrenceX2.seq a (n + (k + 1)) = recurrenceX2.seq b (n + (k + 1)) := by
      intro k hk
      have hk := h k hk
      rwa [Nat.succ_add_eq_add_succ] at hk
    refine ih fun k hk => ?_
    cases k with
    | succ k => exact hlater k (by omega)
    | zero =>
      have hlast : recurrenceX2.seq a (n + seedLen) = recurrenceX2.seq b (n + seedLen) :=
        hlater 30 (by decide)
      rw [seq_recurrenceX2, seq_recurrenceX2, hlater 0 (by decide), hlater 1 (by decide),
        hlater 2 (by decide)] at hlast
      simpa using hlast

theorem eq_of_prSequence_eq {seed seed' : BitVec 32} (hseed : seed.getLsbD 31 = seed'.getLsbD 31)
    (h : ∀ k < seedLen, prSequence seed k = prSequence seed' k) : seed = seed' := by
  have hx2 := seq_recurrenceX2_back (a := seed.getLsbD) (b := seed'.getLsbD) nc fun k hk => by
    have hk := h k hk
    simp only [prSequence, x2, Nat.add_comm k nc] at hk
    simpa using hk
  refine BitVec.eq_of_getLsbD_eq fun k hk => ?_
  rcases Nat.lt_or_eq_of_le (Nat.le_of_lt_succ hk) with hlt | rfl
  · have hk := hx2 k hlt
    rwa [seq_of_lt hlt, seq_of_lt hlt] at hk
  · exact hseed

/-- The scrambling sequences of all subframes and MBSFN areas differ in their first elements. -/
theorem sequencePmch_ne {pr pr' : ℕ → BitVec 8} {len i j areaId areaId' : ℕ} (hlen : seedLen ≤ len)
    (hi : i < 10) (hj : j < 10) (ha : areaId < 512) (ha' : areaId' < 512)
    (hne : i ≠ j ∨ areaId ≠ areaId') :
    ∃ k < seedLen,
      sequencePmch pr (2 * i) areaId len k ≠ sequencePmch pr' (2 * j) areaId' len k := by
  by_contra! hsame
  have hhigh : ∀ n < 2 ^ 31, (BitVec.ofNat 32 n).getLsbD 31 = false := by
    intro n hn
    rw [BitVec.getLsbD_ofNat, Nat.testBit_lt_two_pow hn, Bool.and_false]
  have hbits : ∀ b c : Bool, toBit b = toBit c → b = c := by decide
  have hseed := eq_of_prSequence_eq ((hhigh _ ?_).trans (hhigh _ ?_).symm) fun k hk => by
    have hk' := hsame k hk
    have hlt : k < len := Nat.lt_of_lt_of_le hk hlen
    simp only [sequencePmch, sequenceGenLtePr_apply, if_pos hlt] at hk'
    exact hbits _ _ hk'
  · have hseed := congrArg BitVec.toNat hseed
    simp only [BitVec.toNat_ofNat, Nat.shiftLeft_eq] at hseed
    omega
  all_goals
    rw [Nat.shiftLeft_eq]
    omega

/-- Subframes 1 and 2 of one area. -/
theorem sequencePmch_ne_next : ∃ k < seedLen, sequencePmch (fun _ => 0) 2 1 100 k ≠
    sequencePmch (fun _ => 0) 4 1 100 k :=
  sequencePmch_ne (i := 1) (j := 2) (by decide) (by decide) (by decide) (by decide) (by decide)
    (.inl (by decide))

end MbmsTx.Phy.Sequence
