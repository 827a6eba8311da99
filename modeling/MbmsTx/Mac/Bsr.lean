import MbmsTx.Mac.PduBuild

/-!
# Buffer status reports

A Long BSR carries an index of 6 bits into the table of buffer size levels for each of four logical
channel groups, in three bytes. The encoder takes the first level that covers the size, from the
third entry on: the second one, a single byte, is in no report.
-/

namespace MbmsTx.Mac

open List

/-- The indices that `get_bsr` reads from a Long BSR. -/
def buffSizeIdx (payload : List UInt8) : Fin 4 → ℕ :=
  let byte := fun i => (payload.getD i 0).toNat
  fun
    | 0 => (byte 0 &&& 0xFC) >>> 2
    | 1 => (byte 0 &&& 0x03) <<< 4 ||| (byte 1 &&& 0xF0) >>> 4
    | 2 => (byte 1 &&& 0x0F) <<< 2 ||| (byte 2 &&& 0xC0) >>> 6
    | 3 => byte 2 &&& 0x3F

/-- `get_bsr` for a Long BSR: the sizes, over those of the caller. -/
def getBsr (payload : List UInt8) (buffSizeBytes : Fin 4 → ℕ) (lcg : Fin 4) : ℕ :=
  let idx := buffSizeIdx payload lcg
  if 0 < idx then if idx < 63 then btable.getD (1 + idx) 0 else btable.getD 63 0
  else buffSizeBytes lcg

theorem buffSizeTable_lt (size : ℕ) : buffSizeTable size < 64 := by
  unfold buffSizeTable
  split
  · decide
  split
  · decide
  cases hfind : (List.range' 1 61).find? fun i => size ≤ btable.getD (i + 1) 0 with
  | none => decide
  | some i =>
    have hmem := mem_range'_1.mp (mem_of_find?_eq_some hfind)
    rw [Option.getD_some]
    omega

/-- The three bytes, as numbers. -/
theorem toNat_longBsr : ∀ a < 64, ∀ b < 64,
    (UInt8.ofNat ((a &&& 0x3f) <<< 2 ||| (b &&& 0x30) >>> 4)).toNat = 4 * a + b / 16 ∧
      (UInt8.ofNat ((a &&& 0xf) <<< 4 ||| (b &&& 0x3c) >>> 2)).toNat = 16 * (a % 16) + b / 4 ∧
      (UInt8.ofNat ((a &&& 0x3) <<< 6 ||| (b &&& 0x3f))).toNat = 64 * (a % 4) + b := by
  decide +kernel

/-- The masks that the indices are read with. -/
theorem masks_longBsr : ∀ p < 256, (p &&& 0xFC) >>> 2 = p / 4 ∧ p &&& 0x03 = p % 4 ∧
    (p &&& 0xF0) >>> 4 = p / 16 ∧ p &&& 0x0F = p % 16 ∧ (p &&& 0xC0) >>> 6 = p / 64 ∧
    p &&& 0x3F = p % 64 := by
  decide +kernel

theorem indices_longBsr {a b c d p q r : ℕ} (ha : a < 64) (hb : b < 64) (hc : c < 64) (hd : d < 64)
    (hp : p = 4 * a + b / 16) (hq : q = 16 * (b % 16) + c / 4) (hr : r = 64 * (c % 4) + d) :
    (p &&& 0xFC) >>> 2 = a ∧ (p &&& 0x03) <<< 4 ||| (q &&& 0xF0) >>> 4 = b ∧
      (q &&& 0x0F) <<< 2 ||| (r &&& 0xC0) >>> 6 = c ∧ r &&& 0x3F = d := by
  have hjoin : ∀ i < 64, (i / 16) <<< 4 ||| i % 16 = i ∧ (i / 4) <<< 2 ||| i % 4 = i := by decide
  obtain ⟨hp0, hp1, -⟩ := masks_longBsr p (by omega)
  obtain ⟨-, -, hq1, hq2, -⟩ := masks_longBsr q (by omega)
  obtain ⟨-, -, -, -, hr2, hr3⟩ := masks_longBsr r (by omega)
  have hb4 : p % 4 = b / 16 := by omega
  have hb16 : q / 16 = b % 16 := by omega
  have hc16 : q % 16 = c / 4 := by omega
  have hc64 : r / 64 = c % 4 := by omega
  rw [hp0, hp1, hq1, hq2, hr2, hr3, hb4, hb16, hc16, hc64, (hjoin b hb).1, (hjoin c hc).2]
  omega

/-- The four indices come back as they were written. -/
theorem buffSizeIdx_updateBsr (size : Fin 4 → ℕ) (lcg : Fin 4) :
    buffSizeIdx (updateBsr size .long) lcg = buffSizeTable (size lcg) := by
  have hlt := fun lcg => buffSizeTable_lt (size lcg)
  obtain ⟨h0, h1, h2, h3⟩ := indices_longBsr (hlt 0) (hlt 1) (hlt 2) (hlt 3)
    (toNat_longBsr _ (hlt 0) _ (hlt 1)).1 (toNat_longBsr _ (hlt 1) _ (hlt 2)).2.1
    (toNat_longBsr _ (hlt 2) _ (hlt 3)).2.2
  match lcg with
  | 0 => exact h0
  | 1 => exact h1
  | 2 => exact h2
  | 3 => exact h3

/-- The level of a size that is not too large is the lowest that covers it. -/
theorem buffSizeTable_spec {size : ℕ} (hpos : 0 < size) (hle : size ≤ 150000) :
    0 < buffSizeTable size ∧ buffSizeTable size < 63 ∧
      size ≤ btable.getD (1 + buffSizeTable size) 0 ∧
      ∀ j < buffSizeTable size, 0 < j → btable.getD (1 + j) 0 < size := by
  rw [buffSizeTable, if_neg (by omega), if_neg (by omega)]
  have hcovers : ∀ i, i < 63 → 0 < i → (∀ j < i, 0 < j → ¬ size ≤ btable.getD (j + 1) 0) →
      size ≤ btable.getD (i + 1) 0 → 0 < i ∧ i < 63 ∧ size ≤ btable.getD (1 + i) 0 ∧
        ∀ j < i, 0 < j → btable.getD (1 + j) 0 < size := by
    intro i hlt hpos hbelow hcover
    refine ⟨hpos, hlt, by rw [add_comm]; exact hcover, fun j hj hj0 => ?_⟩
    rw [add_comm]
    exact Nat.lt_of_not_le (hbelow j hj hj0)
  cases hfind : (List.range' 1 61).find? fun i => size ≤ btable.getD (i + 1) 0 with
  | none =>
    simp only [find?_range'_eq_none, Bool.not_eq_true', decide_eq_false_iff_not] at hfind
    exact hcovers 62 (by decide) (by decide) (fun j hj hj0 => hfind j hj0 (by omega)) hle
  | some i =>
    simp only [find?_range'_eq_some, Bool.not_eq_true', decide_eq_false_iff_not, mem_range'_1,
      decide_eq_true_eq] at hfind
    obtain ⟨hcover, ⟨hpos, hlt⟩, hbelow⟩ := hfind
    exact hcovers i (by omega) hpos (fun j hj hj0 => hbelow j hj0 hj) hcover

/-- Every size comes back as the smallest level of the reports that covers it, or as the largest
level. Only a size of zero comes back as zero. -/
theorem getBsr_updateBsr (size : Fin 4 → ℕ) (lcg : Fin 4) :
    (getBsr (updateBsr size .long) (fun _ => 0) lcg = 0 ↔ size lcg = 0) ∧
      (size lcg ≤ 150000 → size lcg ≤ getBsr (updateBsr size .long) (fun _ => 0) lcg) ∧
      (150000 < size lcg → getBsr (updateBsr size .long) (fun _ => 0) lcg = 150000) ∧
      ∀ k, 2 ≤ k → k < 64 →
        btable.getD k 0 < getBsr (updateBsr size .long) (fun _ => 0) lcg →
        btable.getD k 0 < size lcg := by
  unfold getBsr
  rw [buffSizeIdx_updateBsr]
  generalize size lcg = n
  dsimp only
  rcases eq_zero_or_pos n with rfl | hpos
  · simp [buffSizeTable]
  rcases lt_or_ge 150000 n with hlarge | hle
  · have hlevels : ∀ k < 64, btable.getD k 0 ≤ 150000 := by decide
    have hidx : buffSizeTable n = 63 := by rw [buffSizeTable, if_neg (by omega), if_pos hlarge]
    rw [hidx]
    refine ⟨iff_of_false (by decide) (by omega), fun h => by omega, fun _ => rfl,
      fun k _ hk _ => ?_⟩
    have hsmall := hlevels k hk
    omega
  · obtain ⟨hidx, hlt, hcover, hbelow⟩ := buffSizeTable_spec hpos hle
    rw [if_pos hidx, if_pos hlt]
    refine ⟨iff_of_false (by omega) (by omega), fun _ => hcover, fun h => by omega,
      fun k hk2 hk hlevel => ?_⟩
    -- the levels grow, so that a smaller one has a smaller index
    have hmono : ∀ k < 64, ∀ i < 63, btable.getD k 0 < btable.getD (1 + i) 0 → k < 1 + i := by
      decide +kernel
    have hindex := hmono k hk _ hlt hlevel
    have hlow := hbelow (k - 1) (by omega) (by omega)
    rw [Nat.add_sub_cancel' (by omega)] at hlow
    exact hlow

/-- A group with one byte is reported with ten, although there is a level of one byte. -/
theorem getBsr_one_byte :
    getBsr (updateBsr (fun _ => 1) .long) (fun _ => 0) 0 = 10 ∧ 1 ∈ btable := by
  decide +kernel

end MbmsTx.Mac
