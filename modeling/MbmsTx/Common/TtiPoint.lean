import Mathlib.Algebra.Ring.Nat
import Mathlib.Tactic.Common

/-!
# Points in time modulo the TTI range

`tti_point` keeps a TTI modulo 10240 and compares two by the shorter way around the cycle, which is
right while they are less than half the cycle apart (`TtiPoint.lt_of_lt`).
-/

namespace MbmsTx.TtiPoint

/-- The number of TTIs after which the SFN starts anew. -/
def ttiRange : ℕ := 10240

/-- The point of an absolute TTI. -/
def ofTti (tti : ℕ) : ℕ := tti % ttiRange

def sfIdx (tti : ℕ) : ℕ := tti % 10

def sfn (tti : ℕ) : ℕ := tti / 10

/-- The value of a point that was never set. -/
def invalid : ℕ := 2 ^ 32 - 1

/-- `operator+`. -/
def add (tti jump : ℕ) : ℕ := (tti + jump) % ttiRange

/-- `operator<`. -/
def lt (tti other : ℕ) : Bool :=
  let lowerVal : Bool := tti < other
  let wrapFlag : Bool := (if lowerVal then other - tti else tti - other) > ttiRange / 2
  lowerVal != wrapFlag

theorem lt_of_lt {start jump tti : ℕ} (hlt : start + jump < tti)
    (hnear : tti < start + jump + 5120) : lt (add (ofTti start) jump) (ofTti tti) := by
  simp only [lt, add, ofTti, ttiRange, bne_iff_ne, ne_eq]
  by_cases hlow : (start % 10240 + jump) % 10240 < tti % 10240
  · simp only [hlow, decide_true, if_true]
    rw [eq_comm, decide_eq_true_eq]
    omega
  · simp only [hlow, decide_false, Bool.false_eq_true, if_false]
    rw [eq_comm, decide_eq_false_iff_not]
    omega

end MbmsTx.TtiPoint
