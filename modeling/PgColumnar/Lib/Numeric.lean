import Mathlib.Algebra.Order.Floor.Ring
import Mathlib.Data.Rat.Floor

/-!
# Integers of a given width from rationals

A decimal becomes a two's complement integer by rounding half away from zero; out of range,
there is none.
-/

namespace Numeric

def halfAwayFromZero (q : ℚ) : ℤ := if 0 ≤ q then ⌊q + 1 / 2⌋ else -⌊-q + 1 / 2⌋

def toInt (bits : ℕ) (q : ℚ) : Option ℤ :=
  let r := halfAwayFromZero q
  if -2 ^ (bits - 1) ≤ r ∧ r < 2 ^ (bits - 1) then some r else none

theorem halfAwayFromZero_intCast (z : ℤ) : halfAwayFromZero z = z := by
  have hfloor : ∀ y : ℤ, ⌊(y : ℚ) + 1 / 2⌋ = y := by
    intro y
    rw [Int.floor_intCast_add]
    norm_num
  unfold halfAwayFromZero
  split
  · exact hfloor z
  · rw [← Int.cast_neg, hfloor, neg_neg]

theorem toInt_intCast {bits : ℕ} {z : ℤ} (h : -2 ^ (bits - 1) ≤ z ∧ z < 2 ^ (bits - 1)) :
    toInt bits z = some z := by
  simp only [toInt, halfAwayFromZero_intCast]
  rw [if_pos h]

end Numeric
