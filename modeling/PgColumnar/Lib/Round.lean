import Mathlib.Data.Nat.Log
import Mathlib.Tactic.Ring

/-!
# Rounding to a number of significant bits

Binary floating point keeps `p` significant bits of a quotient and rounds to the nearest,
ties to even.  Here a nonnegative quotient `a / d` is rounded to a whole number: at least
`2 ^ p` it keeps `p` bits, below it is the nearest whole number.  A numerator scaled by a
power of two gives the fractional bits as well.

## Main definitions

* `roundBits` — a quotient rounded to some bits.

## Main results

* `roundBits_mono` — rounding keeps the order.
-/

namespace Round

open Nat

/-- The whole number nearest to `a / d`; of two, the even one. -/
def nearest (a d : ℕ) : ℕ :=
  if 2 * (a % d) < d ∨ 2 * (a % d) = d ∧ a / d % 2 = 0 then a / d else a / d + 1

theorem le_nearest (a d : ℕ) : a / d ≤ nearest a d := by
  unfold nearest
  split <;> omega

theorem nearest_le (a d : ℕ) : nearest a d ≤ a / d + 1 := by
  unfold nearest
  split <;> omega

variable {d : ℕ}

theorem nearest_mul (hd : 0 < d) (m : ℕ) : nearest (m * d) d = m := by
  simp [nearest, Nat.mul_div_cancel _ hd, hd]

variable {a : ℕ}

theorem nearest_mono {b : ℕ} (hab : a ≤ b) (d : ℕ) : nearest a d ≤ nearest b d := by
  have hq := Nat.div_le_div_right (c := d) hab
  rcases lt_or_eq_of_le hq with hlt | heq
  · calc nearest a d ≤ a / d + 1 := nearest_le a d
      _ ≤ b / d := hlt
      _ ≤ nearest b d := le_nearest b d
  · -- the same whole part, so the remainders decide
    have ha := div_add_mod a d
    have hb := div_add_mod b d
    rw [heq] at ha
    unfold nearest
    rw [heq]
    split <;> split <;> omega

/-- The unit of the last of `p` significant bits of `a / d`. -/
def unit (p a d : ℕ) : ℕ := 2 ^ (Nat.log 2 (a / d) + 1 - p)

/-- `a / d` rounded to `p` significant bits. -/
def roundBits (p a d : ℕ) : ℕ := nearest a (d * unit p a d) * unit p a d

theorem unit_pos (p a d : ℕ) : 0 < unit p a d := Nat.two_pow_pos _

variable {p : ℕ}

/-- What is a multiple of the unit and bounds the quotient bounds the rounded one. -/
theorem roundBits_le {m : ℕ} (hd : 0 < d) (h : a ≤ m * unit p a d * d) :
    roundBits p a d ≤ m * unit p a d := by
  have hpos : 0 < d * unit p a d := mul_pos hd (unit_pos p a d)
  have ha : a ≤ m * (d * unit p a d) := by
    calc a ≤ m * unit p a d * d := h
      _ = m * (d * unit p a d) := by ring
  apply Nat.mul_le_mul_right
  calc nearest a (d * unit p a d) ≤ nearest (m * (d * unit p a d)) (d * unit p a d) :=
        nearest_mono ha _
    _ = m := nearest_mul hpos m

theorem le_roundBits {m : ℕ} (hd : 0 < d) (h : m * unit p a d * d ≤ a) :
    m * unit p a d ≤ roundBits p a d := by
  have hpos : 0 < d * unit p a d := mul_pos hd (unit_pos p a d)
  have ha : m * (d * unit p a d) ≤ a := by
    calc m * (d * unit p a d) = m * unit p a d * d := by ring
      _ ≤ a := h
  apply Nat.mul_le_mul_right
  calc m = nearest (m * (d * unit p a d)) (d * unit p a d) := (nearest_mul hpos m).symm
    _ ≤ nearest a (d * unit p a d) := nearest_mono ha _

/-- With at least one bit the power of two above the quotient is not passed. -/
theorem roundBits_le_pow (hp : 0 < p) (hd : 0 < d) :
    roundBits p a d ≤ 2 ^ (Nat.log 2 (a / d) + 1) := by
  have hdvd : unit p a d ∣ 2 ^ (Nat.log 2 (a / d) + 1) := pow_dvd_pow 2 (by omega)
  obtain ⟨m, hm⟩ := hdvd
  rw [mul_comm] at hm
  rw [hm]
  apply roundBits_le hd
  rw [← hm]
  have hlt := lt_pow_succ_log_self (b := 2) (by decide) (a / d)
  exact le_of_lt ((div_lt_iff_lt_mul hd).mp hlt)

theorem pow_le_roundBits (hp : 0 < p) (hd : 0 < d) (hne : a / d ≠ 0) :
    2 ^ Nat.log 2 (a / d) ≤ roundBits p a d := by
  have hdvd : unit p a d ∣ 2 ^ Nat.log 2 (a / d) := pow_dvd_pow 2 (by omega)
  obtain ⟨m, hm⟩ := hdvd
  rw [mul_comm] at hm
  rw [hm]
  apply le_roundBits hd
  rw [← hm]
  exact (le_div_iff_mul_le hd).mp (pow_log_le_self 2 hne)

theorem roundBits_mono {b : ℕ} (hp : 0 < p) (hd : 0 < d) (hab : a ≤ b) :
    roundBits p a d ≤ roundBits p b d := by
  have hq := Nat.div_le_div_right (c := d) hab
  rcases lt_or_eq_of_le (log_mono_right (b := 2) hq) with hlt | heq
  · -- another binade
    have hne : b / d ≠ 0 := by
      intro h0
      rw [h0, log_zero_right] at hlt
      omega
    calc roundBits p a d ≤ 2 ^ (Nat.log 2 (a / d) + 1) := roundBits_le_pow hp hd
      _ ≤ 2 ^ Nat.log 2 (b / d) := Nat.pow_le_pow_right (by decide) hlt
      _ ≤ roundBits p b d := pow_le_roundBits hp hd hne
  · have hunit : unit p a d = unit p b d := by rw [unit, unit, heq]
    rw [roundBits, roundBits, hunit]
    exact Nat.mul_le_mul_right _ (nearest_mono hab _)

/-- The whole part of `a / d` once it is rounded to `p` significant bits. -/
def quotTrunc (p a d : ℕ) : ℕ := roundBits p (a * 2 ^ p) d / 2 ^ p

theorem quotTrunc_mono {b : ℕ} (hp : 0 < p) (hd : 0 < d) (hab : a ≤ b) :
    quotTrunc p a d ≤ quotTrunc p b d :=
  Nat.div_le_div_right (roundBits_mono hp hd (Nat.mul_le_mul_right _ hab))

end Round
