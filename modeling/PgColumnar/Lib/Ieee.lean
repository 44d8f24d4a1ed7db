import Mathlib.Algebra.Order.Ring.Int
import Mathlib.Data.Nat.Log

/-!
# Binary floating point formats

A format has `e` bits of exponent and `f` bits of fraction below a sign bit.  As long as a
pattern is not NaN, its value grows with the magnitude of the pattern, so patterns are
compared by their sign and magnitude; NaN is put above every other value here.
-/

namespace Ieee

open Nat Bool

variable {e f x y : ℕ}

/-- The pattern without its sign. -/
def magnitude (e f x : ℕ) : ℕ := x % 2 ^ (e + f)

def isNegative (e f x : ℕ) : Bool := x.testBit (e + f)

/-- All exponent bits set, and some of the fraction. -/
def isNaN (e f x : ℕ) : Bool := decide ((2 ^ e - 1) * 2 ^ f < magnitude e f x)

def orderKey (e f x : ℕ) : ℤ :=
  if isNaN e f x then 2 ^ (e + f)
  else if isNegative e f x then -(magnitude e f x : ℤ)
  else magnitude e f x

theorem magnitude_lt (e f x : ℕ) : magnitude e f x < 2 ^ (e + f) := Nat.mod_lt _ (Nat.two_pow_pos _)

theorem orderKey_nan (h : isNaN e f x = true) : orderKey e f x = 2 ^ (e + f) := by
  rw [orderKey, if_pos h]

theorem orderKey_lt (h : isNaN e f x = false) : orderKey e f x < 2 ^ (e + f) := by
  have hmag : (magnitude e f x : ℤ) < 2 ^ (e + f) := by
    have hlt := magnitude_lt e f x
    exact_mod_cast hlt
  unfold orderKey
  rw [if_neg (by rw [h]; decide)]
  split
  · omega
  · exact hmag

/-- NaN is the greatest. -/
theorem orderKey_le_nan (h : isNaN e f y = true) : orderKey e f x ≤ orderKey e f y := by
  rw [orderKey_nan h]
  cases hx : isNaN e f x with
  | false => exact le_of_lt (orderKey_lt hx)
  | true => exact le_of_eq (orderKey_nan hx)

theorem isNaN_of_orderKey (h : orderKey e f x = 2 ^ (e + f)) : isNaN e f x = true := by
  by_contra hx
  exact absurd h (ne_of_lt (orderKey_lt (not_eq_true _ ▸ hx)))

/-- The value in a format of `e'` and `f'` bits.  A subnormal number is normal there; a NaN
becomes quiet. -/
def widen (e f e' f' x : ℕ) : ℕ :=
  let sign := if isNegative e f x then 2 ^ (e' + f') else 0
  let exponent := magnitude e f x / 2 ^ f
  let fraction := magnitude e f x % 2 ^ f
  let bias := 2 ^ (e - 1) - 1
  let bias' := 2 ^ (e' - 1) - 1
  sign +
    if exponent = 2 ^ e - 1 then
      (2 ^ e' - 1) * 2 ^ f' + if fraction = 0 then 0 else (fraction * 2 ^ (f' - f)) ||| 2 ^ (f' - 1)
    else if exponent = 0 then
      if fraction = 0 then 0
      else
        let k := Nat.log2 fraction
        (k + 1 + bias' - bias - f) * 2 ^ f' + (fraction - 2 ^ k) * 2 ^ (f' - k)
    else (exponent + bias' - bias) * 2 ^ f' + fraction * 2 ^ (f' - f)

/-- One and a half, the least subnormal number, and minus infinity. -/
example : widen 8 23 11 52 0x3FC00000 = 0x3FF8000000000000 ∧
    widen 8 23 11 52 1 = 0x36A0000000000000 ∧
    widen 8 23 11 52 0xFF800000 = 0xFFF0000000000000 := by decide +kernel

/-! ### Single precision in double precision -/

/-- The magnitude of a single precision number in double precision. -/
def wideMagnitude (m : ℕ) : ℕ :=
  if m / 2 ^ 23 = 255 then
    2047 * 2 ^ 52 + if m % 2 ^ 23 = 0 then 0 else (m % 2 ^ 23 * 2 ^ 29) ||| 2 ^ 51
  else if m / 2 ^ 23 = 0 then
    if m % 2 ^ 23 = 0 then 0
    else (Nat.log2 (m % 2 ^ 23) + 874) * 2 ^ 52 +
      (m % 2 ^ 23 - 2 ^ Nat.log2 (m % 2 ^ 23)) * 2 ^ (52 - Nat.log2 (m % 2 ^ 23))
  else (m / 2 ^ 23 + 896) * 2 ^ 52 + m % 2 ^ 23 * 2 ^ 29

theorem widen_single (x : ℕ) : widen 8 23 11 52 x =
    (if isNegative 8 23 x then 2 ^ 63 else 0) + wideMagnitude (magnitude 8 23 x) := by
  simp only [widen, wideMagnitude, Nat.reduceAdd, Nat.reduceSub, Nat.reducePow]
  split_ifs <;> omega

theorem wideMagnitude_inf : wideMagnitude (255 * 2 ^ 23) = 2047 * 2 ^ 52 := by decide

variable {m : ℕ}

/-- A subnormal number has the exponent of its highest bit. -/
theorem wideMagnitude_subnormal (h0 : 0 < m) (h : m < 2 ^ 23) :
    wideMagnitude m = (Nat.log2 m + 874) * 2 ^ 52 + (m - 2 ^ Nat.log2 m) * 2 ^
      (52 - Nat.log2 m) := by
  have hdiv : m / 2 ^ 23 = 0 := div_eq_of_lt h
  have hmod : m % 2 ^ 23 = m := mod_eq_of_lt h
  unfold wideMagnitude
  rw [hdiv, hmod, if_neg (by decide), if_pos rfl, if_neg (by omega)]

theorem wideMagnitude_normal (h0 : 2 ^ 23 ≤ m) (h : m < 255 * 2 ^ 23) :
    wideMagnitude m = m * 2 ^ 29 + 896 * 2 ^ 52 := by
  unfold wideMagnitude
  rw [if_neg (by omega), if_neg (by omega)]
  omega

/-- The fraction stays below the next exponent. -/
theorem subnormal_bounds (h0 : 0 < m) (h : m < 2 ^ 23) :
    (Nat.log2 m + 874) * 2 ^ 52 ≤ wideMagnitude m ∧
      wideMagnitude m < (Nat.log2 m + 875) * 2 ^ 52 ∧ wideMagnitude m < 897 * 2 ^ 52 := by
  have hk : Nat.log2 m < 23 := (log2_lt (by omega)).mpr h
  have hhi : m < 2 ^ (Nat.log2 m + 1) := lt_log2_self
  have hfrac : (m - 2 ^ Nat.log2 m) * 2 ^ (52 - Nat.log2 m) < 2 ^ 52 := by
    calc (m - 2 ^ Nat.log2 m) * 2 ^ (52 - Nat.log2 m)
        < 2 ^ Nat.log2 m * 2 ^ (52 - Nat.log2 m) := by
          apply Nat.mul_lt_mul_of_pos_right _ (Nat.two_pow_pos _)
          rw [pow_succ] at hhi
          have := Nat.two_pow_pos (Nat.log2 m)
          omega
      _ = 2 ^ 52 := by rw [← pow_add]; congr 1; omega
  rw [wideMagnitude_subnormal h0 h]
  refine ⟨le_add_right _ _, ?_, ?_⟩
  · omega
  · omega

theorem wideMagnitude_lt_inf (h : m < 255 * 2 ^ 23) : wideMagnitude m < 2047 * 2 ^ 52 := by
  rcases Nat.eq_zero_or_pos m with h0 | h0
  · rw [h0]
    decide
  · rcases lt_or_ge m (2 ^ 23) with hsub | hnorm
    · exact (subnormal_bounds h0 hsub).2.2.trans (by decide)
    · rw [wideMagnitude_normal hnorm h]
      omega

/-- Up to infinity, a greater magnitude is greater in double precision. -/
theorem wideMagnitude_lt {n : ℕ} (hmn : m < n) (hn : n ≤ 255 * 2 ^ 23) :
    wideMagnitude m < wideMagnitude n := by
  rcases lt_or_eq_of_le hn with hn | hinf
  swap
  · rw [hinf, wideMagnitude_inf]
    exact wideMagnitude_lt_inf (hinf ▸ hmn)
  rcases lt_or_ge n (2 ^ 23) with hnsub | hnnorm
  · obtain ⟨hlo, -, -⟩ := subnormal_bounds (by omega) hnsub
    rcases Nat.eq_zero_or_pos m with h0 | h0
    · rw [h0, show wideMagnitude 0 = 0 from by decide]
      omega
    · obtain ⟨-, hhi, hk⟩ := subnormal_bounds h0 (by omega)
      have hlog : Nat.log2 m ≤ Nat.log2 n :=
        (le_log2 (by omega)).mpr ((log2_self_le (by omega)).trans hmn.le)
      rcases lt_or_eq_of_le hlog with hlt | heq
      · omega
      · -- one exponent: the fractions are compared
        have hself : 2 ^ Nat.log2 m ≤ m := log2_self_le (by omega)
        rw [wideMagnitude_subnormal h0 (by omega), wideMagnitude_subnormal (by omega) hnsub, ← heq]
        apply Nat.add_lt_add_left
        apply Nat.mul_lt_mul_of_pos_right _ (Nat.two_pow_pos _)
        omega
  · rw [wideMagnitude_normal hnnorm hn]
    rcases Nat.eq_zero_or_pos m with h0 | h0
    · rw [h0, show wideMagnitude 0 = 0 from by decide]
      omega
    · rcases lt_or_ge m (2 ^ 23) with hmsub | hmnorm
      · have hsub := (subnormal_bounds h0 hmsub).2.2
        omega
      · rw [wideMagnitude_normal hmnorm (by omega)]
        omega

theorem wideMagnitude_nan (h : 255 * 2 ^ 23 < m) (hm : m < 2 ^ 31) :
    2047 * 2 ^ 52 < wideMagnitude m ∧ wideMagnitude m < 2 ^ 63 := by
  have hfrac : m % 2 ^ 23 * 2 ^ 29 < 2 ^ 52 :=
    Nat.mul_lt_mul_of_pos_right (Nat.mod_lt m (Nat.two_pow_pos 23)) (Nat.two_pow_pos 29)
  have hquiet : 2 ^ 51 < 2 ^ 52 := by decide
  have hor : (m % 2 ^ 23 * 2 ^ 29) ||| 2 ^ 51 < 2 ^ 52 :=
    or_lt_two_pow hfrac hquiet
  have hge : 2 ^ 51 ≤ (m % 2 ^ 23 * 2 ^ 29) ||| 2 ^ 51 := right_le_or
  unfold wideMagnitude
  rw [if_pos (by omega), if_neg (by omega)]
  omega

theorem isNaN_single (x : ℕ) : isNaN 8 23 x = decide (255 * 2 ^ 23 < magnitude 8 23 x) := rfl

theorem wideMagnitude_lt_two_pow (x : ℕ) : wideMagnitude (magnitude 8 23 x) < 2 ^ 63 := by
  have hm : magnitude 8 23 x < 2 ^ 31 := magnitude_lt 8 23 x
  rcases lt_trichotomy (magnitude 8 23 x) (255 * 2 ^ 23) with hlt | heq | hgt
  · have := wideMagnitude_lt_inf hlt
    omega
  · rw [heq, wideMagnitude_inf]
    decide
  · exact (wideMagnitude_nan hgt hm).2

theorem magnitude_widen (x : ℕ) :
    magnitude 11 52 (widen 8 23 11 52 x) = wideMagnitude (magnitude 8 23 x) := by
  have hlt := wideMagnitude_lt_two_pow x
  rw [widen_single, magnitude]
  split
  · rw [add_mod_left, mod_eq_of_lt hlt]
  · rw [zero_add, mod_eq_of_lt hlt]

theorem isNegative_widen (x : ℕ) : isNegative 11 52 (widen 8 23 11 52 x) = isNegative 8 23 x := by
  have hlt := wideMagnitude_lt_two_pow x
  rw [widen_single]
  show Nat.testBit _ 63 = _
  cases hneg : isNegative 8 23 x with
  | true => rw [if_pos rfl, testBit_two_pow_add_eq, testBit_lt_two_pow hlt]; rfl
  | false => rw [if_neg (by simp), zero_add, testBit_lt_two_pow hlt]

theorem isNaN_widen (x : ℕ) : isNaN 11 52 (widen 8 23 11 52 x) = isNaN 8 23 x := by
  have hm : magnitude 8 23 x < 2 ^ 31 := magnitude_lt 8 23 x
  rw [isNaN_single]
  show decide (2047 * 2 ^ 52 < magnitude 11 52 (widen 8 23 11 52 x)) = _
  rw [magnitude_widen, decide_eq_decide]
  rcases lt_trichotomy (magnitude 8 23 x) (255 * 2 ^ 23) with hlt | heq | hgt
  · have := wideMagnitude_lt_inf hlt
    omega
  · rw [heq, wideMagnitude_inf]
    decide
  · have := (wideMagnitude_nan hgt hm).1
    omega

theorem orderKey_widen_lt {x y : ℕ} (h : orderKey 8 23 x < orderKey 8 23 y) :
    orderKey 11 52 (widen 8 23 11 52 x) < orderKey 11 52 (widen 8 23 11 52 y) := by
  have hx : isNaN 8 23 x = false := by
    by_contra hnan
    exact absurd (orderKey_le_nan (x := y) (not_eq_false _ ▸ hnan)) (not_le.mpr h)
  have hmx : ¬ 255 * 2 ^ 23 < magnitude 8 23 x :=
    of_decide_eq_false ((isNaN_single x).symm.trans hx)
  cases hy : isNaN 8 23 y with
  | true =>
    rw [orderKey_nan (x := widen 8 23 11 52 y) ((isNaN_widen y).trans hy)]
    exact orderKey_lt ((isNaN_widen x).trans hx)
  | false =>
    have hmy : ¬ 255 * 2 ^ 23 < magnitude 8 23 y :=
      of_decide_eq_false ((isNaN_single y).symm.trans hy)
    unfold orderKey at h ⊢
    rw [isNaN_widen, isNaN_widen, isNegative_widen, isNegative_widen, magnitude_widen,
      magnitude_widen, hx, hy]
    rw [hx, hy] at h
    have hxy := wideMagnitude_lt (m := magnitude 8 23 x) (n := magnitude 8 23 y)
    have hyx := wideMagnitude_lt (m := magnitude 8 23 y) (n := magnitude 8 23 x)
    have hpos := wideMagnitude_lt (m := 0) (n := magnitude 8 23 y)
    have hpos' := wideMagnitude_lt (m := 0) (n := magnitude 8 23 x)
    rw [show wideMagnitude 0 = 0 from by decide] at hpos hpos'
    cases hsx : isNegative 8 23 x <;> cases hsy : isNegative 8 23 y <;>
      simp only [hsx, hsy, false_eq_true, reduceIte] at h ⊢ <;> omega

theorem orderKey_widen_eq {x y : ℕ} (h : orderKey 8 23 x = orderKey 8 23 y) :
    orderKey 11 52 (widen 8 23 11 52 x) = orderKey 11 52 (widen 8 23 11 52 y) := by
  cases hx : isNaN 8 23 x with
  | true =>
    have hy : isNaN 8 23 y = true := isNaN_of_orderKey (h.symm.trans (orderKey_nan hx))
    rw [orderKey_nan ((isNaN_widen x).trans hx), orderKey_nan ((isNaN_widen y).trans hy)]
  | false =>
    have hy : isNaN 8 23 y = false := by
      by_contra hy
      have hkey := h.trans (orderKey_nan (not_eq_false _ ▸ hy))
      rw [isNaN_of_orderKey hkey] at hx
      cases hx
    unfold orderKey at h ⊢
    rw [isNaN_widen, isNaN_widen, isNegative_widen, isNegative_widen, magnitude_widen,
      magnitude_widen, hx, hy]
    rw [hx, hy] at h
    have hcases : magnitude 8 23 x = magnitude 8 23 y := by
      cases hsx : isNegative 8 23 x <;> cases hsy : isNegative 8 23 y <;>
        simp only [hsx, hsy, false_eq_true, reduceIte] at h <;> omega
    rw [hcases] at h ⊢
    have hzero := show wideMagnitude 0 = 0 from by decide
    cases hsx : isNegative 8 23 x <;> cases hsy : isNegative 8 23 y <;>
      simp only [hsx, hsy, false_eq_true, reduceIte] at h ⊢
    · rw [show magnitude 8 23 y = 0 by omega, hzero]
      rfl
    · rw [show magnitude 8 23 y = 0 by omega, hzero]
      rfl

/-- A number keeps its place among the others in double precision. -/
theorem orderKey_widen_sign (x y : ℕ) :
    (orderKey 11 52 (widen 8 23 11 52 x) - orderKey 11 52 (widen 8 23 11 52 y)).sign =
      (orderKey 8 23 x - orderKey 8 23 y).sign := by
  rcases lt_trichotomy (orderKey 8 23 x) (orderKey 8 23 y) with h | h | h
  · rw [Int.sign_eq_neg_one_of_neg (sub_neg.mpr h),
      Int.sign_eq_neg_one_of_neg (sub_neg.mpr (orderKey_widen_lt h))]
  · rw [orderKey_widen_eq h, h, sub_self, sub_self]
  · rw [Int.sign_eq_one_of_pos (sub_pos.mpr h),
      Int.sign_eq_one_of_pos (sub_pos.mpr (orderKey_widen_lt h))]

end Ieee
