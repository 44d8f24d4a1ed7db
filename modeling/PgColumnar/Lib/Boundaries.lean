import Mathlib.Data.Int.ConditionallyCompleteOrder
import Mathlib.Data.Int.LeastGreatest
import Mathlib.Tactic.Linarith
import Mathlib.Tactic.Ring

/-!
# Rounding down to a boundary

A line of integers cut into buckets by an increasing sequence of boundaries, and the first and the
next boundary of the bucket a number lies in.  Comparisons of a rounded number with a constant
become comparisons of the number itself with one of the two boundaries around the constant.

## Main definitions

* `Boundaries` — an ascending sequence of integers without end on either side.
* `floor`, `next` — the boundary at or before a number, and the one behind it.

## Main results

* `floor_le_iff` — a Galois connection between the two.
-/

structure Boundaries where
  start : ℤ → ℤ
  strictMono : StrictMono start

namespace Boundaries

variable (B : Boundaries)

theorem le_start_of_nonneg (n : ℕ) : B.start 0 + n ≤ B.start n := by
  induction n with
  | zero => simp
  | succ n ih =>
    have := B.strictMono (show (n : ℤ) < n + 1 by omega)
    push_cast
    linarith

theorem start_neg_le (n : ℕ) : B.start (-n) ≤ B.start 0 - n := by
  induction n with
  | zero => simp
  | succ n ih =>
    have := B.strictMono (show (-(n + 1) : ℤ) < -n by omega)
    push_cast
    linarith

/-- Every number lies in a bucket. -/
theorem exists_bucket (t : ℤ) : ∃ k, B.start k ≤ t ∧ t < B.start (k + 1) := by
  have hbdd : ∃ b, ∀ k, B.start k ≤ t → k ≤ b := by
    refine ⟨(t - B.start 0).toNat, fun k hk => ?_⟩
    by_contra h
    have hle := B.le_start_of_nonneg k.toNat
    rw [Int.toNat_of_nonneg (by omega)] at hle
    omega
  have hinh : ∃ k, B.start k ≤ t := by
    refine ⟨-((B.start 0 - t).toNat : ℤ), ?_⟩
    have hle := B.start_neg_le (B.start 0 - t).toNat
    omega
  obtain ⟨k, hk, hmax⟩ := Int.exists_greatest_of_bdd hbdd hinh
  refine ⟨k, hk, ?_⟩
  by_contra h
  have := hmax (k + 1) (by omega)
  omega

noncomputable def index (t : ℤ) : ℤ := (B.exists_bucket t).choose

/-- Where the bucket of `t` begins. -/
noncomputable def floor (t : ℤ) : ℤ := B.start (B.index t)

/-- Where the bucket after that of `t` begins. -/
noncomputable def next (t : ℤ) : ℤ := B.start (B.index t + 1)

variable {B} {t u c k : ℤ}

theorem floor_le : B.floor t ≤ t := (B.exists_bucket t).choose_spec.1

theorem lt_next : t < B.next t := (B.exists_bucket t).choose_spec.2

theorem index_eq (hlo : B.start k ≤ t) (hhi : t < B.start (k + 1)) : B.index t = k := by
  have h₁ : B.start (B.index t) < B.start (k + 1) := lt_of_le_of_lt floor_le hhi
  have h₂ : B.start k < B.start (B.index t + 1) := lt_of_le_of_lt hlo lt_next
  rw [B.strictMono.lt_iff_lt] at h₁ h₂
  omega

theorem floor_eq (hlo : B.start k ≤ t) (hhi : t < B.start (k + 1)) : B.floor t = B.start k := by
  rw [floor, index_eq hlo hhi]

theorem next_eq (hlo : B.start k ≤ t) (hhi : t < B.start (k + 1)) : B.next t = B.start (k + 1) := by
  rw [next, index_eq hlo hhi]

@[simp] theorem floor_floor : B.floor (B.floor t) = B.floor t :=
  floor_eq le_rfl (B.strictMono (by omega))

@[simp] theorem next_floor : B.next (B.floor t) = B.next t :=
  next_eq le_rfl (B.strictMono (by omega))

/-- **Rounding down is adjoint to the next boundary.** -/
theorem floor_le_iff : B.floor t ≤ c ↔ t < B.next c := by
  constructor
  · intro h
    have hidx : B.index t < B.index c + 1 := B.strictMono.lt_iff_lt.mp (lt_of_le_of_lt h lt_next)
    have := B.strictMono.monotone (show B.index t + 1 ≤ B.index c + 1 by omega)
    exact lt_of_lt_of_le lt_next this
  · intro h
    have hidx : B.index t < B.index c + 1 := B.strictMono.lt_iff_lt.mp (lt_of_le_of_lt floor_le h)
    have := B.strictMono.monotone (show B.index t ≤ B.index c by omega)
    exact le_trans this floor_le

theorem floor_mono (h : t ≤ u) : B.floor t ≤ B.floor u := by
  rw [floor_le_iff, next_floor]
  exact lt_of_le_of_lt h lt_next

theorem floor_lt_iff_of_floor_eq (hc : B.floor c = c) : B.floor t < c ↔ t < c := by
  constructor
  · intro h
    by_contra hle
    have := floor_mono (B := B) (not_lt.mp hle)
    omega
  · intro h
    exact lt_of_le_of_lt floor_le h

theorem floor_lt_iff_of_floor_ne (hc : B.floor c ≠ c) : B.floor t < c ↔ t < B.next c := by
  rw [← floor_le_iff]
  constructor
  · exact le_of_lt
  · intro h
    apply lt_of_le_of_ne h
    intro heq
    apply hc
    rw [← heq, floor_floor]

/-! ### Making boundaries -/

/-- Every integer is a boundary. -/
def integers : Boundaries := ⟨id, strictMono_id⟩

/-- The same boundaries, counted from another one. -/
def shift (n : ℤ) (B : Boundaries) : Boundaries where
  start k := B.start (k + n)
  strictMono := by
    intro a b h
    exact B.strictMono (by omega)

/-- Every `n`-th boundary. -/
def every (n : ℤ) (hn : 0 < n) (B : Boundaries) : Boundaries where
  start k := B.start (n * k)
  strictMono := by
    intro a b h
    exact B.strictMono (mul_lt_mul_of_pos_left h hn)

/-- The same boundaries on a line with `w` steps for each one and another origin. -/
def scale (w : ℤ) (hw : 0 < w) (origin : ℤ) (B : Boundaries) : Boundaries where
  start k := w * B.start k + origin
  strictMono := by
    intro a b h
    have := mul_lt_mul_of_pos_left (B.strictMono h) hw
    linarith

end Boundaries

/-- The day on which a month begins, the months counted from the March of a leap century year. -/
def monthDay (m : ℤ) : ℤ :=
  365 * (m / 12) + m / 12 / 4 - m / 12 / 100 + m / 12 / 400 + (153 * (m % 12) + 2) / 5

/-- A year adds at most one leap day. -/
theorem leapDays_succ (y : ℤ) :
    y / 4 - y / 100 + y / 400 ≤ (y + 1) / 4 - (y + 1) / 100 + (y + 1) / 400 ∧
      (y + 1) / 4 - (y + 1) / 100 + (y + 1) / 400 ≤ y / 4 - y / 100 + y / 400 + 1 := by
  omega

/-- A month has 28 to 31 days. -/
theorem monthDay_succ (m : ℤ) : monthDay m + 28 ≤ monthDay (m + 1) ∧
    monthDay (m + 1) ≤ monthDay m + 31 := by
  unfold monthDay
  by_cases hr : m % 12 = 11
  · -- from February to March, where the leap day is
    have hdiv : (m + 1) / 12 = m / 12 + 1 := by omega
    have hmod : (m + 1) % 12 = 0 := by omega
    have hleap := leapDays_succ (m / 12)
    rw [hdiv, hmod, hr]
    omega
  · have hdiv : (m + 1) / 12 = m / 12 := by omega
    have hmod : (m + 1) % 12 = m % 12 + 1 := by omega
    rw [hdiv, hmod]
    omega

def months : Boundaries := ⟨monthDay, strictMono_int_of_lt_succ fun m => by
  have := monthDay_succ m
  omega⟩

/-- Twelve months have at most 366 days. -/
theorem monthDay_add_twelve (m : ℤ) : monthDay (m + 12) ≤ monthDay m + 366 := by
  unfold monthDay
  have hdiv : (m + 12) / 12 = m / 12 + 1 := by omega
  have hmod : (m + 12) % 12 = m % 12 := by omega
  have hleap := leapDays_succ (m / 12)
  rw [hdiv, hmod]
  omega
