import Mathlib.Algebra.BigOperators.Group.List.Basic
import Mathlib.Algebra.Order.Field.Basic
import Mathlib.Tactic.Ring

/-!
# Numbers with infinities and NaN

The values of a floating-point type when no finite operation rounds or overflows: the numbers of an
ordered field, two infinities, and NaN.
-/

inductive Extended (K : Type)
  | fin (x : K)
  /-- `neg` is set for the negative one -/
  | inf (neg : Bool)
  | nan
  deriving DecidableEq

namespace Extended

variable {K : Type}

def IsFin (a : Extended K) : Prop := ∃ x, a = fin x

def IsInf (a : Extended K) : Prop := ∃ s, a = inf s

instance (a : Extended K) : Decidable a.IsFin :=
  match a with
  | fin x => .isTrue ⟨x, rfl⟩
  | inf _ => .isFalse nofun
  | nan => .isFalse nofun

instance (a : Extended K) : Decidable a.IsInf :=
  match a with
  | inf s => .isTrue ⟨s, rfl⟩
  | fin _ => .isFalse nofun
  | nan => .isFalse nofun

section Kinds

variable {a : Extended K} {x : K} {s : Bool}

@[simp] theorem isFin_fin : (fin x : Extended K).IsFin := ⟨x, rfl⟩
@[simp] theorem not_isFin_inf : ¬ (inf s : Extended K).IsFin := nofun
@[simp] theorem not_isFin_nan : ¬ (nan : Extended K).IsFin := nofun
@[simp] theorem isInf_inf : (inf s : Extended K).IsInf := ⟨s, rfl⟩
@[simp] theorem not_isInf_fin : ¬ (fin x : Extended K).IsInf := nofun
@[simp] theorem not_isInf_nan : ¬ (nan : Extended K).IsInf := nofun

theorem eq_nan_of_not (hf : ¬ a.IsFin) (hi : ¬ a.IsInf) : a = nan := by
  cases a with
  | fin x => exact absurd isFin_fin hf
  | inf s => exact absurd isInf_inf hi
  | nan => rfl

end Kinds

variable [Field K]

protected def add : Extended K → Extended K → Extended K
  | fin x, fin y => fin (x + y)
  | inf s, fin _ => inf s
  | fin _, inf t => inf t
  | inf s, inf t => if s = t then inf s else nan
  | nan, _ => nan
  | _, nan => nan

protected def neg : Extended K → Extended K
  | fin x => fin (-x)
  | inf s => inf (!s)
  | nan => nan

protected def mul [LinearOrder K] : Extended K → Extended K → Extended K
  | fin x, fin y => fin (x * y)
  | inf s, fin y => if y = 0 then nan else inf (s != decide (y < 0))
  | fin x, inf t => if x = 0 then nan else inf (t != decide (x < 0))
  | inf s, inf t => inf (s != t)
  | nan, _ => nan
  | _, nan => nan

/-- A zero divisor is taken as positive. -/
protected def div [LinearOrder K] : Extended K → Extended K → Extended K
  | fin x, fin y => if y = 0 then (if x = 0 then nan else inf (decide (x < 0))) else fin (x / y)
  | inf s, fin y => inf (s != decide (y < 0))
  | fin _, inf _ => fin 0
  | inf _, inf _ => nan
  | nan, _ => nan
  | _, nan => nan

instance : Zero (Extended K) := ⟨fin 0⟩
instance : Add (Extended K) := ⟨Extended.add⟩
instance : Neg (Extended K) := ⟨Extended.neg⟩
instance : Sub (Extended K) := ⟨fun a b => a + -b⟩
instance [LinearOrder K] : Mul (Extended K) := ⟨Extended.mul⟩
instance [LinearOrder K] : Div (Extended K) := ⟨Extended.div⟩

/-- A row count as a value. -/
def ofNat (n : ℕ) : Extended K := fin n

section Rules

variable (x y : K) (s t : Bool) (a : Extended K)

theorem zero_def : (0 : Extended K) = fin 0 := rfl
@[simp] theorem fin_add_fin : (fin x : Extended K) + fin y = fin (x + y) := rfl
@[simp] theorem inf_add_fin : (inf s : Extended K) + fin y = inf s := rfl
@[simp] theorem fin_add_inf : (fin x : Extended K) + inf t = inf t := rfl
theorem inf_add_inf : (inf s : Extended K) + inf t = if s = t then inf s else nan := rfl
@[simp] theorem nan_add : (nan : Extended K) + a = nan := by cases a <;> rfl
@[simp] theorem add_nan : a + (nan : Extended K) = nan := by cases a <;> rfl
@[simp] theorem fin_sub_fin : (fin x : Extended K) - fin y = fin (x - y) := by
  rw [sub_eq_add_neg]
  rfl
@[simp] theorem inf_sub_fin : (inf s : Extended K) - fin y = inf s := rfl
@[simp] theorem fin_sub_inf : (fin x : Extended K) - inf t = inf (!t) := rfl
theorem inf_sub_inf : (inf s : Extended K) - inf t = if s = t then nan else inf s := by
  cases s <;> cases t <;> rfl
@[simp] theorem nan_sub : (nan : Extended K) - a = nan := by cases a <;> rfl
@[simp] theorem sub_nan : a - (nan : Extended K) = nan := by cases a <;> rfl

end Rules

/-! ### Products and quotients -/

section Products

variable [LinearOrder K] (x y : K) (s t : Bool) (a : Extended K)

@[simp] theorem fin_mul_fin : (fin x : Extended K) * fin y = fin (x * y) := rfl
@[simp] theorem inf_mul_inf : (inf s : Extended K) * inf t = inf (s != t) := rfl
@[simp] theorem nan_mul : (nan : Extended K) * a = nan := by cases a <;> rfl
@[simp] theorem mul_nan : a * (nan : Extended K) = nan := by cases a <;> rfl
@[simp] theorem nan_div : (nan : Extended K) / a = nan := by cases a <;> rfl

theorem fin_div_fin (h : y ≠ 0) : (fin x : Extended K) / fin y = fin (x / y) := if_neg h

theorem inf_div_fin (h : 0 < y) : (inf s : Extended K) / fin y = inf s := by
  change inf (s != decide (y < 0)) = inf s
  simp [h.not_gt]

theorem fin_mul_inf (h : 0 < x) : (fin x : Extended K) * inf t = inf t := by
  change (if x = 0 then nan else inf (t != decide (x < 0))) = inf t
  simp [h.ne', h.not_gt]

theorem inf_mul_fin (h : 0 < x) : (inf t : Extended K) * fin x = inf t := by
  change (if x = 0 then nan else inf (t != decide (x < 0))) = inf t
  simp [h.ne', h.not_gt]

end Products

/-! ### Sums -/

/-- Addition is associative and commutative, NaN included. -/
instance instAddCommMonoid : AddCommMonoid (Extended K) where
  add_assoc := by
    intro a b c
    cases a <;> cases b <;> cases c <;> simp [add_assoc, inf_add_inf]
    all_goals split_ifs <;> simp_all [inf_add_inf]
  zero_add := by
    intro a
    cases a <;> simp [zero_def]
  add_zero := by
    intro a
    cases a <;> simp [zero_def]
  add_comm := by
    intro a b
    cases a <;> cases b <;> simp [add_comm, inf_add_inf]
    split_ifs <;> simp_all
  nsmul := nsmulRec

section KindsOfSums

variable {a b : Extended K}

@[simp] theorem isFin_add_iff : (a + b).IsFin ↔ a.IsFin ∧ b.IsFin := by
  cases a <;> cases b <;> simp [inf_add_inf]
  split_ifs <;> simp

/-- An infinite sum has an infinite part. -/
theorem isInf_add (h : (a + b).IsInf) : a.IsInf ∨ b.IsInf := by
  cases a <;> cases b <;> simp at h ⊢

/-- With one part not infinite, a sum is infinite only through the other. -/
theorem isInf_add_iff (ha : ¬ a.IsInf) : (a + b).IsInf ↔ a.IsFin ∧ b.IsInf := by
  cases a <;> cases b <;> simp at ha ⊢

@[simp] theorem isFin_sub_iff : (a - b).IsFin ↔ a.IsFin ∧ b.IsFin := by
  cases a <;> cases b <;> simp [inf_sub_inf]
  split_ifs <;> simp

theorem isInf_sub_iff : (a - b).IsInf ↔
    a.IsInf ∧ b.IsFin ∨ a.IsFin ∧ b.IsInf ∨ ∃ s, a = inf s ∧ b = inf !s := by
  cases a with
  | fin x => cases b <;> simp
  | nan => simp
  | inf s =>
    cases b with
    | fin y | nan => simp
    | inf t => cases s <;> cases t <;> simp [inf_sub_inf]

theorem isFin_sum_iff {l : List (Extended K)} : l.sum.IsFin ↔ ∀ a ∈ l, a.IsFin := by
  induction l with
  | nil => simp [zero_def]
  | cons a l ih => simp [ih]

end KindsOfSums

section KindsOfProducts

variable [LinearOrder K] {a : Extended K} {x : K}

theorem isFin_div_fin (h : 0 < x) : (a / fin x).IsFin ↔ a.IsFin := by
  cases a with
  | fin y => simp [fin_div_fin y x h.ne']
  | inf s => simp [inf_div_fin x s h]
  | nan => simp

theorem isInf_div_fin (h : 0 < x) : (a / fin x).IsInf ↔ a.IsInf := by
  cases a with
  | fin y => simp [fin_div_fin y x h.ne']
  | inf s => simp [inf_div_fin x s h]
  | nan => simp

theorem isFin_mul_fin (h : 0 < x) : (a * fin x).IsFin ↔ a.IsFin := by
  cases a with
  | fin y | nan => simp
  | inf s => simp [inf_mul_fin x s h]

theorem isFin_mul_self : (a * a).IsFin ↔ a.IsFin := by
  cases a <;> simp

/-- A square scaled by a positive number is finite when its root is. -/
theorem isFin_fin_mul_mul_self (h : 0 < x) : (fin x * a * a).IsFin ↔ a.IsFin := by
  cases a with
  | fin y | nan => simp
  | inf s => simp [fin_mul_inf x s h]

/-- A square scaled by a positive number is infinite when its root is. -/
theorem isInf_fin_mul_mul_self (h : 0 < x) : (fin x * a * a).IsInf ↔ a.IsInf := by
  cases a with
  | fin y | nan => simp
  | inf s => simp [fin_mul_inf x s h]

end KindsOfProducts

end Extended
