import Mathlib.Algebra.Order.Ring.Int
import Mathlib.Data.Int.Order.Basic

/-!
# Three-way comparisons

A comparison returns a number whose sign says how its arguments are ordered.  A second
comparison, against values of another type, may refine the same order.

## Main definitions

* `TotalCmp` — a total order; `Agrees` ties a comparison with another type to it.
* `lex` — one comparison after another.
-/

namespace Compare

open Int

variable {α β : Type*} {cmp : α → α → ℤ} {cross : α → β → ℤ} {a b c : α}

/-- The comparison is a total order, up to values that it calls equal. -/
structure TotalCmp (cmp : α → α → ℤ) : Prop where
  swap : ∀ a b, (cmp b a).sign = -(cmp a b).sign
  trans : ∀ a b c, cmp a b ≤ 0 → cmp b c ≤ 0 → cmp a c ≤ 0

/-- A greater value does not compare less with a value of the other type. -/
def Agrees (cmp : α → α → ℤ) (cross : α → β → ℤ) : Prop :=
  ∀ a a' b, cmp a a' ≤ 0 → (cross a b).sign ≤ (cross a' b).sign

theorem TotalCmp.self (h : TotalCmp cmp) (a : α) : cmp a a = 0 := by
  have := h.swap a a
  apply sign_eq_zero_iff_zero.mp
  omega

theorem sign_nonpos {x : ℤ} : x.sign ≤ 0 ↔ x ≤ 0 := by
  rw [← not_lt, ← not_lt, sign_pos_iff]

theorem sign_nonneg {x : ℤ} : 0 ≤ x.sign ↔ 0 ≤ x := by
  rw [← not_lt, ← not_lt, sign_neg_iff]

theorem sign_mono {x y : ℤ} (h : x ≤ y) : x.sign ≤ y.sign := by
  rcases lt_trichotomy x 0 with hx | hx | hx
  · rw [sign_eq_neg_one_of_neg hx]
    rcases lt_trichotomy y 0 with hy | hy | hy
    · rw [sign_eq_neg_one_of_neg hy]
    · rw [hy]
      decide
    · rw [sign_eq_one_of_pos hy]
      decide
  · rw [hx, sign_zero, sign_nonneg]
    omega
  · rw [sign_eq_one_of_pos hx, sign_eq_one_of_pos (by omega)]

theorem TotalCmp.le_swap (h : TotalCmp cmp) : cmp b a ≤ 0 ↔ 0 ≤ cmp a b := by
  rw [← sign_nonpos, h.swap, ← sign_nonneg]
  omega

theorem TotalCmp.lt_swap (h : TotalCmp cmp) : cmp b a < 0 ↔ 0 < cmp a b := by
  rw [← sign_neg_iff, h.swap, ← sign_pos_iff]
  omega

theorem TotalCmp.lt_of_lt_of_le (h : TotalCmp cmp) (hab : cmp a b < 0) (hbc : cmp b c ≤ 0) :
    cmp a c < 0 := by
  by_contra hac
  have hca : cmp c a ≤ 0 := h.le_swap.mpr (not_lt.mp hac)
  have hba := h.trans b c a hbc hca
  have := h.le_swap.mp hba
  omega

theorem TotalCmp.lt_of_le_of_lt (h : TotalCmp cmp) (hab : cmp a b ≤ 0) (hbc : cmp b c < 0) :
    cmp a c < 0 := by
  by_contra hac
  have hca : cmp c a ≤ 0 := h.le_swap.mpr (not_lt.mp hac)
  have hcb := h.trans c a b hca hab
  have := h.le_swap.mp hcb
  omega

/-- A comparison by an integer key. -/
theorem totalCmp_of_key {key : α → ℤ} (h : ∀ a b, (cmp a b).sign = (key a - key b).sign) :
    TotalCmp cmp where
  swap a b := by
    rw [h, h, ← sign_neg, neg_sub]
  trans a b c hab hbc := by
    rw [← sign_nonpos, h, sign_nonpos] at hab hbc ⊢
    omega

/-- A comparison with another type by keys of both. -/
theorem agrees_of_key {key : α → ℤ} {key' : β → ℤ}
    (h : ∀ a b, (cmp a b).sign = (key a - key b).sign)
    (h' : ∀ a b, (cross a b).sign = (key a - key' b).sign) : Agrees cmp cross := by
  intro a a' b haa
  rw [← sign_nonpos, h, sign_nonpos] at haa
  rw [h', h']
  exact sign_mono (by omega)

/-- A total order agrees with itself. -/
theorem TotalCmp.agrees (h : TotalCmp cmp) : Agrees cmp cmp := by
  intro a a' b haa
  rcases lt_trichotomy (cmp a' b) 0 with hlt | heq | hgt
  · rw [sign_eq_neg_one_of_neg (h.lt_of_le_of_lt haa hlt)]
    rw [sign_eq_neg_one_of_neg hlt]
  · rw [heq, sign_zero, sign_nonpos]
    exact h.trans a a' b haa (le_of_eq heq)
  · rw [sign_eq_one_of_pos hgt]
    rcases lt_trichotomy (cmp a b) 0 with h1 | h1 | h1
    · rw [sign_eq_neg_one_of_neg h1]
      decide
    · rw [h1]
      decide
    · rw [sign_eq_one_of_pos h1]

variable {a' : α}

theorem Agrees.neg (h : Agrees cmp cross) {a : α} {b : β} (haa : cmp a a' ≤ 0)
    (hlt : cross a' b < 0) : cross a b < 0 := by
  have := h a a' b haa
  rw [sign_eq_neg_one_of_neg hlt] at this
  apply sign_neg_iff.mp
  omega

theorem Agrees.pos (h : Agrees cmp cross) {a : α} {b : β} (haa : cmp a a' ≤ 0)
    (hgt : 0 < cross a b) : 0 < cross a' b := by
  have := h a a' b haa
  rw [sign_eq_one_of_pos hgt] at this
  apply sign_pos_iff.mp
  omega

theorem Agrees.nonpos (h : Agrees cmp cross) {a : α} {b : β} (haa : cmp a a' ≤ 0)
    (hle : cross a' b ≤ 0) : cross a b ≤ 0 := by
  rw [← sign_nonpos] at hle ⊢
  exact (h a a' b haa).trans hle

theorem Agrees.nonneg (h : Agrees cmp cross) {a : α} {b : β} (haa : cmp a a' ≤ 0)
    (hge : 0 ≤ cross a b) : 0 ≤ cross a' b := by
  rw [← sign_nonneg] at hge ⊢
  exact hge.trans (h a a' b haa)

/-! ### Comparisons built from others -/

/-- An absent value comes last. -/
def nullsLast (cmp : α → α → ℤ) : Option α → Option α → ℤ
  | none, none => 0
  | none, some _ => 1
  | some _, none => -1
  | some a, some b => cmp a b

theorem TotalCmp.nullsLast (h : TotalCmp cmp) : TotalCmp (nullsLast cmp) where
  swap a b := by
    cases a with
    | none => cases b <;> rfl
    | some a =>
      cases b with
      | none => rfl
      | some b => exact h.swap a b
  trans a b c hab hbc := by
    cases a <;> cases b <;> cases c <;> simp_all only [Compare.nullsLast] <;> try omega
    exact h.trans _ _ _ hab hbc

/-- The second comparison decides what the first leaves open. -/
def lex (first second : α → α → ℤ) (a b : α) : ℤ :=
  if first a b = 0 then second a b else first a b

theorem lex_eq_zero {first second : α → α → ℤ} :
    lex first second a b = 0 ↔ first a b = 0 ∧ second a b = 0 := by
  unfold lex
  split <;> simp_all

theorem lex_nonpos {first second : α → α → ℤ} (h : lex first second a b ≤ 0) : first a b ≤ 0 := by
  unfold lex at h
  split at h <;> omega

theorem TotalCmp.lex {first second : α → α → ℤ} (h : TotalCmp first) (h' : TotalCmp second) :
    TotalCmp (lex first second) where
  swap a b := by
    unfold Compare.lex
    have hzero : first b a = 0 ↔ first a b = 0 := by
      rw [← sign_eq_zero_iff_zero, h.swap, neg_eq_zero, sign_eq_zero_iff_zero]
    by_cases hab : first a b = 0
    · rw [if_pos hab, if_pos (hzero.mpr hab)]
      exact h'.swap a b
    · rw [if_neg hab, if_neg (mt hzero.mp hab)]
      exact h.swap a b
  trans a b c hab hbc := by
    have hab' : first a b ≤ 0 := lex_nonpos hab
    have hbc' : first b c ≤ 0 := lex_nonpos hbc
    have hac := h.trans a b c hab' hbc'
    unfold Compare.lex at hab hbc ⊢
    split
    · next hzero =>
      -- the first comparison leaves all three open
      have hba : first b a ≤ 0 :=
        h.trans b c a hbc' (h.le_swap.mpr (le_of_eq hzero.symm))
      have hcb : first c b ≤ 0 :=
        h.trans c a b (h.le_swap.mpr (le_of_eq hzero.symm)) hab'
      rw [if_pos (le_antisymm hab' (h.le_swap.mp hba))] at hab
      rw [if_pos (le_antisymm hbc' (h.le_swap.mp hcb))] at hbc
      exact h'.trans a b c hab hbc
    · exact hac

theorem TotalCmp.total (h : TotalCmp cmp) (a b : α) : cmp a b ≤ 0 ∨ cmp b a ≤ 0 := by
  rw [h.le_swap]
  exact le_total _ _

theorem TotalCmp.comap (h : TotalCmp cmp) (f : β → α) : TotalCmp fun a b => cmp (f a) (f b) where
  swap a b := h.swap (f a) (f b)
  trans a b c := h.trans (f a) (f b) (f c)

end Compare
