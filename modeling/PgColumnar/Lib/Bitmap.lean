import PgColumnar.Lib.Bytes

/-!
# Bitmaps as byte strings

Bit `i` of a bitmap is bit `i % 8` of byte `i / 8`; past the end every bit is
clear.
-/

namespace Bytes

open List Nat

/-- A bitmap of `len` bytes with no bit set. -/
def zeros (len : ℕ) : List Byte := List.replicate len 0

/-- Set bit `i`. -/
def setBit (mask : List Byte) (i : ℕ) : List Byte :=
  mask.modify (i / 8) (· ||| (1#8 <<< (i % 8)))

/-- Merge the bits of the second bitmap into the first, which keeps its length. -/
def orBytes : List Byte → List Byte → List Byte
  | [], _ => []
  | a :: as, [] => a :: as
  | a :: as, b :: bs => (a ||| b) :: orBytes as bs

/-- The number of set bits. -/
def popcount (mask : List Byte) : ℕ := (List.range (8 * mask.length)).countP (bitAt mask)

@[simp] theorem length_setBit (mask : List Byte) (i : ℕ) :
    (setBit mask i).length = mask.length := by
  simp [setBit]

@[simp] theorem length_zeros (len : ℕ) : (zeros len).length = len := by simp [zeros]

@[simp] theorem bitAt_nil (i : ℕ) : bitAt [] i = false := by simp [bitAt]

@[simp] theorem bitAt_zeros (len i : ℕ) : bitAt (zeros len) i = false := by
  unfold bitAt zeros
  rw [getD_eq_getElem?_getD, getElem?_replicate]
  split <;> simp

variable {mask : List Byte}

theorem bitAt_setBit {i : ℕ} (h : i < 8 * mask.length) (k : ℕ) :
    bitAt (setBit mask i) k = (bitAt mask k || decide (k = i)) := by
  unfold setBit
  rw [bitAt_modify_or (by omega)]
  congr 1
  have hlow : (1#8 <<< (i % 8)).getLsbD (k % 8) = decide (k % 8 = i % 8) := by
    have h1 : k % 8 < 8 := mod_lt _ (by decide)
    rw [BitVec.getLsbD_shiftLeft]
    simp only [h1, decide_true, Bool.true_and, BitVec.getLsbD_one]
    by_cases hk : k % 8 = i % 8
    · simp [hk]
    · rcases lt_or_gt_of_ne hk with hlt | hgt
      · simp [hlt, hk]
      · have : k % 8 - i % 8 ≠ 0 := by omega
        simp [hk, this]
  rw [hlow, ← Bool.decide_and]
  congr 1
  simp only [eq_iff_iff]
  omega

@[simp] theorem length_orBytes (as bs : List Byte) : (orBytes as bs).length = as.length := by
  induction as generalizing bs with
  | nil => rfl
  | cons a as ih =>
    cases bs with
    | nil => rfl
    | cons b bs => simp [orBytes, ih]

theorem bitAt_orBytes {as bs : List Byte} {i : ℕ} (h : i < 8 * as.length) :
    bitAt (orBytes as bs) i = (bitAt as i || bitAt bs i) := by
  induction as generalizing bs i with
  | nil => simp at h
  | cons a as ih =>
    cases bs with
    | nil => simp [orBytes]
    | cons b bs =>
      rw [orBytes]
      rcases lt_or_ge i 8 with hi | hi
      · simp [bitAt_cons_lt _ _ hi]
      · simp only [bitAt_cons_ge _ _ hi]
        exact ih (by simp at h; omega)

theorem lt_of_bitAt {i : ℕ} (h : bitAt mask i = true) : i < 8 * mask.length := by
  unfold bitAt at h
  by_contra hlt
  rw [getD_eq_default _ _ (by omega)] at h
  simp at h

@[simp] theorem length_foldl_setBit (rows : List ℕ) (mask : List Byte) :
    (rows.foldl setBit mask).length = mask.length := by
  induction rows generalizing mask with
  | nil => rfl
  | cons r rows ih => rw [foldl_cons, ih, length_setBit]

theorem bitAt_foldl_setBit {rows : List ℕ} (h : ∀ r ∈ rows, r < 8 * mask.length)
    (k : ℕ) : bitAt (rows.foldl setBit mask) k = (bitAt mask k || decide (k ∈ rows)) := by
  induction rows generalizing mask with
  | nil => simp
  | cons r rows ih =>
    rw [foldl_cons, ih, bitAt_setBit (h r mem_cons_self)]
    · simp only [mem_cons, Bool.decide_or, Bool.or_assoc]
    · intro r' hr'
      rw [length_setBit]
      exact h r' (mem_cons_of_mem _ hr')

/-- As many set bits as there are places below `n`, and none elsewhere: all are set. -/
theorem bitAt_of_le_popcount {n : ℕ} (hlt : ∀ k, bitAt mask k = true → k < n)
    (hn : n ≤ popcount mask) : ∀ k < n, bitAt mask k = true := by
  have hcount : popcount mask ≤ (List.range n).countP (bitAt mask) := by
    unfold popcount
    rcases le_total (8 * mask.length) n with hle | hle
    · exact (range_sublist.mpr hle).countP_le
    · obtain ⟨m, hm⟩ := Nat.exists_eq_add_of_le hle
      have hrest : ((List.range m).map (n + ·)).countP (bitAt mask) = 0 := by
        rw [countP_eq_zero]
        intro k hk hbit
        obtain ⟨j, _, rfl⟩ := mem_map.mp hk
        have := hlt _ hbit
        omega
      rw [hm, range_add, countP_append, hrest]
      exact le_refl _
  have hall : (List.range n).countP (bitAt mask) = (List.range n).length := by
    refine le_antisymm countP_le_length ?_
    rw [length_range]
    exact le_trans hn hcount
  intro k hk
  exact countP_eq_length.mp hall k (mem_range.mpr hk)

end Bytes
