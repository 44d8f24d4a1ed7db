import Mathlib.Data.Nat.Digits.Lemmas
import Mathlib.Data.Nat.Bitwise
import Mathlib.Tactic.Ring

/-!
# Byte strings as little-endian numbers

A byte string denotes the number whose base-256 digits are its bytes, least
significant first.  Every fixed-width load and store, every bit field and every
bit stream of a little-endian format is arithmetic on that number: appending is
addition of a shifted number, reading `k` bits from bit position `p` is a
division by `2 ^ p` followed by a remainder modulo `2 ^ k`.
-/

namespace Bytes

open List Nat

/-- One byte. -/
abbrev Byte := BitVec 8

instance : LawfulBEq Byte := inferInstance

instance : LawfulBEq (List Byte) := inferInstance

/-- The number the bytes denote, least significant byte first. -/
def leNat (bs : List Byte) : ℕ := Nat.ofDigits 256 (bs.map BitVec.toNat)

/-- The `k` low bytes of `v`, least significant first. -/
def leBytes : ℕ → ℕ → List Byte
  | 0, _ => []
  | k + 1, v => BitVec.ofNat 8 v :: leBytes k (v / 256)

/-- Bit `i` of the byte string; past the end every bit is `false`. -/
def bitAt (bs : List Byte) (i : ℕ) : Bool := (bs.getD (i / 8) 0).getLsbD (i % 8)

/-- The `len` bytes from offset `pos`, when all of them exist. -/
def slice (bs : List Byte) (pos len : ℕ) : Option (List Byte) :=
  if pos + len ≤ bs.length then some ((bs.drop pos).take len) else none

/-- The bit field of `width` bits that starts at bit `pos`, as a number. -/
def fieldAt (bs : List Byte) (pos width : ℕ) : ℕ := leNat bs / 2 ^ pos % 2 ^ width

/-! ### Loads and stores -/

@[simp] theorem leNat_nil : leNat [] = 0 := rfl

theorem leNat_cons (b : Byte) (bs : List Byte) : leNat (b :: bs) = b.toNat + 256 * leNat bs := by
  simp [leNat, ofDigits_cons]

theorem leNat_append (as bs : List Byte) :
    leNat (as ++ bs) = leNat as + 256 ^ as.length * leNat bs := by
  simp [leNat, ofDigits_append]

theorem leNat_lt (bs : List Byte) : leNat bs < 256 ^ bs.length := by
  induction bs with
  | nil => simp
  | cons b bs ih =>
    have hb := b.isLt
    rw [leNat_cons, length_cons, pow_succ]
    omega

@[simp] theorem length_leBytes (k v : ℕ) : (leBytes k v).length = k := by
  induction k generalizing v with
  | zero => rfl
  | succ k ih => simp [leBytes, ih]

theorem leNat_leBytes (k v : ℕ) : leNat (leBytes k v) = v % 256 ^ k := by
  induction k generalizing v with
  | zero => simp [leBytes, mod_one]
  | succ k ih =>
    rw [leBytes, leNat_cons, ih, BitVec.toNat_ofNat, show (256 : ℕ) ^ (k + 1) = 256 * 256 ^ k from
      pow_succ' 256 k, mod_mul]

theorem leNat_leBytes_of_lt {k v : ℕ} (h : v < 256 ^ k) : leNat (leBytes k v) = v := by
  rw [leNat_leBytes, mod_eq_of_lt h]

theorem leBytes_leNat (bs : List Byte) : leBytes bs.length (leNat bs) = bs := by
  induction bs with
  | nil => rfl
  | cons b bs ih =>
    have hb := b.isLt
    rw [length_cons, leBytes, leNat_cons, show (b.toNat + 256 * leNat bs) / 256 = leNat bs by
      omega, ih]
    congr 1
    apply BitVec.eq_of_toNat_eq
    rw [BitVec.toNat_ofNat]
    omega

/-- A byte string is determined by its length and its number. -/
theorem eq_of_leNat_eq {as bs : List Byte} (hlen : as.length = bs.length)
    (h : leNat as = leNat bs) : as = bs := by
  rw [← leBytes_leNat as, hlen, h, leBytes_leNat]

theorem leBytes_mod (k v : ℕ) : leBytes k (v % 256 ^ k) = leBytes k v := by
  have h := leBytes_leNat (leBytes k v)
  rwa [length_leBytes, leNat_leBytes] at h

/-! ### Slices -/

variable {bs : List Byte} {pos : ℕ}

theorem slice_eq_some {len : ℕ} (h : pos + len ≤ bs.length) :
    slice bs pos len = some ((bs.drop pos).take len) := if_pos h

/-- Reading back a piece of a concatenation. -/
theorem slice_append (as bs cs : List Byte) :
    slice (as ++ (bs ++ cs)) as.length bs.length = some bs := by
  rw [slice_eq_some (by simp)]
  simp

theorem slice_append_zero (bs cs : List Byte) : slice (bs ++ cs) 0 bs.length = some bs := by
  simpa using slice_append [] bs cs

/-! ### Bits -/

theorem bitAt_cons_lt {i : ℕ} (b : Byte) (bs : List Byte) (hi : i < 8) :
    bitAt (b :: bs) i = b.getLsbD i := by
  simp [bitAt, div_eq_of_lt hi, mod_eq_of_lt hi]

theorem bitAt_cons_ge {i : ℕ} (b : Byte) (bs : List Byte) (hi : 8 ≤ i) :
    bitAt (b :: bs) i = bitAt bs (i - 8) := by
  obtain ⟨j, rfl⟩ := Nat.exists_eq_add_of_le hi
  simp [bitAt, add_comm 8 j]

/-- The bits of the number are the bits of the bytes. -/
theorem testBit_leNat (bs : List Byte) (i : ℕ) : (leNat bs).testBit i = bitAt bs i := by
  induction bs generalizing i with
  | nil => simp [bitAt]
  | cons b bs ih =>
    have hb : b.toNat < 2 ^ 8 := b.isLt
    rw [leNat_cons, show b.toNat + 256 * leNat bs = 2 ^ 8 * leNat bs + b.toNat by omega,
      testBit_two_pow_mul_add _ hb]
    rcases lt_or_ge i 8 with h | h
    · rw [if_pos h, bitAt_cons_lt b bs h]
      rfl
    · rw [if_neg (by omega), bitAt_cons_ge b bs h, ih]

theorem testBit_fieldAt (bs : List Byte) (pos width i : ℕ) :
    (fieldAt bs pos width).testBit i = (decide (i < width) && bitAt bs (pos + i)) := by
  rw [fieldAt, testBit_mod_two_pow, testBit_div_two_pow, testBit_leNat, add_comm i pos]

theorem two_pow_eight_mul (k : ℕ) : 2 ^ (8 * k) = 256 ^ k := pow_mul 2 8 k

/-- The bytes of the word at byte offset `k` are the bit field that starts at bit `8 * k`. -/
theorem leNat_drop (bs : List Byte) (k : ℕ) : leNat (bs.drop k) = leNat bs / 2 ^ (8 * k) := by
  rcases lt_or_ge bs.length k with h | h
  · rw [drop_eq_nil_of_le h.le, leNat_nil, eq_comm, Nat.div_eq_zero_iff]
    refine Or.inr ((leNat_lt bs).trans_le ?_)
    rw [two_pow_eight_mul]
    exact Nat.pow_le_pow_right (by norm_num) h.le
  · conv_rhs => rw [← take_append_drop k bs, leNat_append, length_take_of_le h]
    have hlt : leNat (bs.take k) < 256 ^ k := by
      simpa [length_take_of_le h] using leNat_lt (bs.take k)
    rw [two_pow_eight_mul, add_mul_div_left _ _ (by positivity), div_eq_of_lt hlt, zero_add]

theorem leNat_take (bs : List Byte) (k : ℕ) : leNat (bs.take k) = leNat bs % 2 ^ (8 * k) := by
  rcases lt_or_ge bs.length k with h | h
  · rw [take_of_length_le h.le, mod_eq_of_lt]
    refine (leNat_lt bs).trans_le ?_
    rw [two_pow_eight_mul]
    exact Nat.pow_le_pow_right (by norm_num) h.le
  · conv_rhs => rw [← take_append_drop k bs, leNat_append, length_take_of_le h]
    have hlt : leNat (bs.take k) < 256 ^ k := by
      simpa [length_take_of_le h] using leNat_lt (bs.take k)
    rw [two_pow_eight_mul, add_mul_mod_self_left, mod_eq_of_lt hlt]

/-! ### OR-ing a byte string into a buffer -/

/-- OR the given bytes into the buffer from byte offset `pos` on. -/
def orAt (buf : List Byte) (pos : ℕ) : List Byte → List Byte
  | [] => buf
  | b :: bs => orAt (buf.modify pos (· ||| b)) (pos + 1) bs

@[simp] theorem length_orAt (buf : List Byte) (pos : ℕ) (bs : List Byte) :
    (orAt buf pos bs).length = buf.length := by
  induction bs generalizing buf pos with
  | nil => rfl
  | cons b bs ih => rw [orAt, ih, length_modify]

theorem bitAt_modify_or {buf : List Byte} (h : pos < buf.length) (b : Byte) (j : ℕ) :
    bitAt (buf.modify pos (· ||| b)) j =
      (bitAt buf j || (decide (j / 8 = pos) && b.getLsbD (j % 8))) := by
  unfold bitAt
  rw [getD_eq_getElem?_getD, getElem?_modify, getD_eq_getElem?_getD]
  by_cases hj : pos = j / 8
  · subst hj
    simp [getElem?_eq_getElem h]
  · simp [hj, Ne.symm hj]

theorem bitAt_orAt {buf : List Byte} (h : pos + bs.length ≤ buf.length) (j : ℕ) :
    bitAt (orAt buf pos bs) j =
      (bitAt buf j || (decide (8 * pos ≤ j) && bitAt bs (j - 8 * pos))) := by
  induction bs generalizing buf pos with
  | nil => simp [orAt, bitAt]
  | cons b bs ih =>
    rw [length_cons] at h
    rw [orAt, ih (by rw [length_modify]; omega), bitAt_modify_or (by omega), Bool.or_assoc]
    congr 1
    -- the byte `b` itself, the bytes behind it, and the bits in front of it
    rcases lt_or_ge j (8 * pos) with hj | hj
    · have h1 : ¬ j / 8 = pos := by omega
      have h2 : ¬ 8 * (pos + 1) ≤ j := by omega
      simp [h1, h2, not_le.mpr hj]
    · rcases lt_or_ge j (8 * pos + 8) with hj' | hj'
      · have h1 : j / 8 = pos := by omega
        have h2 : ¬ 8 * (pos + 1) ≤ j := by omega
        rw [bitAt_cons_lt b bs (by omega), show j - 8 * pos = j % 8 by omega]
        simp [h1, h2, hj]
      · have h1 : ¬ j / 8 = pos := by omega
        have h2 : 8 * (pos + 1) ≤ j := by omega
        rw [bitAt_cons_ge b bs (by omega), show j - 8 * (pos + 1) = j - 8 * pos - 8 by omega]
        simp [h1, h2, hj]

/-- OR-ing bytes into a buffer is OR on the numbers. -/
theorem leNat_orAt {buf : List Byte} (h : pos + bs.length ≤ buf.length) :
    leNat (orAt buf pos bs) = leNat buf ||| (leNat bs <<< (8 * pos)) := by
  apply eq_of_testBit_eq
  intro j
  rw [testBit_leNat, bitAt_orAt h, testBit_or, testBit_leNat, testBit_shiftLeft, testBit_leNat]

theorem leBytes_eq_map (k v : ℕ) :
    leBytes k v = (List.range k).map fun i => BitVec.ofNat 8 (v / 256 ^ i) := by
  induction k generalizing v with
  | zero => rfl
  | succ k ih =>
    rw [leBytes, ih, range_succ_eq_map, map_cons, map_map]
    congr 1
    · simp
    · apply map_congr_left
      intro i _
      simp [Nat.div_div_eq_div_mul, pow_succ']

/-! ### Digits -/

/-- Digit `i` of a number given by its digits. -/
theorem ofDigits_div_mod {b : ℕ} (hb : 0 < b) {ds : List ℕ} (hd : ∀ d ∈ ds, d < b) (i : ℕ) :
    Nat.ofDigits b ds / b ^ i % b = ds.getD i 0 := by
  rw [ofDigits_div_pow_eq_ofDigits_drop i hb ds hd]
  rcases lt_or_ge i ds.length with h | h
  · rw [drop_eq_getElem_cons h, ofDigits_cons, add_mul_mod_self_left, getD_eq_getElem _ _ h]
    exact mod_eq_of_lt (hd _ (getElem_mem h))
  · rw [drop_eq_nil_of_le h, getD_eq_default _ _ h]
    simp

/-- A field that ends inside the first part of a concatenation is read from it. -/
theorem fieldAt_append {as : List Byte} {width : ℕ} (h : pos + width ≤ 8 * as.length)
    (bs : List Byte) : fieldAt (as ++ bs) pos width = fieldAt as pos width := by
  apply eq_of_testBit_eq
  intro i
  rw [testBit_fieldAt, testBit_fieldAt]
  by_cases hi : i < width
  · have hlt : (pos + i) / 8 < as.length := by omega
    simp [hi, bitAt, getD_eq_getElem?_getD, getElem?_append_left hlt]
  · simp [hi]

end Bytes
