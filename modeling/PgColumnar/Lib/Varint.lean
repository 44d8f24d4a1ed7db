import PgColumnar.Lib.Bytes

/-!
# Variable-length numbers

A number is written seven bits a byte, the low ones first; the top bit of a byte says that
another one follows.  `Encodes` allows padding with zero digits; `put` writes the shortest form.

## Main definitions

* `put`, `scan` — the writer and the reader; `Encodes` is the format.

## Main results

* `scan_overlong` — an encoding with too many digits.
-/

namespace Varint

open Bytes Nat

inductive Status
  | done
  | ended
  | overlong
  deriving DecidableEq

/-- The word read so far, and how many bytes were taken. -/
def scan (w lim : ℕ) : List Byte → ℕ → ℕ → Status × ℕ × ℕ
  | [], v, _ => (.ended, v, 0)
  | b :: bs, v, shift =>
    let v := v ||| b.toNat % 128 * 2 ^ shift % 2 ^ w
    if b.toNat < 128 then (.done, v, 1)
    else if lim < shift + 7 then (.overlong, v, 1)
    else
      let r := scan w lim bs v (shift + 7)
      (r.1, r.2.1, r.2.2 + 1)

def zigzag (z : ℤ) : ℕ := if 0 ≤ z then (2 * z).toNat else (-2 * z - 1).toNat

def unzigzag (u : ℕ) : ℤ := if u % 2 = 0 then u / 2 else -(u / 2) - 1

theorem unzigzag_zigzag (z : ℤ) : unzigzag (zigzag z) = z := by
  unfold unzigzag zigzag
  split <;> split <;> omega

/-! ### Reading -/

variable {w lim : ℕ} {bs : List Byte} {n v shift : ℕ}

theorem scan_le_length : (scan w lim bs v shift).2.2 ≤ bs.length := by
  induction bs generalizing v shift with
  | nil => simp [scan]
  | cons b bs ih =>
    simp only [scan]
    split
    · simp
    · split
      · simp
      · simpa using ih

theorem scan_ended (h : (scan w lim bs v shift).1 = .ended) :
    (scan w lim bs v shift).2.2 = bs.length := by
  induction bs generalizing v shift with
  | nil => rfl
  | cons b bs ih =>
    simp only [scan] at h ⊢
    split at h
    · cases h
    · split at h
      · cases h
      · next h1 h2 => simp [h1, h2, ih h]

theorem scan_pos (hbs : bs ≠ []) : 0 < (scan w lim bs v shift).2.2 := by
  obtain ⟨b, bs, rfl⟩ := List.exists_cons_of_ne_nil hbs
  simp only [scan]
  split
  · exact one_pos
  · split
    · exact one_pos
    · exact succ_pos _

inductive Encodes : List Byte → ℕ → Prop
  | last (b : Byte) : b.toNat < 128 → Encodes [b] b.toNat
  | more (b : Byte) {bs : List Byte} {n : ℕ} :
      128 ≤ b.toNat → Encodes bs n → Encodes (b :: bs) (b.toNat % 128 + 128 * n)

theorem Encodes.length_pos (h : Encodes bs n) : 0 < bs.length := by
  cases h <;> simp

theorem or_digit {x : ℕ} (hv : v < 2 ^ shift) (hle : shift ≤ w) :
    v ||| x * 2 ^ shift % 2 ^ w = v + x * 2 ^ shift % 2 ^ w := by
  have hx : x * 2 ^ shift % 2 ^ w = 2 ^ shift * (x % 2 ^ (w - shift)) := by
    conv_lhs => rw [mul_comm, ← Nat.add_sub_cancel' hle, pow_add, Nat.mul_mod_mul_left]
  rw [hx, Nat.or_comm, ← Nat.two_pow_add_eq_or_of_lt hv, Nat.add_comm]

theorem or_digit_lt (b : Byte) (hv : v < 2 ^ shift) (hle : shift ≤ w) :
    v ||| b.toNat % 128 * 2 ^ shift % 2 ^ w < 2 ^ (shift + 7) := by
  have hdigit : b.toNat % 128 * 2 ^ shift ≤ 127 * 2 ^ shift :=
    mul_le_mul_right _ (by omega)
  have hmod := mod_le (b.toNat % 128 * 2 ^ shift) (2 ^ w)
  rw [or_digit hv hle, pow_add]
  omega

theorem or_digit_mod (b : Byte) (n : ℕ) (hv : v < 2 ^ shift) (hle : shift ≤ w) :
    ((v ||| b.toNat % 128 * 2 ^ shift % 2 ^ w) + 2 ^ (shift + 7) * n) % 2 ^ w =
      (v + 2 ^ shift * (b.toNat % 128 + 128 * n)) % 2 ^ w := by
  rw [or_digit hv hle, pow_add]
  have h : v + 2 ^ shift * (b.toNat % 128 + 128 * n) =
      v + b.toNat % 128 * 2 ^ shift + 2 ^ shift * 2 ^ 7 * n := by ring
  rw [h]
  exact Nat.ModEq.add_right _ (Nat.ModEq.add_left _ (mod_modEq _ _))

theorem scan_of_encodes (hlim : lim ≤ w) (h : Encodes bs n) (tail : List Byte)
    (hv : v < 2 ^ shift) (hlen : shift + 7 * (bs.length - 1) ≤ lim) :
    scan w lim (bs ++ tail) v shift = (.done, (v + 2 ^ shift * n) % 2 ^ w, bs.length) := by
  induction h generalizing v shift with
  | last b hb =>
    have hle : shift ≤ w := by simp at hlen; omega
    have hdigit : b.toNat % 128 = b.toNat := mod_eq_of_lt hb
    have hlt : v ||| b.toNat % 128 * 2 ^ shift % 2 ^ w < 2 ^ w := by
      refine Nat.or_lt_two_pow (hv.trans_le (Nat.pow_le_pow_right (by decide) hle)) ?_
      exact mod_lt _ (by positivity)
    have hmod := or_digit_mod b 0 hv hle
    rw [mul_zero, add_zero, mul_zero, add_zero, mod_eq_of_lt hlt, hdigit] at hmod
    simp [scan, hb, hdigit, hmod]
  | @more b bs n hb hbs ih =>
    have hpos := hbs.length_pos
    rw [List.length_cons] at hlen
    have hle : shift ≤ w := by omega
    have hnext := ih (or_digit_lt b hv hle) (by omega)
    rw [or_digit_mod b n hv hle] at hnext
    have h1 : ¬ b.toNat < 128 := by omega
    have h2 : ¬ lim < shift + 7 := by omega
    simp [scan, h1, h2, hnext]

/-- An encoding with more digits than the loop takes. -/
theorem scan_overlong (h : Encodes bs n) (tail : List Byte) (hshift : shift ≤ lim)
    (hlen : lim < shift + 7 * (bs.length - 1)) :
    (scan w lim (bs ++ tail) v shift).1 = .overlong := by
  induction h generalizing v shift with
  | last b hb =>
    simp at hlen
    omega
  | @more b bs n hb hbs ih =>
    have hpos := hbs.length_pos
    rw [List.length_cons] at hlen
    have h1 : ¬ b.toNat < 128 := by omega
    by_cases h2 : lim < shift + 7
    · simp [scan, h1, h2]
    · have hnext : (scan w lim (bs ++ tail) (v ||| b.toNat % 128 * 2 ^ shift % 2 ^ w)
          (shift + 7)).1 = .overlong := ih (by omega) (by omega)
      simp [scan, h1, h2, hnext]

theorem encodes_of_scan (hlim : lim ≤ w) {u k : ℕ} (hv : v < 2 ^ shift) (hshift : shift ≤ lim)
    (h : scan w lim bs v shift = (.done, u, k)) :
    ∃ n, Encodes (bs.take k) n ∧ u = (v + 2 ^ shift * n) % 2 ^ w ∧ k ≤ bs.length ∧ 0 < k ∧
      shift + 7 * (k - 1) ≤ lim := by
  induction bs generalizing v shift k with
  | nil => simp [scan] at h
  | cons b bs ih =>
    have hle : shift ≤ w := hshift.trans hlim
    by_cases hb : b.toNat < 128
    · simp only [scan, hb, if_true, Prod.mk.injEq, true_and] at h
      obtain ⟨rfl, rfl⟩ := h
      have hread := scan_of_encodes hlim (.last b hb) [] hv (by simpa using hshift)
      simp only [List.append_nil, scan, hb, if_true, Prod.mk.injEq, true_and] at hread
      exact ⟨b.toNat, .last b hb, hread.1, by simp, by omega, by simpa using hshift⟩
    · by_cases hover : lim < shift + 7
      · simp [scan, hb, hover] at h
      · have hlt := or_digit_lt b hv hle
        simp only [scan, hb, hover, if_false, Prod.mk.injEq] at h
        generalize hr : scan w lim bs _ (shift + 7) = r at h
        obtain ⟨hdone, hu, rfl⟩ := h
        obtain ⟨n, hn, hval, hk, hpos, hbound⟩ :=
          ih hlt (by omega) (hr.trans (Prod.ext hdone (Prod.ext hu rfl)))
        refine ⟨_, .more b (by omega) hn, ?_, by simpa using hk, by omega, ?_⟩
        · rw [hval, or_digit_mod b n hv hle]
        · have hsub : shift + 7 + 7 * (r.2.2 - 1) ≤ lim := hbound
          have hpos' : 0 < r.2.2 := hpos
          omega

/-! ### Writing -/

def putLoop : ℕ → ℕ → List Byte
  | 0, _ => []
  | fuel + 1, v =>
    if v < 128 then [BitVec.ofNat 8 v] else BitVec.ofNat 8 (v % 128 + 128) :: putLoop fuel (v / 128)

/-- The encoding of a number below `2 ^ 70`. -/
def put (v : ℕ) : List Byte := putLoop 10 v

theorem encodes_putLoop {fuel : ℕ} (hv : v < 2 ^ (7 * fuel)) (hfuel : 0 < fuel) :
    Encodes (putLoop fuel v) v := by
  induction fuel generalizing v with
  | zero => omega
  | succ fuel ih =>
    rw [putLoop]
    split
    · next h =>
      have hb : (BitVec.ofNat 8 v).toNat = v := by
        rw [BitVec.toNat_ofNat]
        omega
      have hlast := Encodes.last (BitVec.ofNat 8 v) (by omega)
      rwa [hb] at hlast
    · next h =>
      have hb : (BitVec.ofNat 8 (v % 128 + 128)).toNat = v % 128 + 128 := by
        rw [BitVec.toNat_ofNat]
        omega
      have hdiv : v / 128 < 2 ^ (7 * fuel) := by
        rw [mul_succ, pow_add] at hv
        exact Nat.div_lt_of_lt_mul (by omega)
      have hfuel' : 0 < fuel := by
        by_contra h0
        simp [Nat.eq_zero_of_not_pos h0] at hdiv
        omega
      have hmore := Encodes.more (BitVec.ofNat 8 (v % 128 + 128)) (by omega) (ih hdiv hfuel')
      rw [hb] at hmore
      convert hmore using 1
      omega

theorem encodes_put (hv : v < 2 ^ 64) : Encodes (put v) v :=
  encodes_putLoop (hv.trans (by norm_num)) (by decide)

theorem length_putLoop_le (fuel v : ℕ) : (putLoop fuel v).length ≤ fuel := by
  induction fuel generalizing v with
  | zero => simp [putLoop]
  | succ fuel ih =>
    rw [putLoop]
    split
    · simp
    · simpa using ih (v / 128)

theorem length_putLoop_le_of_lt {fuel k : ℕ} (hk : 0 < k) (hv : v < 2 ^ (7 * k)) :
    (putLoop fuel v).length ≤ k := by
  induction fuel generalizing k v with
  | zero => simp [putLoop]
  | succ fuel ih =>
    rw [putLoop]
    split
    · exact hk
    · next h =>
      obtain ⟨k, rfl⟩ := exists_eq_succ_of_ne_zero hk.ne'
      have hdiv : v / 128 < 2 ^ (7 * k) := by
        rw [mul_succ, pow_add] at hv
        exact Nat.div_lt_of_lt_mul (by omega)
      have hk' : 0 < k := by
        by_contra h0
        simp [Nat.eq_zero_of_not_pos h0] at hdiv
        omega
      simpa using ih hk' hdiv

theorem length_put_le_of_lt {k : ℕ} (hk : 0 < k) (hv : v < 2 ^ (7 * k)) : (put v).length ≤ k :=
  length_putLoop_le_of_lt hk hv

theorem length_put_le (v : ℕ) : (put v).length ≤ 10 := length_putLoop_le 10 v

end Varint
