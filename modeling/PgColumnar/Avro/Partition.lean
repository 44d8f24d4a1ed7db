import Mathlib.Order.Lattice.Nat
import PgColumnar.Avro.Schema
import PgColumnar.Lib.Percent

/-!
# The partition display text

A data file's partition tuple is shown as text: fields joined by commas, a null as the bare name,
strings percent-encoded, binary values in hex and decimals as exact numbers.

## Main definitions

* `avDecodePartition` — the text and the cells of a partition tuple.
* `SameValue` — the tuples that one text may stand for.

## Main results

* `avAppendDecimal_prints` — a decimal is printed exactly.
* `partition_text_reversible` — the text tells the tuple.
-/

namespace PgColumnar.Avro

open Bytes Cursor Cursor.Parser Iceberg List Option Nat
open Percent (hexUpper)
open Varint (zigzag)

/-! ### Numbers -/

def digit (d : ℕ) : Byte := BitVec.ofNat 8 (48 + d)

/-- The decimal digits of a number, the high ones first. -/
def natText (n : ℕ) : List Byte :=
    if n = 0 then [digit 0] else ((Nat.digits 10 n).map digit).reverse

/-- `INT64_FORMAT` -/
def intText (z : ℤ) : List Byte := if z < 0 then 45 :: natText z.natAbs else natText z.natAbs

/-! ### Escaped and binary text -/

def hexLower (d : ℕ) : Byte := BitVec.ofNat 8 (if d < 10 then 48 + d else 87 + d)

def escapeByte (keepHigh : Bool) (b : Byte) : List Byte :=
  if b.toNat = 37 ∨ b.toNat = 44 ∨ b.toNat = 61 ∨ b.toNat < 32 ∨ b.toNat = 127 ∨
      (128 ≤ b.toNat ∧ keepHigh = false) then
    [37, hexUpper (b.toNat / 16), hexUpper (b.toNat % 16)]
  else [b]

/-- `av_append_hex` -/
def avAppendHex (p : List Byte) : List Byte :=
  ascii "\\x" ++ p.flatMap fun b => [hexLower (b.toNat / 16), hexLower (b.toNat % 16)]

/-! ### Decimals -/

/-- The two's complement negation, with the carry out of the first byte. -/
def negateBytes : List Byte → List Byte × ℕ
  | [] => ([], 1)
  | b :: bs =>
    let r := negateBytes bs
    let v := 255 - b.toNat + r.2
    (BitVec.ofNat 8 v :: r.1, v / 256)

/-- Long division by ten: the quotient and the remainder. -/
def divTen : ℕ → List Byte → List Byte × ℕ
  | rem, [] => ([], rem)
  | rem, b :: bs =>
    let cur := rem * 256 + b.toNat
    let r := divTen (cur % 10) bs
    (BitVec.ofNat 8 (cur / 10) :: r.1, r.2)

def skipZeros (mag : List Byte) : List Byte := mag.dropWhile (· == 0#8)

/-- The digits, least significant first, into a buffer with so much room. -/
def digitLoop : ℕ → List Byte → Option (List Byte)
  | _, [] => some []
  | 0, _ :: _ => none
  | room + 1, mag =>
    let r := divTen 0 mag
    (digitLoop room (skipZeros r.1)).map (digit r.2 :: ·)

/-- The digits from the `i`-th down, with the point behind the one at the scale. -/
def putDigits (digits : List Byte) (scale : ℕ) : ℕ → List Byte
  | 0 => []
  | i + 1 =>
    digits.getD i 0 :: if i = scale ∧ 0 < scale then 46 :: putDigits digits scale i
      else putDigits digits scale i

def avMaxDecimalBytes : ℕ := 64

/-- `av_append_decimal`; `none` is a write past the digit buffer. -/
def avAppendDecimal (p : List Byte) (scale : ℕ) : Option (List Byte) :=
  if avMaxDecimalBytes < p.length then some (avAppendHex p)
  else
    let neg := p.head?.any (128 ≤ ·.toNat)
    let mag := if neg then (negateBytes p).1 else p
    match digitLoop (avMaxDecimalBytes * 3 + 1) (skipZeros mag) with
    | none => none
    | some found =>
      let digits := if found = [] then [digit 0] else found
      let nd := digits.length
      some ((if neg then [45] else []) ++
        if nd ≤ scale then ascii "0." ++ List.replicate (scale - nd) (digit 0) ++ digits.reverse
        else putDigits digits scale nd)

/-! ### Tuples -/

section Partition

variable (encoding : Bool) (verifyUtf8 : List Byte → Bool)
  (floatText doubleText : List Byte → List Byte)

/-- `av_append_escaped`; `encoding` tells whether the database's is UTF8 or SQL_ASCII. -/
def avAppendEscaped (p : List Byte) : List Byte :=
  p.flatMap (escapeByte (encoding && decide (p.length ≤ 2147483647) && verifyUtf8 p))

def avDecimalField (p : List Byte) (scale : ℕ) : AvReader (List Byte) :=
  match avAppendDecimal p scale with
  | none => fail .fault
  | some text => pure text

/-- A field that is not null: its cell, and its text. -/
def avPartitionValue (depth : ℕ) (t : AvSchema) : AvReader (PartCell × List Byte) :=
  match t with
  | .int | .long => do
    let ival ← avLong
    pure (⟨true, false, false, ival, []⟩, intText ival)
  | .bool => do
    let p ← avTake 1
    let ival := if p = [0] then 0 else 1
    pure (⟨true, false, false, ival, []⟩, if ival = 1 then ascii "true" else ascii "false")
  | .string => do
    let p ← avBytes
    pure (⟨true, false, true, 0, p⟩, avAppendEscaped encoding verifyUtf8 p)
  | .bytes none => do
    let p ← avBytes
    pure (⟨true, false, true, 0, p⟩, avAppendHex p)
  | .bytes (some scale) => do
    let p ← avBytes
    let text ← avDecimalField p scale
    pure (⟨true, false, true, 0, p⟩, text)
  | .fixed size none => do
    let p ← avTake size
    pure (⟨false, false, false, 0, []⟩, avAppendHex p)
  | .fixed size (some scale) => do
    let p ← avTake size
    let text ← avDecimalField p scale
    pure (⟨false, false, false, 0, []⟩, text)
  | .float => do
    let p ← avTake 4
    pure (⟨false, false, false, 0, []⟩, floatText p)
  | .double => do
    let p ← avTake 8
    pure (⟨false, false, false, 0, []⟩, doubleText p)
  | _ => do
    avSkip depth t
    pure (⟨false, false, false, 0, []⟩, ascii "?")

def avPartitionField (depth : ℕ) (f : CString × AvSchema) : AvReader (PartCell × List Byte) := do
  let (t, isnull) ← avUnwrapUnion f.2
  let name := avAppendEscaped encoding verifyUtf8 f.1
  if isnull then pure (⟨true, true, false, 0, []⟩, name)
  else
    let (cell, text) ← avPartitionValue encoding verifyUtf8 floatText doubleText depth t
    pure (cell, name ++ 61 :: text)

/-- The loop over the fields; a comma stands before all but the first. -/
def avPartitionFields (depth : ℕ) :
    List (CString × AvSchema) → Bool → AvReader (List PartCell × List Byte)
  | [], _ => pure ([], [])
  | f :: fs, first => do
    let (cell, text) ← avPartitionField encoding verifyUtf8 floatText doubleText depth f
    let (cells, rest) ← avPartitionFields depth fs false
    pure (cell :: cells, (if first then [] else [44]) ++ text ++ rest)

/-- `av_decode_partition`: the text, and the cells. -/
def avDecodePartition (depth : ℕ) (s : AvSchema) : AvReader (Option (List PartCell × List Byte)) :=
  match s with
  | .record fields => do
    let r ← avPartitionFields encoding verifyUtf8 floatText doubleText depth fields true
    pure (some r)
  | _ => do
    avSkip depth s
    pure none

end Partition

/-! ### What the decimal prints -/

/-- A big-endian number. -/
def beNat (bs : List Byte) : ℕ := leNat bs.reverse

/-- The integer of a big-endian two's complement byte string. -/
def twosComplement (p : List Byte) : ℤ :=
  if p.head?.any (128 ≤ ·.toNat) then beNat p - 256 ^ p.length else beNat p

@[simp] theorem beNat_nil : beNat [] = 0 := rfl

theorem beNat_cons (b : Byte) (bs : List Byte) :
    beNat (b :: bs) = b.toNat * 256 ^ bs.length + beNat bs := by
  rw [beNat, beNat, reverse_cons, leNat_append, leNat_cons, length_reverse, leNat_nil]
  ring

theorem beNat_lt (bs : List Byte) : beNat bs < 256 ^ bs.length := by
  have h := leNat_lt bs.reverse
  rwa [length_reverse] at h

theorem toNat_ofNat_byte {v : ℕ} (h : v < 256) : (BitVec.ofNat 8 v).toNat = v := by
  rw [BitVec.toNat_ofNat]
  exact mod_eq_of_lt h

theorem length_negateBytes (bs : List Byte) : (negateBytes bs).1.length = bs.length := by
  induction bs with
  | nil => rfl
  | cons b bs ih => simp [negateBytes, ih]

theorem negateBytes_carry (bs : List Byte) : (negateBytes bs).2 ≤ 1 := by
  induction bs with
  | nil => exact le_rfl
  | cons b bs ih =>
    have hb : b.toNat < 256 := b.isLt
    simp only [negateBytes]
    omega

/-- The negation and the number add up to the next power of 256. -/
theorem beNat_negateBytes (bs : List Byte) :
    beNat (negateBytes bs).1 + (negateBytes bs).2 * 256 ^ bs.length + beNat bs =
      256 ^ bs.length := by
  induction bs with
  | nil => rfl
  | cons b bs ih =>
    have hb : b.toNat < 256 := b.isLt
    simp only [negateBytes, beNat_cons, length_negateBytes, length_cons, pow_succ]
    generalize negateBytes bs = r at *
    generalize 256 ^ bs.length = m at *
    rw [BitVec.toNat_ofNat, show 2 ^ 8 = 256 by norm_num]
    -- the byte and its carry are all ones plus the carry that came in
    have hv : (255 - b.toNat + r.2) % 256 + 256 * ((255 - b.toNat + r.2) / 256) + b.toNat =
      255 + r.2 := by
      omega
    calc (255 - b.toNat + r.2) % 256 * m + beNat r.1 + (255 - b.toNat + r.2) / 256 * (m * 256) +
          (b.toNat * m + beNat bs)
        = ((255 - b.toNat + r.2) % 256 + 256 * ((255 - b.toNat + r.2) / 256) + b.toNat) * m +
            (beNat r.1 + beNat bs) := by ring
      _ = m * 256 := by
        rw [hv]
        linarith

theorem length_divTen (rem : ℕ) (bs : List Byte) : (divTen rem bs).1.length = bs.length := by
  induction bs generalizing rem with
  | nil => rfl
  | cons b bs ih => simp [divTen, ih]

/-- The quotient and the remainder of the long division. -/
theorem divTen_spec {rem : ℕ} (hrem : rem < 10) (bs : List Byte) :
    rem * 256 ^ bs.length + beNat bs = 10 * beNat (divTen rem bs).1 + (divTen rem bs).2 ∧
      (divTen rem bs).2 < 10 := by
  induction bs generalizing rem with
  | nil => simpa [divTen] using hrem
  | cons b bs ih =>
    have hb : b.toNat < 256 := b.isLt
    obtain ⟨hsum, hlt⟩ := ih (mod_lt (rem * 256 + b.toNat) (by decide))
    refine ⟨?_, by simpa [divTen] using hlt⟩
    have hquot : (BitVec.ofNat 8 ((rem * 256 + b.toNat) / 10)).toNat = (rem * 256 + b.toNat) / 10 :=
      toNat_ofNat_byte (by omega)
    simp only [divTen, beNat_cons, length_divTen, length_cons, pow_succ, hquot]
    generalize divTen ((rem * 256 + b.toNat) % 10) bs = r at *
    generalize 256 ^ bs.length = m at *
    have hcur := div_add_mod (rem * 256 + b.toNat) 10
    calc rem * (m * 256) + (b.toNat * m + beNat bs)
        = (rem * 256 + b.toNat) * m + beNat bs := by ring
      _ = (10 * ((rem * 256 + b.toNat) / 10) + (rem * 256 + b.toNat) % 10) * m + beNat bs := by
        rw [hcur]
      _ = 10 * ((rem * 256 + b.toNat) / 10 * m) +
        ((rem * 256 + b.toNat) % 10 * m + beNat bs) := by ring
      _ = 10 * ((rem * 256 + b.toNat) / 10 * m + beNat r.1) + r.2 := by
        rw [hsum]
        ring

theorem beNat_skipZeros (bs : List Byte) : beNat (skipZeros bs) = beNat bs := by
  induction bs with
  | nil => rfl
  | cons b bs ih =>
    by_cases hb : b = 0#8
    · subst hb
      have hdrop : skipZeros (0#8 :: bs) = skipZeros bs := by simp [skipZeros]
      rw [hdrop, ih, beNat_cons]
      simp
    · have hdrop : skipZeros (b :: bs) = b :: bs := by simp [skipZeros, hb]
      rw [hdrop]

theorem skipZeros_eq_nil_iff {bs : List Byte} : skipZeros bs = [] ↔ beNat bs = 0 := by
  constructor
  · intro h
    rw [← beNat_skipZeros, h, beNat_nil]
  · intro h
    rw [← beNat_skipZeros] at h
    by_contra hne
    obtain ⟨b, bs', hcons⟩ := exists_cons_of_ne_nil hne
    have hb : (b == 0#8) = false := by
      have hhead := head?_dropWhile_not (· == 0#8) bs
      rw [skipZeros] at hcons
      rw [hcons] at hhead
      simpa using hhead
    rw [hcons, beNat_cons] at h
    have hzero : b.toNat = 0 := by
      have hpow : 0 < 256 ^ bs'.length := by positivity
      by_contra hb0
      have hge : 256 ^ bs'.length ≤ b.toNat * 256 ^ bs'.length :=
        Nat.le_mul_of_pos_left _ (by omega)
      omega
    have hb' : b = 0#8 := BitVec.eq_of_toNat_eq (by simpa using hzero)
    simp [hb'] at hb

/-- The digits fit the buffer and are those of the number. -/
theorem digitLoop_eq {room : ℕ} {mag : List Byte} (hroom : beNat mag < 10 ^ room) :
    digitLoop room (skipZeros mag) = some ((Nat.digits 10 (beNat mag)).map digit) := by
  induction room generalizing mag with
  | zero =>
    have h0 : beNat mag = 0 := by omega
    rw [skipZeros_eq_nil_iff.mpr h0, h0]
    simp [digitLoop]
  | succ room ih =>
    by_cases h0 : beNat mag = 0
    · rw [skipZeros_eq_nil_iff.mpr h0, h0]
      simp [digitLoop]
    · have hne : skipZeros mag ≠ [] := fun hnil => h0 (skipZeros_eq_nil_iff.mp hnil)
      obtain ⟨hdiv, hlt⟩ := divTen_spec (by decide : 0 < 10) (skipZeros mag)
      rw [zero_mul, zero_add, beNat_skipZeros] at hdiv
      have hquot : beNat (divTen 0 (skipZeros mag)).1 = beNat mag / 10 := by omega
      have hrem : (divTen 0 (skipZeros mag)).2 = beNat mag % 10 := by omega
      have hbound : beNat (divTen 0 (skipZeros mag)).1 < 10 ^ room := by
        rw [pow_succ] at hroom
        omega
      have hnext := ih hbound
      have hstep : digitLoop (room + 1) (skipZeros mag) =
          (digitLoop room (skipZeros (divTen 0 (skipZeros mag)).1)).map
            (digit (divTen 0 (skipZeros mag)).2 :: ·) := by
        cases hmag : skipZeros mag with
        | nil => exact absurd hmag hne
        | cons b bs => rfl
      rw [hstep, hnext, hquot, hrem, digits_def' (by decide) (pos_of_ne_zero h0)]
      rfl

/-! ### Decimal text -/

def IsDigit (b : Byte) : Prop := 48 ≤ b.toNat ∧ b.toNat ≤ 57

/-- The number that a string of digits denotes. -/
def decVal (ds : List Byte) : ℕ := ds.foldl (fun v b => 10 * v + (b.toNat - 48)) 0

/-- The text is the integer divided by a power of ten: a sign, an integer part without leading
zeros, and as many fraction digits as the scale. -/
def PrintsDecimal (z : ℤ) (scale : ℕ) (text : List Byte) : Prop :=
  ∃ ip fp, text = (if z < 0 then [45] else []) ++ (ip ++ if scale = 0 then [] else 46 :: fp) ∧
    ip ≠ [] ∧ (∀ b ∈ ip ++ fp, IsDigit b) ∧ fp.length = scale ∧ (ip = [48] ∨ ip.head? ≠ some 48) ∧
      (decVal ip : ℚ) + decVal fp / 10 ^ scale = z.natAbs / 10 ^ scale

theorem foldl_decVal (ds : List Byte) (v : ℕ) :
    ds.foldl (fun v b => 10 * v + (b.toNat - 48)) v = v * 10 ^ ds.length + decVal ds := by
  unfold decVal
  induction ds generalizing v with
  | nil => simp
  | cons b ds ih =>
    rw [foldl_cons, foldl_cons, ih, ih (10 * 0 + (b.toNat - 48)), length_cons, pow_succ]
    ring

theorem decVal_append (as bs : List Byte) :
    decVal (as ++ bs) = decVal as * 10 ^ bs.length + decVal bs := by
  rw [decVal, foldl_append, foldl_decVal]
  rfl

theorem toNat_digit {d : ℕ} (h : d < 10) : (digit d).toNat = 48 + d := toNat_ofNat_byte (by omega)

theorem isDigit_digit {d : ℕ} (h : d < 10) : IsDigit (digit d) := by
  rw [IsDigit, toNat_digit h]
  omega

theorem decVal_singleton {d : ℕ} (h : d < 10) : decVal [digit d] = d := by
  rw [decVal, foldl_cons, foldl_nil, toNat_digit h]
  omega

theorem decVal_replicate_zero (k : ℕ) : decVal (List.replicate k (digit 0)) = 0 := by
  induction k with
  | zero => rfl
  | succ k ih => rw [replicate_succ', decVal_append, ih, decVal_singleton (by decide), zero_mul]

theorem decVal_digits (n : ℕ) : decVal ((Nat.digits 10 n).map digit).reverse = n := by
  induction n using Nat.strong_induction_on with
  | _ n ih =>
    obtain rfl | hpos := Nat.eq_zero_or_pos n
    · rfl
    · rw [digits_def' (by decide) hpos, map_cons, reverse_cons, decVal_append,
        ih (n / 10) (div_lt_self hpos (by decide)), decVal_singleton (mod_lt n (by decide))]
      simp only [length_singleton, pow_one]
      omega

variable {b : Byte}

theorem mem_natText {n : ℕ} (h : b ∈ natText n) : IsDigit b := by
  unfold natText at h
  split at h
  · rw [mem_singleton] at h
    exact h ▸ isDigit_digit (by decide)
  · obtain ⟨d, hd, rfl⟩ := mem_map.mp (mem_reverse.mp h)
    exact isDigit_digit (digits_lt_base (by decide) hd)

theorem decVal_natText (n : ℕ) : decVal (natText n) = n := by
  unfold natText
  split
  · next h => rw [decVal_singleton (by decide), h]
  · exact decVal_digits n

/-- No leading zeros but in the number zero. -/
theorem natText_head (n : ℕ) : natText n = [48] ∨ (natText n).head? ≠ some 48 := by
  unfold natText
  split
  · exact .inl rfl
  · next h =>
    right
    have hne : Nat.digits 10 n ≠ [] := digits_ne_nil_iff_ne_zero.mpr h
    have hlast := getLast_digit_ne_zero 10 h
    have hlt := digits_lt_base (by decide : 1 < 10) (getLast_mem hne)
    rw [head?_reverse, getLast?_map, getLast?_eq_getLast_of_ne_nil hne]
    simp only [map_some, ne_eq, Option.some.injEq]
    intro heq
    have hnat := congrArg BitVec.toNat heq
    rw [toNat_digit hlt] at hnat
    simp at hnat
    omega

theorem natText_ne_nil (n : ℕ) : natText n ≠ [] := by
  unfold natText
  split
  · simp
  · next h => simpa [digits_ne_nil_iff_ne_zero] using h

variable {scale : ℕ} {digits : List Byte}

/-- The loop puts the digits above the scale, the point, and the others. -/
theorem putDigits_eq {i : ℕ} (hi : i ≤ digits.length) : putDigits digits scale i =
      if i ≤ scale then (digits.take i).reverse
      else ((digits.take i).drop scale).reverse ++
        if scale = 0 then [] else 46 :: (digits.take scale).reverse := by
  induction i with
  | zero => simp [putDigits]
  | succ i ih =>
    have hlt : i < digits.length := by omega
    have htake : (digits.take (i + 1)).reverse = digits[i] :: (digits.take i).reverse := by
      rw [take_succ_eq_append_getElem hlt, reverse_append]
      rfl
    rw [putDigits, ih (by omega), getD_eq_getElem _ _ hlt]
    obtain hlow | rfl | hhigh := lt_trichotomy i scale
    · have h1 : ¬ (i = scale ∧ 0 < scale) := by omega
      have h2 : i ≤ scale := by omega
      have h3 : i + 1 ≤ scale := by omega
      rw [if_neg h1, if_pos h2, if_pos h3, htake]
    · have hdrop : ((digits.take (i + 1)).drop i).reverse = [digits[i]] := by
        rw [take_succ_eq_append_getElem hlt, drop_append_of_le_length (by simp; omega)]
        simp
      have h3 : ¬ i + 1 ≤ i := by omega
      rw [if_pos le_rfl, if_neg h3, hdrop]
      obtain rfl | hpos := Nat.eq_zero_or_pos i
      · rfl
      · rw [if_pos ⟨rfl, hpos⟩, if_neg (ne_of_gt hpos)]
        rfl
    · have hdrop : ((digits.take (i + 1)).drop scale).reverse =
          digits[i] :: ((digits.take i).drop scale).reverse := by
        rw [take_succ_eq_append_getElem hlt,
          drop_append_of_le_length (by rw [length_take]; omega), reverse_append]
        rfl
      have h1 : ¬ (i = scale ∧ 0 < scale) := by omega
      have h2 : ¬ i ≤ scale := by omega
      have h3 : ¬ i + 1 ≤ scale := by omega
      rw [if_neg h1, if_neg h2, if_neg h3, hdrop]
      rfl

theorem prints_natText {n : ℕ} (scale : ℕ) (hrev : digits.reverse = natText n) :
    ∃ ip fp, (if digits.length ≤ scale then
        ascii "0." ++ List.replicate (scale - digits.length) (digit 0) ++ digits.reverse
      else putDigits digits scale digits.length) = ip ++ (if scale = 0 then [] else 46 :: fp) ∧
      ip ≠ [] ∧ (∀ b ∈ ip ++ fp, IsDigit b) ∧ fp.length = scale ∧ (ip = [48] ∨ ip.head? ≠ some 48) ∧
        decVal (ip ++ fp) = n := by
  have hpos : 0 < digits.length := by
    rw [← length_reverse, hrev]
    exact length_pos_iff.mpr (natText_ne_nil n)
  by_cases hle : digits.length ≤ scale
  · rw [if_pos hle]
    refine ⟨[48], List.replicate (scale - digits.length) (digit 0) ++ digits.reverse, ?_, by
      simp, ?_, ?_,
      .inl rfl, ?_⟩
    · rw [if_neg (by omega)]
      rfl
    · intro b hb
      simp only [mem_append, mem_singleton, mem_replicate] at hb
      obtain rfl | ⟨-, rfl⟩ | hb := hb
      · exact ⟨by decide, by decide⟩
      · exact isDigit_digit (by decide)
      · rw [hrev] at hb
        exact mem_natText hb
    · simp only [length_append, length_replicate, length_reverse]
      omega
    · have h48 : decVal [48] = 0 := by decide
      rw [decVal_append, decVal_append, h48, decVal_replicate_zero, hrev, decVal_natText]
      omega
  · rw [if_neg hle, putDigits_eq le_rfl, if_neg hle, take_length]
    have hjoin : (digits.drop scale).reverse ++ (digits.take scale).reverse = natText n := by
      rw [← reverse_append, take_append_drop, hrev]
    have hne : (digits.drop scale).reverse ≠ [] := by
      simp only [ne_eq, reverse_eq_nil_iff, drop_eq_nil_iff]
      omega
    refine ⟨(digits.drop scale).reverse, (digits.take scale).reverse, rfl, hne, ?_, ?_, ?_, ?_⟩
    · intro b hb
      rw [hjoin] at hb
      exact mem_natText hb
    · simp only [length_reverse, length_take]
      omega
    · obtain h | h := natText_head n
      · rw [h] at hjoin
        obtain ⟨hip, -⟩ | ⟨hip, -⟩ := append_eq_singleton_iff.mp hjoin
        · exact absurd hip hne
        · exact .inl hip
      · right
        rw [← hjoin, head?_append_of_ne_nil _ hne] at h
        exact h
    · rw [hjoin, decVal_natText]

variable {p : List Byte}

/-- The magnitude of a negative number does not overflow its bytes, at the least one either. -/
theorem beNat_negateBytes_of_neg (h : p.head?.any (128 ≤ ·.toNat) = true) :
    beNat (negateBytes p).1 = 256 ^ p.length - beNat p ∧ 0 < beNat p ∧
      beNat p < 256 ^ p.length := by
  have hsum := beNat_negateBytes p
  have hcarry := negateBytes_carry p
  have hlt := beNat_lt p
  have hpos : 0 < beNat p := by
    cases p with
    | nil => simp at h
    | cons b bs =>
      have hb : 128 ≤ b.toNat := by simpa using h
      have hpow : 0 < 256 ^ bs.length := by positivity
      have hmul : 0 < b.toNat * 256 ^ bs.length := mul_pos (by omega) hpow
      rw [beNat_cons]
      omega
  refine ⟨?_, hpos, hlt⟩
  obtain hzero | hone : (negateBytes p).2 = 0 ∨ (negateBytes p).2 = 1 := by omega
  · rw [hzero, zero_mul] at hsum
    omega
  · rw [hone, one_mul] at hsum
    omega

theorem pow_le_room {n : ℕ} (h : n ≤ avMaxDecimalBytes) :
    256 ^ n < 10 ^ (avMaxDecimalBytes * 3 + 1) := by
  calc 256 ^ n ≤ 256 ^ avMaxDecimalBytes := Nat.pow_le_pow_right (by decide) h
    _ < 10 ^ (avMaxDecimalBytes * 3 + 1) := by norm_num [avMaxDecimalBytes]

/-- **A decimal of up to 64 bytes is printed exactly**, within the digit buffer. -/
theorem avAppendDecimal_prints (hlen : p.length ≤ avMaxDecimalBytes) (scale : ℕ) :
    ∃ text, avAppendDecimal p scale = some text ∧ PrintsDecimal (twosComplement p) scale text := by
  have hroom := pow_le_room hlen
  have hlt := beNat_lt p
  -- the magnitude, and the sign
  obtain ⟨mag, hmag, hval, hsign⟩ : ∃ mag,
    (if p.head?.any (128 ≤ ·.toNat) then (negateBytes p).1 else p) = mag ∧
      beNat mag = (twosComplement p).natAbs ∧
        (p.head?.any (128 ≤ ·.toNat) = true ↔ twosComplement p < 0) := by
    refine ⟨_, rfl, ?_⟩
    unfold twosComplement
    by_cases hneg : p.head?.any (128 ≤ ·.toNat) = true
    · obtain ⟨hneg', hpos, -⟩ := beNat_negateBytes_of_neg hneg
      have hcast : ((256 ^ p.length : ℕ) : ℤ) = 256 ^ p.length := by push_cast; rfl
      simp only [hneg, if_true, hneg', true_iff]
      omega
    · simp only [hneg, Bool.false_eq_true, if_false, Int.natAbs_natCast, false_iff, true_and]
      omega
  have habs : (twosComplement p).natAbs ≤ 256 ^ p.length := by
    have hcast : ((256 ^ p.length : ℕ) : ℤ) = 256 ^ p.length := by push_cast; rfl
    unfold twosComplement
    split <;> omega
  have hdigits := digitLoop_eq (lt_of_le_of_lt (hval.trans_le habs) hroom)
  have hrev : (if (Nat.digits 10 (beNat mag)).map digit = [] then [digit 0]
      else (Nat.digits 10 (beNat mag)).map digit).reverse = natText (beNat mag) := by
    unfold natText
    by_cases h0 : beNat mag = 0
    · simp [h0]
    · have hne : (Nat.digits 10 (beNat mag)).map digit ≠ [] := by
        simpa [digits_ne_nil_iff_ne_zero] using h0
      rw [if_neg hne, if_neg h0]
  obtain ⟨ip, fp, htext, hip, hall, hfp, hhead, hdec⟩ := prints_natText scale hrev
  unfold avAppendDecimal
  rw [if_neg (by omega)]
  dsimp only
  rw [hmag, hdigits]
  dsimp only
  rw [htext]
  refine ⟨_, rfl, ip, fp, ?_, hip, hall, hfp, hhead, ?_⟩
  · by_cases hneg : p.head?.any (128 ≤ ·.toNat) = true
    · rw [if_pos hneg, if_pos (hsign.mp hneg)]
    · rw [if_neg hneg, if_neg fun hlt => hneg (hsign.mpr hlt)]
  · rw [← hval, ← hdec, decVal_append, hfp]
    push_cast
    rw [add_div, mul_div_cancel_right₀ _ (by positivity)]

/-! ### The text of a tuple -/

/-- The text of a decimal, or of bytes too long for one. -/
def decimalText (p : List Byte) (scale : ℕ) : List Byte := (avAppendDecimal p scale).getD []

theorem avAppendDecimal_eq (p : List Byte) (scale : ℕ) :
    avAppendDecimal p scale = some (decimalText p scale) := by
  unfold decimalText
  by_cases hlen : p.length ≤ avMaxDecimalBytes
  · obtain ⟨text, htext, -⟩ := avAppendDecimal_prints hlen scale
    rw [htext, getD_some]
  · rw [avAppendDecimal, if_pos (by omega), getD_some]

theorem avDecimalField_eq (p : List Byte) (scale : ℕ) :
    avDecimalField p scale = pure (decimalText p scale) := by
  rw [avDecimalField, avAppendDecimal_eq]

section Text

variable (encoding : Bool) (verifyUtf8 : List Byte → Bool)
  (floatText doubleText : List Byte → List Byte)

/-- The cell and the text of a value that is not a union's null. -/
def valueText (t : AvSchema) (w : AvValue) : PartCell × List Byte :=
  match t, w with
  | .int, .int z | .long, .int z => (⟨true, false, false, z, []⟩, intText z)
  | .bool, .bool b =>
    (⟨true, false, false, if b then 1 else 0, []⟩, if b then ascii "true" else ascii "false")
  | .string, .raw p => (⟨true, false, true, 0, p⟩, avAppendEscaped encoding verifyUtf8 p)
  | .bytes none, .raw p => (⟨true, false, true, 0, p⟩, avAppendHex p)
  | .bytes (some scale), .raw p => (⟨true, false, true, 0, p⟩, decimalText p scale)
  | .fixed _ none, .raw p => (⟨false, false, false, 0, []⟩, avAppendHex p)
  | .fixed _ (some scale), .raw p => (⟨false, false, false, 0, []⟩, decimalText p scale)
  | .float, .raw p => (⟨false, false, false, 0, []⟩, floatText p)
  | .double, .raw p => (⟨false, false, false, 0, []⟩, doubleText p)
  | _, _ => (⟨false, false, false, 0, []⟩, ascii "?")

def fieldText (f : CString × AvSchema) (v : AvValue) : PartCell × List Byte :=
  let u := unwrap f.2 v
  let name := avAppendEscaped encoding verifyUtf8 f.1
  if u.2.2 then (⟨true, true, false, 0, []⟩, name)
  else
    let r := valueText encoding verifyUtf8 floatText doubleText u.1 u.2.1
    (r.1, name ++ 61 :: r.2)

def fieldsText : List ((CString × AvSchema) × AvValue) → Bool → List PartCell × List Byte
  | [], _ => ([], [])
  | fv :: fvs, first =>
    let r := fieldText encoding verifyUtf8 floatText doubleText fv.1 fv.2
    let rest := fieldsText fvs false
    (r.1 :: rest.1, (if first then [] else [44]) ++ r.2 ++ rest.2)

variable {encoding verifyUtf8 floatText doubleText} {depth : ℕ}

theorem parses_avPartitionValue {t : AvSchema} {w : AvValue} {bs : List Byte}
    (h : Encodes depth t w bs) :
    Parses (avPartitionValue encoding verifyUtf8 floatText doubleText depth t) bs
      (valueText encoding verifyUtf8 floatText doubleText t w) := by
  have hskip := parses_avSkip h
  unfold avPartitionValue
  cases depth with
  | zero => exact h.elim
  | succ depth =>
    cases t with
    | int =>
      obtain ⟨z, rfl, -, -, hz⟩ := h
      exact (parses_avLong hz).last (parses_pure _)
    | long =>
      obtain ⟨z, rfl, hz⟩ := h
      exact (parses_avLong hz).last (parses_pure _)
    | bool =>
      obtain ⟨b, rfl, rfl⟩ := h
      cases b <;> exact (parses_avTake_of_length rfl).last (parses_pure _)
    | string =>
      obtain ⟨w, rfl, hw⟩ := h
      exact (parses_avBytes hw).last (parses_pure _)
    | bytes decimal =>
      obtain ⟨w, rfl, hw⟩ := h
      cases decimal with
      | none => exact (parses_avBytes hw).last (parses_pure _)
      | some scale =>
        refine (parses_avBytes hw).last ?_
        rw [avDecimalField_eq]
        exact parses_pure _
    | fixed size decimal =>
      obtain ⟨rfl, hlen⟩ := h
      cases decimal with
      | none => exact (parses_avTake_of_length hlen).last (parses_pure _)
      | some scale =>
        refine (parses_avTake_of_length hlen).last ?_
        rw [avDecimalField_eq]
        exact parses_pure _
    | float | double =>
      obtain ⟨rfl, hlen⟩ := h
      exact (parses_avTake_of_length hlen).last (parses_pure _)
    | null | enum | record | array | map | union => exact hskip.last (parses_pure _)

theorem parses_avPartitionField {f : CString × AvSchema} {v : AvValue} {bs : List Byte}
    (h : Encodes depth f.2 v bs) :
    Parses (avPartitionField encoding verifyUtf8 floatText doubleText depth f) bs
      (fieldText encoding verifyUtf8 floatText doubleText f v) := by
  obtain ⟨ib, wb, rfl, hunwrap, hw⟩ := parses_avUnwrapUnion h
  refine hunwrap.bind ?_
  unfold fieldText
  dsimp only
  by_cases hnull : (unwrap f.2 v).2.2 = true
  · -- a union's null takes no bytes
    obtain rfl := Encodes.null_eq_nil hnull hw
    rw [if_pos hnull, if_pos hnull]
    exact parses_pure _
  · rw [if_neg hnull, if_neg hnull]
    exact (parses_avPartitionValue hw).last (parses_pure _)

theorem parses_avPartitionFields {fvs : List ((CString × AvSchema) × AvValue)} {bs : List Byte}
    (h : Sequence (fun fv bs => Encodes depth fv.1.2 fv.2 bs) fvs bs) (first : Bool) :
    Parses (avPartitionFields encoding verifyUtf8 floatText doubleText depth
      (fvs.map Prod.fst) first) bs
      (fieldsText encoding verifyUtf8 floatText doubleText fvs first) := by
  induction h generalizing first with
  | nil => exact parses_pure _
  | cons hfv _ ih =>
    refine (parses_avPartitionField hfv).bind ?_
    exact (ih false).last (parses_pure _)

theorem parses_avDecodePartition {fields : List (CString × AvSchema)} {vs : List AvValue}
    {bs : List Byte}
    (h : Encodes depth (.record fields) (.record vs) bs) :
    Parses (avDecodePartition encoding verifyUtf8 floatText doubleText depth (.record fields)) bs
      (some (fieldsText encoding verifyUtf8 floatText doubleText (fields.zip vs) true)) := by
  cases depth with
  | zero => exact h.elim
  | succ depth =>
    obtain ⟨ws, heq, hlen, hseq⟩ := h
    cases heq
    have hfields : Parses (avPartitionFields encoding verifyUtf8 floatText doubleText (depth + 1)
        ((fields.zip vs).map Prod.fst) true) bs _ :=
      parses_avPartitionFields (hseq.imp fun _ _ hf => hf.succ) true
    rw [map_fst_zip (le_of_eq hlen)] at hfields
    exact hfields.last (parses_pure _)

end Text

/-! ### Reading the text back -/

theorem hexLower_inj : ∀ d < 16, ∀ e < 16, hexLower d = hexLower e → d = e := by decide

theorem hexLower_ne_comma : ∀ d < 16, hexLower d ≠ 44 := by decide

/-- The bytes that stay as they are, as a percent-encoding. -/
def plainByte (keepHigh : Bool) (b : Byte) : Bool :=
  !decide (b.toNat = 37 ∨ b.toNat = 44 ∨ b.toNat = 61 ∨ b.toNat < 32 ∨ b.toNat = 127 ∨
    (128 ≤ b.toNat ∧ keepHigh = false))

theorem escapeByte_eq (keepHigh : Bool) :
    escapeByte keepHigh = Percent.encodeByte (plainByte keepHigh) := by
  funext b
  unfold escapeByte Percent.encodeByte plainByte
  split <;> simp_all

/-- Percent-decoding finds the bytes again, whatever is kept of the high ones. -/
theorem decode_escapeByte (keepHigh : Bool) (p : List Byte) :
    Percent.decode (p.flatMap (escapeByte keepHigh)) = p := by
  rw [escapeByte_eq]
  exact Percent.decode_encode rfl p

theorem avAppendHex_inj {q : List Byte} (h : avAppendHex p = avAppendHex q) : p = q := by
  replace h := append_cancel_left h
  induction p generalizing q with
  | nil =>
    cases q with
    | nil => rfl
    | cons c q => simp at h
  | cons b p ih =>
    cases q with
    | nil => simp at h
    | cons c q =>
      have hb : b.toNat < 256 := b.isLt
      have hc : c.toNat < 256 := c.isLt
      simp only [flatMap_cons, cons_append, nil_append, List.cons.injEq] at h
      obtain ⟨hhi, hlo, hrest⟩ := h
      have hhi' := hexLower_inj _ (by omega) _ (by omega) hhi
      have hlo' := hexLower_inj _ (by omega) _ (by omega) hlo
      have heq : b = c := BitVec.eq_of_toNat_eq (by omega)
      rw [heq, ih hrest]

theorem comma_notMem_avAppendHex (p : List Byte) : 44 ∉ avAppendHex p := by
  unfold avAppendHex
  rw [mem_append, mem_flatMap]
  intro h
  obtain h | ⟨b, -, h⟩ := h
  · exact absurd h (by decide)
  · have hb : b.toNat < 256 := b.isLt
    have hhi := hexLower_ne_comma (b.toNat / 16) (by omega)
    have hlo := hexLower_ne_comma (b.toNat % 16) (by omega)
    simp only [mem_cons, not_mem_nil, or_false] at h
    obtain h | h := h
    · exact hhi h.symm
    · exact hlo h.symm

theorem IsDigit.ne {c : Byte} (h : IsDigit b) (hc : c.toNat < 48) : b ≠ c := by
  intro heq
  rw [heq] at h
  have hge := h.1
  omega

theorem intText_inj {z y : ℤ} (h : intText z = intText y) : z = y := by
  have hhead : ∀ n : ℕ, ∀ tail : List Byte, natText n ≠ 45 :: tail := by
    intro n tail heq
    have hdigit : IsDigit 45 := mem_natText (heq ▸ mem_cons_self)
    exact hdigit.ne (by decide) rfl
  have hnat : ∀ {m n : ℕ}, natText m = natText n → m = n := by
    intro m n heq
    rw [← decVal_natText m, heq, decVal_natText]
  unfold intText at h
  split at h <;> split at h
  · have habs := hnat (cons_injective h)
    omega
  · exact absurd h.symm (hhead _ _)
  · exact absurd h (hhead _ _)
  · have habs := hnat h
    omega

theorem comma_notMem_intText (z : ℤ) : 44 ∉ intText z := by
  have hnat : ∀ n : ℕ, 44 ∉ natText n := fun n hmem => (mem_natText hmem).ne (by decide) rfl
  unfold intText
  split
  · rw [mem_cons, not_or]
    exact ⟨by decide, hnat _⟩
  · exact hnat _

variable {text : List Byte}

/-- At one scale the text tells the integer. -/
theorem PrintsDecimal.unique {z y : ℤ} (hz : PrintsDecimal z scale text)
    (hy : PrintsDecimal y scale text) : z = y := by
  obtain ⟨ip, fp, hzt, hip, hzall, hfp, -, hzval⟩ := hz
  obtain ⟨ip', fp', hyt, hip', hyall, hfp', -, hyval⟩ := hy
  have hcore : ∀ {ip fp : List Byte}, ip ≠ [] → (∀ b ∈ ip ++ fp, IsDigit b) →
      ∀ tail, ip ++ (if scale = 0 then [] else 46 :: fp) ≠ 45 :: tail := by
    intro ip fp hne hall tail heq
    obtain ⟨b, ip, rfl⟩ := exists_cons_of_ne_nil hne
    rw [cons_append] at heq
    injection heq with hb
    exact (hall b (by simp)).ne (by decide) hb
  have hsign : (z < 0 ↔ y < 0) ∧ ip ++ (if scale = 0 then [] else 46 :: fp) =
      ip' ++ (if scale = 0 then [] else 46 :: fp') := by
    rw [hzt] at hyt
    by_cases h1 : z < 0 <;> by_cases h2 : y < 0 <;> simp only [h1, h2, if_true, if_false,
      nil_append, singleton_append] at hyt
    · exact ⟨by simp [h1, h2], cons_injective hyt⟩
    · exact absurd hyt.symm (hcore hip' hyall _)
    · exact absurd hyt (hcore hip hzall _)
    · exact ⟨by simp [h1, h2], hyt⟩
  obtain ⟨hsign, hcoreeq⟩ := hsign
  have hparts : ip = ip' ∧ fp = fp' := by
    by_cases h0 : scale = 0
    · subst h0
      rw [if_pos rfl, if_pos rfl, append_nil, append_nil] at hcoreeq
      exact ⟨hcoreeq, by rw [length_eq_zero_iff.mp hfp, length_eq_zero_iff.mp hfp']⟩
    · rw [if_neg h0, if_neg h0] at hcoreeq
      obtain ⟨hip, hfp⟩ := append_inj' hcoreeq (by simp [hfp, hfp'])
      exact ⟨hip, cons_injective hfp⟩
  rw [hparts.1, hparts.2, hyval] at hzval
  have hpow : (10 : ℚ) ^ scale ≠ 0 := by positivity
  have habs : z.natAbs = y.natAbs := by
    have hq := (div_left_inj' hpow).mp hzval
    exact_mod_cast hq.symm
  omega

/-- Every byte of a decimal's text. -/
theorem mem_of_printsDecimal {z : ℤ} (h : PrintsDecimal z scale text) (hb : b ∈ text) : b = 45 ∨
    b = 46 ∨ IsDigit b := by
  obtain ⟨ip, fp, rfl, -, hall, -⟩ := h
  rw [mem_append, mem_append] at hb
  obtain hb | hb | hb := hb
  · split at hb
    · exact .inl (mem_singleton.mp hb)
    · cases hb
  · exact .inr (.inr (hall b (mem_append_left _ hb)))
  · split at hb
    · cases hb
    · obtain hb | hb := mem_cons.mp hb
      · exact .inr (.inl hb)
      · exact .inr (.inr (hall b (mem_append_right _ hb)))

theorem decimalText_prints (hlen : p.length ≤ avMaxDecimalBytes) (scale : ℕ) :
    PrintsDecimal (twosComplement p) scale (decimalText p scale) := by
  obtain ⟨text, htext, hprints⟩ := avAppendDecimal_prints hlen scale
  rwa [decimalText, htext, getD_some]

theorem decimalText_of_long (hlen : ¬ p.length ≤ avMaxDecimalBytes) (scale : ℕ) :
    decimalText p scale = avAppendHex p := by
  rw [decimalText, avAppendDecimal, if_pos (by omega), getD_some]

theorem comma_notMem_decimalText (p : List Byte) (scale : ℕ) : 44 ∉ decimalText p scale := by
  by_cases hlen : p.length ≤ avMaxDecimalBytes
  · intro hmem
    obtain h | h | h := mem_of_printsDecimal (decimalText_prints hlen scale) hmem
    · exact absurd h (by decide)
    · exact absurd h (by decide)
    · exact h.ne (by decide) rfl
  · rw [decimalText_of_long hlen]
    exact comma_notMem_avAppendHex p

/-- The text of a decimal tells its value; a backslash begins only what is too long for one. -/
theorem twosComplement_of_decimalText {q : List Byte}
    (h : decimalText p scale = decimalText q scale) : twosComplement p = twosComplement q := by
  have hmixed : ∀ {p q : List Byte}, p.length ≤ avMaxDecimalBytes → ¬ q.length ≤ avMaxDecimalBytes →
      decimalText p scale ≠ decimalText q scale := by
    intro p q hp hq heq
    have hmem : 92 ∈ decimalText p scale := by
      rw [heq, decimalText_of_long hq, avAppendHex]
      exact mem_append_left _ (by decide)
    obtain h | h | h := mem_of_printsDecimal (decimalText_prints hp scale) hmem
    · exact absurd h (by decide)
    · exact absurd h (by decide)
    · exact absurd h.2 (by decide)
  by_cases hp : p.length ≤ avMaxDecimalBytes <;> by_cases hq : q.length ≤ avMaxDecimalBytes
  · have hprints := decimalText_prints hp scale
    rw [h] at hprints
    exact hprints.unique (decimalText_prints hq scale)
  · exact absurd h (hmixed hp hq)
  · exact absurd h.symm (hmixed hq hp)
  · rw [decimalText_of_long hp, decimalText_of_long hq] at h
    rw [avAppendHex_inj h]

/-! ### One text, one tuple -/

/-- The types of a partition field. -/
inductive PartType : AvSchema → Prop
  | int : PartType .int
  | long : PartType .long
  | bool : PartType .bool
  | string : PartType .string
  | bytes (decimal : Option ℕ) : PartType (.bytes decimal)
  | fixed (size : ℕ) (decimal : Option ℕ) : PartType (.fixed size decimal)

/-- A partition field's schema: such a type, or a union of it with null. -/
def IsPartField (s : AvSchema) : Prop :=
  ∃ t, PartType t ∧ (s = t ∨ ∃ branches, s = .union branches ∧ ∀ b ∈ branches, b = .null ∨ b = t)

def IsDecimal : AvSchema → Prop
  | .bytes (some _) | .fixed _ (some _) => True
  | _ => False

/-- One value, or one number written in two widths. -/
def SameValue (t : AvSchema) (v w : AvValue) : Prop :=
  v = w ∨ IsDecimal t ∧ ∃ p q, v = .raw p ∧ w = .raw q ∧ twosComplement p = twosComplement q

/-- Both null, or both not null and of one value. -/
def SameField (s : AvSchema) (v w : AvValue) : Prop :=
  (unwrap s v).2.2 = (unwrap s w).2.2 ∧
    ((unwrap s v).2.2 = false → SameValue (unwrap s v).1 (unwrap s v).2.1 (unwrap s w).2.1)

/-- The schema of a value that is not null is the field's type. -/
theorem unwrap_of_isPartField {s t : AvSchema} {depth : ℕ} {v : AvValue} {bs : List Byte}
    (ht : PartType t) (hs : s = t ∨ ∃ branches, s = .union branches ∧
      ∀ b ∈ branches, b = .null ∨ b = t)
    (h : Encodes depth s v bs) (hnull : (unwrap s v).2.2 = false) : (unwrap s v).1 = t := by
  obtain rfl | ⟨branches, rfl, hbranches⟩ := hs
  · cases ht <;> rfl
  · cases depth with
    | zero => exact h.elim
    | succ depth =>
      obtain ⟨i, w, t', ib, wb, rfl, ht', -⟩ := h
      have hget : branches.getD i .null = t' := by
        rw [getD_eq_getElem?_getD, ht', getD_some]
      rw [unwrap] at hnull ⊢
      rw [hget] at hnull ⊢
      obtain rfl | rfl := hbranches t' (mem_of_getElem? ht')
      · cases hnull
      · rfl

section Reversible

variable {encoding : Bool} {verifyUtf8 : List Byte → Bool}
  {floatText doubleText : List Byte → List Byte}

theorem avAppendEscaped_inj {p q : List Byte}
    (h : avAppendEscaped encoding verifyUtf8 p = avAppendEscaped encoding verifyUtf8 q) :
    p = q := by
  have hdecode := congrArg Percent.decode h
  rwa [avAppendEscaped, avAppendEscaped, decode_escapeByte, decode_escapeByte] at hdecode

theorem comma_notMem_avAppendEscaped (p : List Byte) :
    44 ∉ avAppendEscaped encoding verifyUtf8 p := by
  rw [avAppendEscaped, escapeByte_eq]
  exact Percent.notMem_encode rfl (by decide) (by decide) p

/-- The text of a value tells the value. -/
theorem valueText_inj {t : AvSchema} (ht : PartType t) {depth : ℕ} {v w : AvValue}
    {bs cs : List Byte}
    (hv : Encodes depth t v bs) (hw : Encodes depth t w cs)
    (h : (valueText encoding verifyUtf8 floatText doubleText t v).2 =
      (valueText encoding verifyUtf8 floatText doubleText t w).2) : SameValue t v w := by
  cases depth with
  | zero => exact hv.elim
  | succ depth =>
    cases ht with
    | int | long =>
      obtain ⟨z, rfl, -⟩ := hv
      obtain ⟨y, rfl, -⟩ := hw
      exact .inl (congrArg AvValue.int (intText_inj h))
    | bool =>
      obtain ⟨a, rfl, -⟩ := hv
      obtain ⟨b, rfl, -⟩ := hw
      have htext : ascii "true" ≠ ascii "false" := by decide
      cases a <;> cases b
      · exact .inl rfl
      · exact absurd h.symm htext
      · exact absurd h htext
      · exact .inl rfl
    | string =>
      obtain ⟨p, rfl, -⟩ := hv
      obtain ⟨q, rfl, -⟩ := hw
      exact .inl (congrArg AvValue.raw (avAppendEscaped_inj h))
    | bytes decimal =>
      obtain ⟨p, rfl, -⟩ := hv
      obtain ⟨q, rfl, -⟩ := hw
      cases decimal with
      | none => exact .inl (congrArg AvValue.raw (avAppendHex_inj h))
      | some scale => exact .inr ⟨trivial, p, q, rfl, rfl, twosComplement_of_decimalText h⟩
    | fixed size decimal =>
      obtain ⟨rfl, -⟩ := hv
      obtain ⟨rfl, -⟩ := hw
      cases decimal with
      | none => exact .inl (congrArg AvValue.raw (avAppendHex_inj h))
      | some scale => exact .inr ⟨trivial, bs, cs, rfl, rfl, twosComplement_of_decimalText h⟩

theorem comma_notMem_valueText {t : AvSchema} (ht : PartType t) (v : AvValue) :
    44 ∉ (valueText encoding verifyUtf8 floatText doubleText t v).2 := by
  have hother : (44 : Byte) ∉ ascii "?" := by decide
  cases ht with
  | int | long =>
    cases v with
    | int z => exact comma_notMem_intText z
    | _ => exact hother
  | bool =>
    cases v with
    | bool b =>
      have htrue : (44 : Byte) ∉ ascii "true" := by decide
      have hfalse : (44 : Byte) ∉ ascii "false" := by decide
      cases b
      · exact hfalse
      · exact htrue
    | _ => exact hother
  | string =>
    cases v with
    | raw p => exact comma_notMem_avAppendEscaped p
    | _ => exact hother
  | bytes decimal | fixed _ decimal =>
    cases decimal <;> cases v with
    | raw p => first | exact comma_notMem_avAppendHex p | exact comma_notMem_decimalText p _
    | _ => exact hother

variable {depth : ℕ} {f : CString × AvSchema} {v w : AvValue} {bs cs : List Byte}

theorem comma_notMem_fieldText (hf : IsPartField f.2) (h : Encodes depth f.2 v bs) :
    44 ∉ (fieldText encoding verifyUtf8 floatText doubleText f v).2 := by
  obtain ⟨t, ht, hs⟩ := hf
  unfold fieldText
  dsimp only
  split
  · exact comma_notMem_avAppendEscaped _
  · next hnull =>
    rw [Bool.not_eq_true] at hnull
    rw [unwrap_of_isPartField ht hs h hnull, mem_append, mem_cons, not_or, not_or]
    exact ⟨comma_notMem_avAppendEscaped _, by decide, comma_notMem_valueText ht _⟩

/-- The text of a field tells a null from every value, and the value. -/
theorem fieldText_inj (hf : IsPartField f.2) (hv : Encodes depth f.2 v bs)
    (hw : Encodes depth f.2 w cs)
    (h : (fieldText encoding verifyUtf8 floatText doubleText f v).2 =
      (fieldText encoding verifyUtf8 floatText doubleText f w).2) : SameField f.2 v w := by
  obtain ⟨t, ht, hs⟩ := hf
  obtain ⟨-, vb, -, -, hvb⟩ := parses_avUnwrapUnion hv
  obtain ⟨-, wb, -, -, hwb⟩ := parses_avUnwrapUnion hw
  unfold fieldText at h
  cases hvnull : (unwrap f.2 v).2.2 <;> cases hwnull : (unwrap f.2 w).2.2 <;>
    simp only [hvnull, hwnull, if_true, Bool.false_eq_true, if_false] at h
  · have hvt := unwrap_of_isPartField ht hs hv hvnull
    have hwt := unwrap_of_isPartField ht hs hw hwnull
    rw [hvt] at hvb h
    rw [hwt] at hwb h
    have htext := cons_injective (append_cancel_left h)
    refine ⟨hvnull.trans hwnull.symm, fun _ => ?_⟩
    rw [hvt]
    exact valueText_inj ht hvb hwb htext
  -- a value writes an equals sign behind the name, a null does not
  · exact absurd (append_right_eq_self.mp h) (cons_ne_nil _ _)
  · exact absurd (append_right_eq_self.mp h.symm) (cons_ne_nil _ _)
  · refine ⟨hvnull.trans hwnull.symm, fun hfalse => ?_⟩
    rw [hvnull] at hfalse
    cases hfalse

/-- The first comma ends the first field. -/
theorem cut_at_comma {as bs cs ds : List Byte} (has : 44 ∉ as) (hbs : 44 ∉ bs)
    (hcs : cs = [] ∨ cs.head? = some 44) (hds : ds = [] ∨ ds.head? = some 44)
    (h : as ++ cs = bs ++ ds) :
    as = bs ∧ cs = ds := by
  have htake : ∀ {xs ys : List Byte}, 44 ∉ xs → (ys = [] ∨ ys.head? = some 44) →
      (xs ++ ys).takeWhile (· != 44) = xs := by
    intro xs ys hxs hys
    have hall : ∀ b ∈ xs, (b != 44) = true := by
      intro b hb
      rw [bne_iff_ne]
      intro heq
      exact hxs (heq ▸ hb)
    rw [takeWhile_append_of_pos hall]
    obtain rfl | hhead := hys
    · simp
    · cases ys with
      | nil => cases hhead
      | cons y ys =>
        rw [head?_cons, Option.some.injEq] at hhead
        simp [hhead]
  have hab : as = bs := by rw [← htake has hcs, h, htake hbs hds]
  rw [hab] at h
  exact ⟨hab, append_cancel_left h⟩

theorem head_fieldsText (fvs : List ((CString × AvSchema) × AvValue)) :
    (fieldsText encoding verifyUtf8 floatText doubleText fvs false).2 = [] ∨
      (fieldsText encoding verifyUtf8 floatText doubleText fvs false).2.head? = some 44 := by
  cases fvs with
  | nil => exact .inl rfl
  | cons fv fvs => exact .inr rfl

/-- Two tuples of one schema with one text, field by field. -/
theorem fieldsText_inj {fields : List (CString × AvSchema)}
    (hfields : ∀ f ∈ fields, IsPartField f.2)
    {vs ws : List AvValue} (hvlen : fields.length = vs.length) (hwlen : fields.length = ws.length)
    (hv : ∀ fv ∈ fields.zip vs, ∃ bs, Encodes depth fv.1.2 fv.2 bs)
    (hw : ∀ fw ∈ fields.zip ws, ∃ cs, Encodes depth fw.1.2 fw.2 cs) {first : Bool}
    (h : (fieldsText encoding verifyUtf8 floatText doubleText (fields.zip vs) first).2 =
      (fieldsText encoding verifyUtf8 floatText doubleText (fields.zip ws) first).2) :
    ∀ (i : ℕ) (f : CString × AvSchema) (v w : AvValue), fields[i]? = some f → vs[i]? = some v →
      ws[i]? = some w → SameField f.2 v w := by
  induction fields generalizing vs ws first with
  | nil => simp
  | cons f fields ih =>
    obtain ⟨v, vs, rfl⟩ := exists_cons_of_length_eq_add_one hvlen.symm
    obtain ⟨w, ws, rfl⟩ := exists_cons_of_length_eq_add_one hwlen.symm
    simp only [zip_cons_cons, forall_mem_cons] at hfields hv hw h
    obtain ⟨hf, hfields⟩ := hfields
    obtain ⟨⟨bs, hbs⟩, hv⟩ := hv
    obtain ⟨⟨cs, hcs⟩, hw⟩ := hw
    simp only [fieldsText, append_assoc] at h
    obtain ⟨hfield, hrest⟩ := cut_at_comma (comma_notMem_fieldText hf hbs)
      (comma_notMem_fieldText hf hcs)
      (head_fieldsText _) (head_fieldsText _) (append_cancel_left h)
    intro i f' v' w' hf' hv' hw'
    cases i with
    | zero =>
      simp only [getElem?_cons_zero, Option.some.injEq] at hf' hv' hw'
      subst hf' hv' hw'
      exact fieldText_inj hf hbs hcs hfield
    | succ i =>
      rw [getElem?_cons_succ] at hf' hv' hw'
      exact ih hfields (by simpa using hvlen)
        (by simpa using hwlen) hv hw hrest i f' v' w' hf' hv' hw'

end Reversible

/-- **The partition text is reversible**: two tuples of one schema decode, and when their texts are
one they are equal field by field; and a decimal's text is its number, within the digit buffer. -/
theorem partition_text_reversible (encoding : Bool) (verifyUtf8 : List Byte → Bool)
    (floatText doubleText : List Byte → List Byte) :
    (∀ (depth : ℕ) (fields : List (CString × AvSchema)), (∀ f ∈ fields, IsPartField f.2) →
      ∀ vs ws bs cs, Encodes depth (.record fields) (.record vs) bs →
        Encodes depth (.record fields) (.record ws) cs → ∃ vcells vtext wcells wtext,
            Parses (avDecodePartition encoding verifyUtf8 floatText doubleText depth
              (.record fields)) bs
              (some (vcells, vtext)) ∧
            Parses (avDecodePartition encoding verifyUtf8 floatText doubleText depth
              (.record fields)) cs
              (some (wcells, wtext)) ∧
            (vtext = wtext → fields.length = vs.length ∧ fields.length = ws.length ∧
              ∀ (i : ℕ) (f : CString × AvSchema) (v w : AvValue), fields[i]? = some f →
                vs[i]? = some v → ws[i]? = some w → SameField f.2 v w)) ∧
    ∀ p : List Byte, p.length ≤ avMaxDecimalBytes → ∀ scale,
      ∃ text, avAppendDecimal p scale = some text ∧
        PrintsDecimal (twosComplement p) scale text := by
  refine ⟨?_, fun p hp scale => avAppendDecimal_prints hp scale⟩
  intro depth fields hfields vs ws bs cs hvs hws
  refine ⟨_, _, _, _, parses_avDecodePartition hvs, parses_avDecodePartition hws, fun htext => ?_⟩
  cases depth with
  | zero => exact hvs.elim
  | succ depth =>
    obtain ⟨vs', heq, hvlen, hvseq⟩ := hvs
    cases heq
    obtain ⟨ws', heq, hwlen, hwseq⟩ := hws
    cases heq
    exact ⟨hvlen, hwlen, fieldsText_inj hfields hvlen hwlen (fun _ h => hvseq.exists_of_mem h)
      (fun _ h => hwseq.exists_of_mem h) htext⟩

/-- A null and an empty string beside a number and a comma. -/
theorem partition_text_reversible_sample : ∃ vcells vtext wcells wtext,
      Parses (avDecodePartition false (fun _ => false) id id 3
        (.record [(ascii "id", .union [.null, .int]), (ascii "name", .string)])) [0, 0]
        (some (vcells, vtext)) ∧
      Parses (avDecodePartition false (fun _ => false) id id 3
        (.record [(ascii "id", .union [.null, .int]), (ascii "name", .string)])) [2, 6, 2, 44]
        (some (wcells, wtext)) ∧
      (vtext = wtext → SameField .string (.raw []) (.raw [44])) := by
  have hlong : ∀ {z : ℤ} (b : Byte), b.toNat < 128 → zigzag z = b.toNat → -2 ^ 63 ≤ z ∧ z < 2 ^ 63 →
      LongBytes z [b] := by
    intro z b hb hz hint
    rw [LongBytes, hz]
    exact ⟨.last b hb, by simp, hint⟩
  have hfields : ∀ f ∈ [(ascii "id", AvSchema.union [.null, .int]), (ascii "name", .string)],
      IsPartField f.2 := by
    simp only [forall_mem_cons, not_mem_nil, false_implies, implies_true, and_true]
    exact ⟨⟨.int, .int, .inr ⟨[.null, .int], rfl, by simp⟩⟩, .string, .string, .inl rfl⟩
  have hnull : Encodes 2 (.union [.null, .int]) (.union 0 .null) [0] :=
    ⟨0, .null, .null, [0], [], rfl, rfl, hlong 0 (by decide) rfl (by decide), ⟨rfl, rfl⟩, rfl⟩
  have hthree : Encodes 2 (.union [.null, .int]) (.union 1 (.int 3)) [2, 6] :=
    ⟨1, .int 3, .int, [2], [6], rfl, rfl, hlong 2 (by decide) rfl (by decide),
      ⟨3, rfl, by decide, by decide, hlong 6 (by decide) rfl (by decide)⟩, rfl⟩
  have hempty : Encodes 2 .string (.raw []) [0] :=
    ⟨[], rfl, [0], hlong 0 (by decide) rfl (by decide), rfl⟩
  have hcomma : Encodes 2 .string (.raw [44]) [2, 44] :=
    ⟨[44], rfl, [2], hlong 2 (by decide) rfl (by decide), rfl⟩
  have hpair : ∀ (f g : CString × AvSchema) {v w : AvValue} {bs cs : List Byte},
    Encodes 2 f.2 v bs →
      Encodes 2 g.2 w cs → Encodes 3 (.record [f, g]) (.record [v, w]) (bs ++ (cs ++ [])) :=
    fun f g _ _ _ _ hf hg => ⟨_, rfl, rfl, .cons hf (.cons hg .nil)⟩
  have hfirst := hpair (ascii "id", .union [.null, .int]) (ascii "name", .string) hnull hempty
  have hsecond := hpair (ascii "id", .union [.null, .int]) (ascii "name", .string) hthree hcomma
  obtain ⟨vcells, vtext, wcells, wtext, hv, hw, hsame⟩ :=
    (partition_text_reversible false (fun _ => false) id id).1 3
      [(ascii "id", .union [.null, .int]), (ascii "name", .string)] hfields
      [.union 0 .null, .raw []] [.union 1 (.int 3), .raw [44]] [0, 0] [2, 6, 2, 44]
      hfirst hsecond
  exact ⟨vcells, vtext, wcells, wtext, hv, hw, fun h => (hsame h).2.2 1 _ _ _ rfl rfl rfl⟩

end PgColumnar.Avro
