import Mathlib.Data.Prod.Lex
import Mathlib.Tactic.Positivity
import PgColumnar.Lib.Bytes
import PgColumnar.Lib.Compare
import PgColumnar.Lib.Ieee
import PgColumnar.Parquet.Plan

/-!
# Reading a plain value

`plain_value_to_datum` reads one value of a leaf and makes it a value of the column's type:
it narrows and widens integers, scales times to microseconds, moves dates and timestamps to
PostgreSQL's epoch and gives decimals their point.

The session's encoding and time zone are parameters.

## Main definitions

* `plainValueToDatum` — a stored value as a datum.
* `datumKey` — its place in the order of its type.

## Main results

* `inOrder_between` — bounds keep their sides however integers are taken.
-/

namespace PgColumnar.Parquet

open Bytes Compare List Int

/-- A value of a PostgreSQL type: integers, dates and times by their number, floats by
their pattern. -/
inductive NumericSpecial where
  | ninf
  | pinf
  | nan
  deriving DecidableEq

inductive Datum where
  | bool (b : Bool)
  | int (v : ℤ)
  | numeric (unscaled : ℤ) (scale : ℕ)
  | numericSpecial (n : NumericSpecial)
  | float4 (bits : BitVec 32)
  | float8 (bits : BitVec 64)
  | text (bytes : List Byte)
  | bytea (bytes : List Byte)
  | uuid (bytes : List Byte)
  | other (bytes : List Byte)
  deriving DecidableEq

def Datum.HasType : Datum → TypeOid → Prop
  | .bool _, t => t = .bool
  | .int _, t => t = .int2 ∨ t = .int4 ∨ t = .int8 ∨ t = .date ∨ t = .time ∨ t = .timestamp ∨
      t = .timestamptz
  | .numeric _ _, t | .numericSpecial _, t => t = .numeric
  | .float4 _, t => t = .float4
  | .float8 _, t => t = .float8
  | .text _, t => t = .text ∨ t = .varchar
  | .bytea _, t => t = .bytea
  | .uuid _, t => t = .uuid
  | .other _, t => ∃ oid, t = .other oid

/-- What the conversions of `timestamp` and the checks of text depend on. -/
structure Session where
  /-- `pq_ts_shift` -/
  tsShift : TsShift → ℤ → Option ℤ
  /-- `pq_text_cell_ok` -/
  textCellOk : List Byte → Bool

/-! ### Integers, dates and times -/

/-- `USECS_PER_DAY` -/
def usecsPerDay : ℤ := 86400000000

/-- `PG_TO_UNIX_DAYS` -/
def pgToUnixDays : ℤ := 2451545 - 2440588

/-- `PG_TO_UNIX_USECS` -/
def pgToUnixUsecs : ℤ := pgToUnixDays * usecsPerDay

def fitsInt32 (v : ℤ) : Bool := decide (-2 ^ 31 ≤ v ∧ v < 2 ^ 31)

def fitsInt64 (v : ℤ) : Bool := decide (-2 ^ 63 ≤ v ∧ v < 2 ^ 63)

/-- `IS_VALID_DATE`: `DATETIME_MIN_JULIAN` is 0 and `DATE_END_JULIAN` is 2147483494. -/
def isValidDate (d : ℤ) : Bool := decide (0 - 2451545 ≤ d ∧ d < 2147483494 - 2451545)

/-- `IS_VALID_TIMESTAMP`: between `MIN_TIMESTAMP` and `END_TIMESTAMP`. -/
def isValidTimestamp (t : ℤ) : Bool :=
  decide (-211813488000000000 ≤ t ∧ t < 9223371331200000000)

/-- `pq_scale_to_usecs` -/
def pqScaleToUsecs (unit : TimeUnit) (v : ℤ) : Option ℤ :=
  match unit with
  | .millis => if fitsInt64 (v * 1000) then some (v * 1000) else none
  | .nanos => some (v.tdiv 1000)
  | .micros | .none => some v

/-- A time of day in the column's unit. -/
def timeDatum (unit : TimeUnit) (v : ℤ) : Option Datum :=
  match pqScaleToUsecs unit v with
  | none => none
  | some us => if us < 0 ∨ usecsPerDay < us then none else some (.int us)

def dateDatum (v : ℤ) : Option Datum :=
  let d := v - pgToUnixDays
  if fitsInt32 d && isValidDate d then some (.int d) else none

/-- The last checks on a timestamp, and the cast to the other kind. -/
def timestampShifted (session : Session) (shift : TsShift) (t : ℤ) : Option Datum :=
  if !isValidTimestamp t then none
  else if shift = .none then some (.int t)
  else (session.tsShift shift t).map .int

def timestampDatum (session : Session) (plan : PqColPlan) (v : ℤ) : Option Datum :=
  match pqScaleToUsecs plan.timeUnit v with
  | none => none
  | some us =>
    let t := us - pgToUnixUsecs
    if fitsInt64 t then timestampShifted session plan.tsShift t else none

/-- `pq_decimal_to_numeric` on the big-endian bytes of the unscaled number. -/
def pqDecimalToNumeric (be : List Byte) (scale : ℤ) : Option Datum :=
  if be.length < 1 ∨ 16 < be.length then none
  else if scale < 0 ∨ 38 < scale then none
  else
    let mag : ℤ := leNat be.reverse
    let neg := (be.headD 0).msb
    some (.numeric (if neg then mag - 256 ^ be.length else mag) scale.toNat)

/-- `pq_int_decimal_to_numeric` -/
def pqIntDecimalToNumeric (v : ℤ) (width : ℕ) (scale : ℤ) : Option Datum :=
  pqDecimalToNumeric (leBytes width (v % 256 ^ width).toNat).reverse scale

/-- The branch of `plain_value_to_datum` for a number of 32 bits. -/
def plainInt32 (plan : PqColPlan) (v : ℤ) : Option Datum :=
  let u := v % 2 ^ 32
  if plan.isDecimal then pqIntDecimalToNumeric v 4 plan.decScale
  else if plan.isUnsigned = true ∧ plan.typid = .int8 then some (.int u)
  else if plan.isUnsigned = true ∧ (plan.typid = .int4 ∨ plan.typid = .int2) ∧
    2 ^ 31 - 1 < u then none
  else
    match plan.typid with
    | .int2 => if v < -2 ^ 15 ∨ 2 ^ 15 - 1 < v then none else some (.int v)
    | .time => timeDatum plan.timeUnit v
    | .date => dateDatum v
    | _ => some (.int v)

/-- The branch of `plain_value_to_datum` for a number of 64 bits. -/
def plainInt64 (session : Session) (plan : PqColPlan) (v : ℤ) : Option Datum :=
  if plan.isDecimal then pqIntDecimalToNumeric v 8 plan.decScale
  else if plan.isUnsigned = true ∧ plan.typid = .numeric then some (.numeric (v % 2 ^ 64) 0)
  else if plan.isUnsigned = true ∧ plan.typid = .int8 ∧ v < 0 then none
  else
    match plan.typid with
    | .timestamp | .timestamptz => timestampDatum session plan v
    | .time => timeDatum plan.timeUnit v
    | _ => some (.int v)

/-- The branch for the legacy timestamp: nanoseconds of the day and the Julian day. -/
def plainInt96 (session : Session) (plan : PqColPlan) (nanos jday : ℤ) : Option Datum :=
  let t := (jday - 2451545) * usecsPerDay
  let us := t + nanos / 1000
  if nanos < 0 ∨ usecsPerDay * 1000 ≤ nanos then none
  else if fitsInt64 t && fitsInt64 us then timestampShifted session plan.tsShift us
  else none

/-! ### The reading -/

/-- The first `n` bytes, and what follows them. -/
def takeBytes (n : ℕ) (bs : List Byte) : Option (List Byte × List Byte) :=
  if bs.length < n then none else some (bs.take n, bs.drop n)

/-- The signed number of the bytes. -/
def signedOf (width : ℕ) (bs : List Byte) : ℤ := (BitVec.ofNat (8 * width) (leNat bs)).toInt

/-- What a string of bytes is read as. -/
def binaryDatum (session : Session) (plan : PqColPlan) (bytes : List Byte) : Option Datum :=
  if plan.isDecimal then pqDecimalToNumeric bytes plan.decScale
  else if plan.typid = .bytea then some (.bytea bytes)
  else if session.textCellOk bytes then some (.text bytes)
  else none

def fixedDatum (plan : PqColPlan) (bytes : List Byte) : Option Datum :=
  if plan.isDecimal then pqDecimalToNumeric bytes plan.decScale
  else if plan.typid = .uuid then if plan.typeLength ≠ uuidLen then none else some (.uuid bytes)
  else some (.bytea bytes)

/-- `plain_value_to_datum`: the value and what follows it.  It fails where the function
raises, or for statistics gives up. -/
def plainValueToDatum (session : Session) (plan : PqColPlan) (input : List Byte) :
    Option (Datum × List Byte) :=
  match plan.expectPhys with
  | .int32 => (takeBytes 4 input).bind fun r =>
      (plainInt32 plan (signedOf 4 r.1)).map (·, r.2)
  | .int64 => (takeBytes 8 input).bind fun r =>
      (plainInt64 session plan (signedOf 8 r.1)).map (·, r.2)
  | .int96 => (takeBytes 12 input).bind fun r =>
      (plainInt96 session plan (signedOf 8 (r.1.take 8)) (signedOf 4 (r.1.drop 8))).map (·, r.2)
  | .float => (takeBytes 4 input).map fun r =>
      let bits := BitVec.ofNat 32 (leNat r.1)
      (if plan.typid = .float8 then .float8 (BitVec.ofNat 64 (Ieee.widen 8 23 11 52 bits.toNat))
        else .float4 bits, r.2)
  | .double => (takeBytes 8 input).map fun r => (.float8 (BitVec.ofNat 64 (leNat r.1)), r.2)
  | .boolean => none
  | .byteArray => (takeBytes 4 input).bind fun r => (takeBytes (leNat r.1) r.2).bind fun b =>
      (binaryDatum session plan b.1).map (·, b.2)
  | .fixedLenByteArray =>
    if plan.typeLength ≤ 0 then none
    else (takeBytes plan.typeLength.toNat input).bind fun b => (fixedDatum plan b.1).map (·, b.2)

/-! ### The order of the values -/

def Datum.isNaN : Datum → Bool
  | .float4 b => Ieee.isNaN 8 23 b.toNat
  | .float8 b => Ieee.isNaN 11 52 b.toNat
  | _ => false

/-- The place of a number. -/
def finite (q : ℚ) : ℤ ×ₗ ℚ := toLex (0, q)

@[simp] theorem finite_le_finite {p q : ℚ} : finite p ≤ finite q ↔ p ≤ q := by
  simp [finite, Prod.Lex.toLex_le_toLex]

theorem finite_injective : Function.Injective finite :=
    fun _ _ h => congrArg (fun k => (ofLex k).2) h

/-- The infinities are on both sides of the numbers, and NaN is above all. -/
def NumericSpecial.key : NumericSpecial → ℤ ×ₗ ℚ
  | .ninf => toLex (-1, 0)
  | .pinf => toLex (1, 0)
  | .nan => toLex (2, 0)

/-- The place of a value in the order of its type. -/
def datumKey : Datum → ℤ ×ₗ ℚ
  | .int v => finite v
  | .numeric unscaled scale => finite ((unscaled : ℚ) / 10 ^ scale)
  | .numericSpecial n => n.key
  | .float4 b => finite (Ieee.orderKey 8 23 b.toNat)
  | .float8 b => finite (Ieee.orderKey 11 52 b.toNat)
  | _ => finite 0

/-- The default comparison of a numeric or temporal type. -/
def datumCmp (a b : Datum) : ℤ :=
  if datumKey a < datumKey b then -1 else if datumKey b < datumKey a then 1 else 0

theorem datumCmp_nonpos {a b : Datum} : datumCmp a b ≤ 0 ↔ datumKey a ≤ datumKey b := by
  unfold datumCmp
  split
  · next h => simp [le_of_lt h]
  · split
    · next h => simp [h]
    · next h => simp [not_lt.mp h]

theorem datumCmp_pos {a b : Datum} : 0 < datumCmp a b ↔ datumKey b < datumKey a := by
  rw [← not_le, datumCmp_nonpos, not_le]

theorem datumCmp_swap (a b : Datum) : datumCmp b a = -datumCmp a b := by
  unfold datumCmp
  rcases lt_trichotomy (datumKey a) (datumKey b) with h | h | h
  · simp [h, not_lt_of_gt h]
  · simp [h]
  · simp [h, not_lt_of_gt h]

theorem totalCmp_datumCmp : TotalCmp datumCmp where
  swap a b := by rw [datumCmp_swap, sign_neg]
  trans a b c hab hbc := by
    rw [datumCmp_nonpos] at hab hbc ⊢
    exact hab.trans hbc

/-! ### Decimals -/

theorem msb_getLast {bs : List Byte} (hne : bs ≠ []) :
    (bs.getLast hne).msb = decide (256 ^ bs.length ≤ 2 * leNat bs) := by
  induction bs with
  | nil => exact absurd rfl hne
  | cons b bs ih =>
    cases bs with
    | nil =>
      rw [getLast_singleton, BitVec.msb_eq_decide, leNat_cons, leNat_nil]
      simp
      omega
    | cons c cs =>
      have hlast := ih (cons_ne_nil c cs)
      rw [getLast_cons (cons_ne_nil c cs), hlast, leNat_cons b, @length_cons _ b (c :: cs),
        pow_succ]
      have hb := b.isLt
      have heven : 256 ^ (c :: cs).length = 2 * (128 * 256 ^ cs.length) := by
        rw [length_cons, pow_succ]
        ring
      rw [heven]
      apply decide_eq_decide.mpr
      omega

variable {v : ℤ}

/-- A signed number is moved by the whole range if it is negative. -/
theorem emod_two_mul {m : ℤ} (hlow : -m ≤ v) (hhigh : v < m) :
    v % (2 * m) = if v < 0 then v + 2 * m else v := by
  split
  · rw [← add_emod_right]
    exact emod_eq_of_lt (by omega) (by omega)
  · exact emod_eq_of_lt (by omega) (by omega)

/-- The upper half of the range, taken as negative. -/
theorem signed_emod {m : ℤ} (hlow : -m ≤ v) (hhigh : v < m) :
    (if 2 * m ≤ 2 * (v % (2 * m)) then v % (2 * m) - 2 * m else v % (2 * m)) = v := by
  rw [emod_two_mul hlow hhigh]
  split <;> split <;> omega

/-- An integer that is stored as a decimal is that integer. -/
theorem pqIntDecimalToNumeric_eq {width : ℕ} (hwidth : 1 ≤ width ∧ width ≤ 16)
    (hlow : -(128 * 256 ^ (width - 1)) ≤ v) (hhigh : v < 128 * 256 ^ (width - 1)) (scale : ℤ) :
    pqIntDecimalToNumeric v width scale =
      if scale < 0 ∨ 38 < scale then none else some (.numeric v scale.toNat) := by
  unfold pqIntDecimalToNumeric pqDecimalToNumeric
  rw [length_reverse, length_leBytes, if_neg (by omega), reverse_reverse]
  split
  · rfl
  · have hrange : (256 : ℤ) ^ width = 2 * (128 * 256 ^ (width - 1)) := by
      obtain ⟨k, rfl⟩ : ∃ k, width = k + 1 := ⟨width - 1, by omega⟩
      rw [Nat.add_sub_cancel, pow_succ]
      ring
    have hmod : 0 ≤ v % 256 ^ width := emod_nonneg _ (by positivity)
    have hlt : v % 256 ^ width < 256 ^ width := emod_lt_of_pos _ (by positivity)
    have hnat : (v % 256 ^ width).toNat < 256 ^ width := by
      zify
      rw [toNat_of_nonneg hmod]
      exact hlt
    have hval : (leNat (leBytes width (v % 256 ^ width).toNat) : ℤ) = v % 256 ^ width := by
      rw [leNat_leBytes_of_lt hnat, toNat_of_nonneg hmod]
    generalize (v % 256 ^ width).toNat = u at hval ⊢
    have hne : leBytes width u ≠ [] := by
      intro hnil
      have hlen := length_leBytes width u
      rw [hnil, length_nil] at hlen
      omega
    have hhead : ((leBytes width u).reverse.headD 0).msb =
        decide ((256 : ℤ) ^ width ≤ 2 * (v % 256 ^ width)) := by
      rw [headD_eq_head?_getD, head?_reverse, getLast?_eq_getLast_of_ne_nil hne,
        Option.getD_some, msb_getLast hne, length_leBytes, ← hval]
      apply decide_eq_decide.mpr
      exact_mod_cast Iff.rfl
    dsimp only
    rw [hhead, hval, hrange]
    congr 2
    simp only [decide_eq_true_eq]
    exact signed_emod hlow hhigh

theorem signedOf_range {width : ℕ} (hwidth : 1 ≤ width) (bs : List Byte) :
    -(128 * 256 ^ (width - 1)) ≤ signedOf width bs ∧
      signedOf width bs < 128 * 256 ^ (width - 1) := by
  obtain ⟨k, rfl⟩ : ∃ k, width = k + 1 := ⟨width - 1, by omega⟩
  have hpow : (128 : ℤ) * 256 ^ k = 2 ^ (8 * (k + 1) - 1) := by
    rw [show 8 * (k + 1) - 1 = 7 + 8 * k by omega, pow_add, pow_mul]
    norm_num
  rw [Nat.add_sub_cancel, hpow]
  exact ⟨BitVec.le_toInt _, BitVec.toInt_lt⟩

/-! ### Integers keep their order -/

/-- The order in which a writer takes the extremes of the integers of a column. -/
inductive SortOrder where
  | signed
  | unsigned
  deriving DecidableEq

/-- The integer in the order, where half of the range is `m`. -/
def inOrder (order : SortOrder) (m v : ℤ) : ℤ :=
  match order with
  | .signed => v
  | .unsigned => v % (2 * m)

/-- How `plain_value_to_datum` takes the integers of a column that bigger types hold. -/
def readOrder (plan : PqColPlan) : SortOrder :=
  if plan.isUnsigned = true ∧ plan.isDecimal = false ∧
      (plan.typid = .int8 ∧ plan.expectPhys = .int32 ∨
        plan.typid = .numeric ∧ plan.expectPhys = .int64) then .unsigned
  else .signed

/-- Between two integers that are in order however they are taken, an integer stays. -/
theorem inOrder_between {o r : SortOrder} {m a b : ℤ} (ha : -m ≤ a ∧ a < m) (hv : -m ≤ v ∧ v < m)
    (hb : -m ≤ b ∧ b < m) (hav : inOrder o m a ≤ inOrder o m v)
    (hvb : inOrder o m v ≤ inOrder o m b)
    (hab : inOrder r m a ≤ inOrder r m b) :
    inOrder r m a ≤ inOrder r m v ∧ inOrder r m v ≤ inOrder r m b := by
  have hea := emod_two_mul ha.1 ha.2
  have hev := emod_two_mul hv.1 hv.2
  have heb := emod_two_mul hb.1 hb.2
  cases o with
  | signed =>
    cases r with
    | signed => exact ⟨hav, hvb⟩
    | unsigned =>
      simp only [inOrder, hea, hev, heb] at hav hvb hab ⊢
      split_ifs at hab ⊢ <;> omega
  | unsigned =>
    cases r with
    | signed =>
      simp only [inOrder, hea, hev, heb] at hav hvb hab ⊢
      split_ifs at hav hvb <;> omega
    | unsigned => exact ⟨hav, hvb⟩

/-- The microseconds of a time in the column's unit. -/
def usecsOf (unit : TimeUnit) (v : ℤ) : ℤ :=
  match unit with
  | .millis => v * 1000
  | .nanos => v.tdiv 1000
  | .micros | .none => v

/-- The place in the order of the value that is read from an integer. -/
def plainKey (plan : PqColPlan) (r : ℤ) : ℚ :=
  if plan.isDecimal then (r : ℚ) / 10 ^ plan.decScale.toNat
  else
    match plan.typid with
    | .date => r - pgToUnixDays
    | .time => usecsOf plan.timeUnit r
    | .timestamp | .timestamptz => usecsOf plan.timeUnit r - pgToUnixUsecs
    | _ => r

variable {w : ℤ}

theorem usecsOf_mono (unit : TimeUnit) (h : v ≤ w) : usecsOf unit v ≤ usecsOf unit w := by
  cases unit with
  | none | micros => exact h
  | millis => exact mul_le_mul_of_nonneg_right h (by decide)
  | nanos => exact Int.tdiv_le_tdiv (by decide) h

theorem usecsOf_strict {unit : TimeUnit} (hunit : unit ≠ .nanos) (h : v < w) :
    usecsOf unit v < usecsOf unit w := by
  cases unit with
  | none | micros => exact h
  | millis => exact mul_lt_mul_of_pos_right h (by decide)
  | nanos => exact absurd rfl hunit

theorem plainKey_mono (plan : PqColPlan) (h : v ≤ w) : plainKey plan v ≤ plainKey plan w := by
  have hus := usecsOf_mono plan.timeUnit h
  unfold plainKey
  split
  · gcongr
  · split
    · exact_mod_cast sub_le_sub_right h _
    · exact_mod_cast hus
    · exact_mod_cast sub_le_sub_right hus _
    · exact_mod_cast sub_le_sub_right hus _
    · exact_mod_cast h

variable {plan : PqColPlan}

/-- Different integers give different values, except for nanoseconds. -/
theorem plainKey_strict (hunit : plan.timeUnit = .nanos → plan.isDecimal = false →
    plan.typid ≠ .time ∧ plan.typid ≠ .timestamp ∧ plan.typid ≠ .timestamptz) (h : v < w) :
    plainKey plan v < plainKey plan w := by
  unfold plainKey
  split
  · gcongr
  · next hdec =>
    have hno := fun hu => hunit hu (Bool.not_eq_true _ ▸ hdec)
    split
    · exact_mod_cast sub_lt_sub_right h _
    · next ht => exact_mod_cast usecsOf_strict (fun hu => (hno hu).1 ht) h
    · next ht => exact_mod_cast sub_lt_sub_right (usecsOf_strict (fun hu => (hno hu).2.1 ht) h) _
    · next ht => exact_mod_cast sub_lt_sub_right (usecsOf_strict (fun hu => (hno hu).2.2 ht) h) _
    · exact_mod_cast h

theorem pqScaleToUsecs_eq {unit : TimeUnit} {us : ℤ} (h : pqScaleToUsecs unit v = some us) :
    us = usecsOf unit v := by
  cases unit with
  | millis =>
    simp only [pqScaleToUsecs] at h
    split at h
    · cases h
      rfl
    · cases h
  | none | micros | nanos =>
    cases h
    rfl

variable {d : Datum}

theorem datumKey_timeDatum {unit : TimeUnit} (h : timeDatum unit v = some d) :
    datumKey d = finite (usecsOf unit v) := by
  unfold timeDatum at h
  split at h
  · cases h
  · next us hus =>
    split_ifs at h
    cases h
    rw [← pqScaleToUsecs_eq hus]
    rfl

theorem datumKey_dateDatum (h : dateDatum v = some d) : datumKey d = finite (v - pgToUnixDays) := by
  simp only [dateDatum] at h
  split at h
  · cases h
    exact congrArg finite (cast_sub _ _)
  · cases h

theorem datumKey_timestampDatum {session : Session} (hshift : plan.tsShift = .none)
    (h : timestampDatum session plan v = some d) :
    datumKey d = finite (usecsOf plan.timeUnit v - pgToUnixUsecs) := by
  unfold timestampDatum at h
  split at h
  · cases h
  · next us hus =>
    dsimp only at h
    split_ifs at h
    unfold timestampShifted at h
    split_ifs at h
    cases h
    rw [← pqScaleToUsecs_eq hus]
    exact congrArg finite (cast_sub _ _)

theorem datumKey_decimal {width : ℕ} (hwidth : 1 ≤ width ∧ width ≤ 16)
    (hlow : -(128 * 256 ^ (width - 1)) ≤ v) (hhigh : v < 128 * 256 ^ (width - 1)) {scale : ℤ}
    (h : pqIntDecimalToNumeric v width scale = some d) :
    datumKey d = finite ((v : ℚ) / 10 ^ scale.toNat) := by
  rw [pqIntDecimalToNumeric_eq hwidth hlow hhigh] at h
  split_ifs at h
  cases h
  rfl

/-- The value read from 32 bits is at the place of the integer in the order it is read in. -/
theorem datumKey_plainInt32 {typid : TypeOid} {sc : PqSchemaCol}
    (hbound : BoundTo typid sc plan) (hphys : plan.expectPhys = .int32)
    (hv : -(128 * 256 ^ 3) ≤ v ∧ v < 128 * 256 ^ 3) (h : plainInt32 plan v = some d) :
    datumKey d = finite (plainKey plan (inOrder (readOrder plan) (128 * 256 ^ 3) v)) := by
  -- no timestamp is stored in 32 bits
  have hts : plan.typid ≠ .timestamp ∧ plan.typid ≠ .timestamptz := by
    have hwant := hbound.want
    rw [← hbound.phys, hphys] at hwant
    rw [hbound.typid_eq]
    constructor
    · rintro rfl
      by_cases h96 : sc.physType = .int96 <;> simp [pqWantPhysFor, pqWantPhys, h96] at hwant
    · rintro rfl
      by_cases h96 : sc.physType = .int96 <;> simp [pqWantPhysFor, pqWantPhys, h96] at hwant
  unfold plainInt32 at h
  unfold plainKey readOrder
  dsimp only at h
  split at h
  · next hdec =>
    rw [if_pos hdec, if_neg (by simp [hdec])]
    exact datumKey_decimal (by decide) hv.1 hv.2 h
  · next hdec =>
    rw [if_neg hdec]
    split at h
    · next hu =>
      cases h
      rw [hu.2, if_pos ⟨hu.1, Bool.not_eq_true _ ▸ hdec, .inl ⟨rfl, hphys⟩⟩]
      simp only [inOrder]
      norm_num [datumKey]
    · next hu =>
      split at h
      · cases h
      · -- what is unsigned is not negative from here on
        rw [if_neg (by
          rw [hphys]
          rintro ⟨hun, _, hb | hb⟩
          · exact hu ⟨hun, hb.1⟩
          · exact absurd hb.2 (by decide))]
        simp only [inOrder]
        split at h
        · next ht =>
          rw [ht]
          split at h <;> cases h
          rfl
        · next ht =>
          rw [ht]
          exact datumKey_timeDatum h
        · next ht =>
          rw [ht]
          exact datumKey_dateDatum h
        · next h2 ht hd =>
          cases h
          cases htyp : plan.typid <;> simp_all [datumKey]

/-- The same for 64 bits, if timestamps are not shifted. -/
theorem datumKey_plainInt64 {session : Session} {typid : TypeOid} {sc : PqSchemaCol}
    (hbound : BoundTo typid sc plan) (hphys : plan.expectPhys = .int64)
    (hshift : plan.tsShift = .none) (hv : -(128 * 256 ^ 7) ≤ v ∧ v < 128 * 256 ^ 7)
    (h : plainInt64 session plan v = some d) :
    datumKey d = finite (plainKey plan (inOrder (readOrder plan) (128 * 256 ^ 7) v)) := by
  -- no date is stored in 64 bits
  have hdate : plan.typid ≠ .date := by
    have hwant := hbound.want
    rw [← hbound.phys, hphys] at hwant
    rw [hbound.typid_eq]
    rintro rfl
    simp [pqWantPhysFor, pqWantPhys] at hwant
  unfold plainInt64 at h
  unfold plainKey readOrder
  split at h
  · next hdec =>
    rw [if_pos hdec, if_neg (by simp [hdec])]
    exact datumKey_decimal (by decide) hv.1 hv.2 h
  · next hdec =>
    rw [if_neg hdec]
    split at h
    · next hu =>
      cases h
      rw [hu.2, if_pos ⟨hu.1, Bool.not_eq_true _ ▸ hdec, .inr ⟨rfl, hphys⟩⟩]
      simp only [inOrder]
      norm_num [datumKey]
    · next hu =>
      split_ifs at h
      rw [if_neg (by
        rw [hphys]
        rintro ⟨hun, _, hb | hb⟩
        · exact absurd hb.2 (by decide)
        · exact hu ⟨hun, hb.1⟩)]
      simp only [inOrder]
      split at h
      · next ht =>
        rw [ht]
        exact datumKey_timestampDatum hshift h
      · next ht =>
        rw [ht]
        exact datumKey_timestampDatum hshift h
      · next ht =>
        rw [ht]
        exact datumKey_timeDatum h
      · next h1 h2 h3 =>
        cases h
        cases htyp : plan.typid <;> simp_all [datumKey]

end PgColumnar.Parquet
