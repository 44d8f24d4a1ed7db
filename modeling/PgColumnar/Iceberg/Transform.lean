import Mathlib.Data.Int.ConditionallyCompleteOrder
import PgColumnar.Iceberg.Stored

/-!
# What the manifest says of the stored values

The writer puts into the manifest what the partition transforms make of the stored values of a file,
and bounds of these values.  The reader changes a stored value on its way to the row: a timestamp
goes to PostgreSQL's epoch and to microseconds, with nanoseconds cut toward zero.

The calendar is a parameter, as months since January 1970.

## Main definitions

* `Transform.Holds`, `Written` — what a manifest entry states.
* `Calendar` — what is asked of the conversion of timestamps.

## Main results

* `iceTemporalBucket_eq` — the bucket of a constant.
-/

namespace PgColumnar.Iceberg

open Bytes Parquet Int
open Option (bind_eq_some_iff map_eq_some_iff)

/-! ### Stored values -/

def storedInt (sc : PqSchemaCol) : Stored → Option ℤ
  | .bit b => some (if b then 1 else 0)
  | .plain bytes =>
    match sc.physType with
    | .int32 => some (if sc.isUnsigned then signedOf 4 (bytes.take 4) % 2 ^ 32 else signedOf 4
      (bytes.take 4))
    | .int64 => some (if sc.isUnsigned then signedOf 8 (bytes.take 8) % 2 ^ 64 else signedOf 8
      (bytes.take 8))
    | _ => none

/-- The bytes behind the length. -/
def storedBytes (sc : PqSchemaCol) : Stored → Option (List Byte)
  | .bit _ => none
  | .plain bytes =>
    if sc.physType = .byteArray then
      (takeBytes 4 bytes).bind fun r => (takeBytes (leNat r.1) r.2).map (·.1)
    else none

/-- The nanoseconds in an hour. -/
def nsPerHour : ℤ := 3600000000000

/-- The instant of a date or of a timestamp, in nanoseconds since 1970. -/
def instantNs (sc : PqSchemaCol) : Stored → Option ℤ
  | .bit _ => none
  | .plain bytes =>
    match sc.physType with
    | .int32 => some (signedOf 4 (bytes.take 4) * (24 * nsPerHour))
    | .int64 => some (match sc.timeUnit with
      | .millis => signedOf 8 (bytes.take 8) * 1000000
      | .nanos => signedOf 8 (bytes.take 8)
      | .micros | .none => signedOf 8 (bytes.take 8) * 1000)
    | .int96 => some ((signedOf 4 ((bytes.take 12).drop 8) - 2440588) * (24 * nsPerHour) +
        signedOf 8 ((bytes.take 12).take 8))
    | _ => none

/-! ### Transforms -/

/-- The bucket of time in which an instant lies; `perHour` gives the unit. -/
def bucketAt (monthOf : ℤ → ℤ) (kind : TemporalKind) (perHour t : ℤ) : ℤ :=
  match kind with
  | .year => monthOf (t / (24 * perHour)) / 12
  | .month => monthOf (t / (24 * perHour))
  | .day => t / (24 * perHour)
  | .hour => t / perHour

/-- The bucket of some bytes. -/
def bucketOf (bytes : List Byte) (n : ℤ) : ℤ := ((Murmur3.hash bytes).toNat % 2 ^ 31 : ℕ) % n

/-- The transform of a stored value is the number; nothing is said of the bucket of a decimal. -/
def Transform.Holds (monthOf : ℤ → ℤ) (sc : PqSchemaCol) (x : Stored) (v : ℤ) : Transform → Prop
  | .identity => ∀ n ∈ storedInt sc x, v = n
  | .bucket n =>
    sc.convertedType ≠ ctDecimal → (∀ m ∈ storedInt sc x, v = bucketOf (int64Bytes m) n) ∧
      ∀ bytes ∈ storedBytes sc x, v = bucketOf bytes n
  -- the start of the interval, in 64 bits
  | .truncate w => ∀ n ∈ storedInt sc x, v = (w.1 * (n / w.1)).bmod (2 ^ 64)
  | .temporal kind => ∀ ns ∈ instantNs sc x, v = bucketAt monthOf kind nsPerHour ns
  | .other => True

/-- The cell says the transform of a value; an incomparable cell says only that it is not null. -/
def CellHolds (monthOf : ℤ → ℤ) (t : Transform) (cell : PartCell) :
    Option (PqSchemaCol × Stored) → Prop
  | none => cell.isnull = true
  | some (sc, x) => cell.isnull = false ∧ (cell.comparable = true →
      if cell.isBytes then t = .identity → ∀ bytes ∈ storedBytes sc x, cell.bytes = bytes
      else t.Holds monthOf sc x cell.ival)

/-- The serialization of an integer or of a boolean in one of its widths. -/
def Serializes (n : ℤ) (bytes : List Byte) : Prop :=
  (bytes = leBytes 1 n.toNat ∧ 0 ≤ n ∧ n < 2 ^ 8) ∨
    (bytes = leBytes 4 (n % 2 ^ 32).toNat ∧ -2 ^ 31 ≤ n ∧ n < 2 ^ 31) ∨
    (bytes = leBytes 8 (n % 2 ^ 64).toNat ∧ -2 ^ 63 ≤ n ∧ n < 2 ^ 63)

/-- The values of a field, with the annotations of their leaf; a field that the file does not have
is null. -/
def sourceValues (f : DataFile) (nm : NameMapping) (stored : ℕ → List (Option Stored)) (id : ℕ) :
    List (Option (PqSchemaCol × Stored)) :=
  match carriers f nm id with
  | [j] => (f.leaves[j]?).elim [] fun l => (stored j).map fun v => v.map fun x => (l.info.sc, x)
  | _ => [none]

/-- The manifest entry of a file is written correctly. -/
structure Written (monthOf : ℤ → ℤ) (f : DataFile) (nm : NameMapping)
    (stored : ℕ → List (Option Stored))
    (specs : List (ℤ × List PartField)) (file : IceFileMeta) : Prop where
  cells : ∀ s, specs.find? (fun s => s.1 = file.specId) = some s →
    ∀ (k : ℕ) field cell, s.2[k]? = some field →
    file.cells[k]? = some cell → ∀ v ∈ sourceValues f nm stored field.sourceId,
      CellHolds monthOf field.transform cell v
  lower : ∀ id bytes, (id, some bytes) ∈ file.lower →
    ∀ sc x, some (sc, x) ∈ sourceValues f nm stored id →
    sc.convertedType ≠ ctDecimal → ∀ n ∈ storedInt sc x, ∀ lo, Serializes lo bytes → lo ≤ n
  upper : ∀ id bytes, (id, some bytes) ∈ file.upper →
    ∀ sc x, some (sc, x) ∈ sourceValues f nm stored id →
    sc.convertedType ≠ ctDecimal → ∀ n ∈ storedInt sc x, ∀ hi, Serializes hi bytes → n ≤ hi

/-- `timestamp2tm` agrees with the calendar. -/
structure Calendar (timestamp2tm : ℤ → Option (ℤ × ℤ)) (monthOf : ℤ → ℤ) : Prop where
  mono : Monotone monthOf
  month : ∀ ts y m, timestamp2tm ts = some (y, m) → 1 ≤ m ∧ m ≤ 12 ∧
    (y - 1970) * 12 + (m - 1) = monthOf ((ts + pgToUnixUsecs) / usecsPerDay)

/-! ### Buckets of time -/

theorem bucketAt_mono {monthOf : ℤ → ℤ} {kind : TemporalKind} (hmono : Monotone monthOf)
    {perHour t t' : ℤ} (hpos : 0 < perHour)
    (h : t ≤ t') :
    bucketAt monthOf kind perHour t ≤ bucketAt monthOf kind perHour t' := by
  have hday : t / (24 * perHour) ≤ t' / (24 * perHour) := Int.ediv_le_ediv (by omega) h
  unfold bucketAt
  cases kind with
  | year => exact Int.ediv_le_ediv (by decide) (hmono hday)
  | month => exact hmono hday
  | day => exact hday
  | hour => exact Int.ediv_le_ediv hpos h

/-- An instant in nanoseconds lies in the bucket of its microseconds. -/
theorem bucketAt_ns {monthOf : ℤ → ℤ} {kind : TemporalKind} (ns : ℤ) :
    bucketAt monthOf kind nsPerHour ns = bucketAt monthOf kind usecsPerHour (ns / 1000) := by
  have hday : ns / (24 * nsPerHour) = ns / 1000 / (24 * usecsPerHour) := by
    unfold nsPerHour usecsPerHour
    omega
  have hhour : ns / nsPerHour = ns / 1000 / usecsPerHour := by
    unfold nsPerHour usecsPerHour
    omega
  unfold bucketAt
  rw [hday, hhour]

theorem iceFloordiv_eq {a b : ℤ} (hb : 0 < b) : iceFloordiv a b = a / b := by
  unfold iceFloordiv
  have hneg : decide (b < 0) = false := by simp [hb.le]
  rw [hneg]
  by_cases ha : 0 ≤ a
  · have hfalse : decide (a < 0) = false := by simp [ha]
    rw [hfalse, if_neg (by simp), tdiv_eq_ediv_of_nonneg ha]
  · have htrue : decide (a < 0) = true := by simpa using ha
    rw [htrue, tdiv_eq_ediv]
    have hsign : b.sign = 1 := sign_eq_one_of_pos hb
    by_cases hdvd : b ∣ a
    · have htmod : a.tmod b = 0 := tmod_eq_zero_of_dvd hdvd
      rw [if_neg (by simp [htmod]), if_pos (.inr hdvd), add_zero]
    · have htmod : a.tmod b ≠ 0 := fun h => hdvd (dvd_of_tmod_eq_zero h)
      rw [if_pos ⟨htmod, by simp⟩, if_neg (by simp [ha, hdvd]), hsign, Int.add_sub_cancel]

theorem wrapInt64_eq {v : ℤ} (hlow : -2 ^ 63 ≤ v) (hhigh : v < 2 ^ 63) : wrapInt64 v = v := by
  unfold wrapInt64
  exact bmod_eq_of_le (by omega) (by omega)

/-- The bucket of a constant, as long as its microseconds since 1970 have 64 bits. -/
theorem iceTemporalBucket_eq {monthOf : ℤ → ℤ} {kind : TemporalKind}
    {timestamp2tm : ℤ → Option (ℤ × ℤ)} (hcal : Calendar timestamp2tm monthOf) {ts b : ℤ}
    (hlow : -2 ^ 63 ≤ ts)
    (hhigh : kind = .day ∨ kind = .hour → ts + pgToUnixUsecs < 2 ^ 63)
    (h : iceTemporalBucket timestamp2tm kind ts = some b) :
    b = bucketAt monthOf kind usecsPerHour (ts + pgToUnixUsecs) := by
  have hoff : (0 : ℤ) ≤ pgToUnixUsecs := by decide
  have hday : (24 * usecsPerHour : ℤ) = usecsPerDay := by decide
  unfold iceTemporalBucket at h
  unfold bucketAt
  rw [hday]
  split_ifs at h
  cases kind with
  | year =>
    obtain ⟨⟨y, m⟩, htm, rfl⟩ := map_eq_some_iff.mp h
    obtain ⟨h1, h12, heq⟩ := hcal.month ts y m htm
    dsimp only
    rw [← heq]
    omega
  | month =>
    obtain ⟨⟨y, m⟩, htm, rfl⟩ := map_eq_some_iff.mp h
    exact (hcal.month ts y m htm).2.2
  | day =>
    cases h
    rw [wrapInt64_eq (by omega) (hhigh (.inl rfl)), iceFloordiv_eq (by decide)]
  | hour =>
    cases h
    rw [wrapInt64_eq (by omega) (hhigh (.inr rfl)), iceFloordiv_eq (by decide)]

theorem iceBucketOf_eq (bytes : List Byte) (n : ℤ) : iceBucketOf bytes n = bucketOf bytes n := by
  unfold iceBucketOf bucketOf iceMurmur332
  rw [Murmur3.indexed_eq_hash, BitVec.toNat_and]
  congr 2
  exact Nat.and_two_pow_sub_one_eq_mod _ 31

theorem serializes_of_boundInt {bytes : List Byte} {n : ℤ} (h : iceFdwBoundInt bytes = some n) :
    Serializes n bytes := by
  -- a number of some bytes has these bytes
  have hsigned : ∀ w, 1 ≤ w → bytes.length = w → signedOf w bytes = n →
      bytes = leBytes w (n % 256 ^ w).toNat := by
    intro w hw hlen hn
    have hmod : n % 256 ^ w = (leNat bytes : ℤ) := by
      have hlt := leNat_lt bytes
      rw [hlen] at hlt
      have hpow : (2 : ℕ) ^ (8 * w) = 256 ^ w := two_pow_eight_mul w
      have hcast : ((256 ^ w : ℕ) : ℤ) = 256 ^ w := by push_cast; rfl
      rw [← hn, signedOf, BitVec.toInt_ofNat', hpow, ← hcast, bmod_emod]
      exact emod_eq_of_lt (by omega) (by exact_mod_cast hlt)
    rw [hmod, toNat_natCast, ← hlen, leBytes_leNat]
  unfold iceFdwBoundInt at h
  split at h
  · next hlen =>
    have hlt := leNat_lt bytes
    rw [hlen] at hlt
    cases h
    refine .inl ⟨?_, by omega, by omega⟩
    rw [toNat_natCast, ← hlen, leBytes_leNat]
  · split at h
    · next hlen =>
      obtain rfl := Option.some.inj h
      have hrange := @signedOf_range 4 (by decide) bytes
      exact .inr (.inl ⟨hsigned 4 (by decide) hlen rfl, by omega, by omega⟩)
    · split_ifs at h with hlen
      obtain rfl := Option.some.inj h
      have hrange := @signedOf_range 8 (by decide) bytes
      exact .inr (.inr ⟨hsigned 8 (by decide) hlen rfl, by omega, by omega⟩)

/-! ### Values that are returned -/

variable {coercionFunction : TypeOid → Bool} {coerceFn : TypeOid → ℤ → Datum → Option Datum}
  {session : Session}
  {att : Att} {id : ℕ} {info : PqLeafInfo} {imp : ImpLeaf} {x : Stored} {d : Datum}

/-- The plan of a column that is bound by its field id. -/
theorem plan_of_bindFieldId (h : bindFieldId coercionFunction att id info = .ok imp) :
    imp.plan = pqPlanSetTypmod coercionFunction
      (pqPlanBindSchema att.typid info.sc.physType info.sc) att.typmod info.sc ∧
      (pqWantPhysFor att.typid info.sc = some info.sc.physType ∨
        pqFieldIdWidens info.sc att.typid = true) := by
  unfold bindFieldId at h
  split at h
  · cases h
  · split at h
    · cases h
    · next want hwant =>
      dsimp only at h
      generalize hw : (if pqFieldIdWidens info.sc att.typid =
        true then info.sc.physType else want) = want' at h
      split_ifs at h with hphys
      rw [not_not] at hphys
      cases h
      refine ⟨by rw [hphys], ?_⟩
      by_cases hwiden : pqFieldIdWidens info.sc att.typid = true
      · exact .inr hwiden
      · rw [if_neg hwiden] at hw
        rw [hwant, hw, hphys]
        exact .inl rfl

/-- Without a typmod that changes values, nothing is coerced. -/
theorem take_of_bindFieldId (h : bindFieldId coercionFunction att id info = .ok imp)
    (hno : iceFdwTypmodChangesValues att = false ∨ coercionFunction att.typid = false) {d' : Datum}
    (htake : pqTakeValue coerceFn imp.plan d = some d') : d' = d := by
  obtain ⟨hplan, -⟩ := plan_of_bindFieldId h
  have hcoerce : imp.plan.coerce = false := by
    rw [hplan]
    simp only [pqPlanSetTypmod, pqPlanBindSchema, Bool.and_eq_false_iff, Bool.not_eq_false']
    refine hno.imp (fun htypmod => ?_) fun hcf => hcf
    unfold iceFdwTypmodChangesValues at htypmod
    unfold typmodChangesNothing
    split at htypmod
    · next hneg => simp [hneg]
    · split_ifs at htypmod with hfull
      simp [hfull.1, hfull.2]
  rw [pqTakeValue, hcoerce, if_neg Bool.false_ne_true] at htake
  exact (Option.some.inj htake).symm

section Plan

variable (h : bindFieldId coercionFunction att id info = .ok imp)

include h

theorem phys_of_bind : imp.plan.expectPhys = info.sc.physType := by
  rw [(plan_of_bindFieldId h).1]
  rfl

theorem typid_of_bind : imp.plan.typid = att.typid := by
  rw [(plan_of_bindFieldId h).1]
  rfl

theorem decimal_of_bind (hnum : att.typid ≠ .numeric) : imp.plan.isDecimal = false := by
  rw [(plan_of_bindFieldId h).1]
  simp [pqPlanSetTypmod, pqPlanBindSchema, hnum]

theorem unsigned_of_bind : imp.plan.isUnsigned =
    (info.sc.isUnsigned && decide (info.sc.physType = .int32 ∨ info.sc.physType = .int64)) := by
  rw [(plan_of_bindFieldId h).1]
  rfl

/-- The range of a column of integers. -/
def intRange (typid : TypeOid) (n : ℤ) : Prop :=
  match typid with
  | .int2 => -2 ^ 15 ≤ n ∧ n < 2 ^ 15
  | .int4 => -2 ^ 31 ≤ n ∧ n < 2 ^ 31
  | _ => -2 ^ 63 ≤ n ∧ n < 2 ^ 63

theorem phys_of_int (htype : isIntType att.typid = true) :
    info.sc.physType = .int32 ∨ att.typid = .int8 ∧ info.sc.physType = .int64 := by
  have htype' := of_decide_eq_true htype
  rcases (plan_of_bindFieldId h).2 with hwant | hwiden
  · unfold pqWantPhysFor pqWantPhys at hwant
    rcases htype' with ht | ht | ht <;> rw [ht] at hwant ⊢
    · simp_all
    · simp_all
    · by_cases hun : info.sc.isUnsigned = true ∧ info.sc.physType = .int32
      · exact .inl hun.2
      · refine .inr ⟨rfl, ?_⟩
        simp_all
  · unfold pqFieldIdWidens at hwiden
    split at hwiden
    · next hw => exact .inl hw.2
    · have hf := of_decide_eq_true hwiden
      rcases htype' with ht | ht | ht <;> rw [ht] at hf <;> exact absurd hf.1 (by decide)

/-- An integer is returned as it is stored. -/
theorem read_int (htype : isIntType att.typid = true)
    (hread : readStored session imp.plan x = some d) :
    ∃ n, storedInt info.sc x = some n ∧ d = .int n ∧ intRange att.typid n := by
  have hphys := phys_of_bind h
  have htypid := typid_of_bind h
  have hun := unsigned_of_bind h
  have htype' := of_decide_eq_true htype
  have hdec := decimal_of_bind h (by rcases htype' with ht | ht | ht <;> rw [ht] <;> decide)
  cases x with
  | bit b =>
    rw [readStored, hphys] at hread
    rcases phys_of_int h htype with hp | ⟨-, hp⟩ <;> simp [hp] at hread
  | plain bytes =>
    obtain ⟨r, hr, rfl⟩ := map_eq_some_iff.mp hread
    rcases phys_of_int h htype with hp | ⟨ht, hp⟩
    · rw [hp] at hphys hun
      have hplain := plain_int32 hphys hr
      have hrange := @signedOf_range 4 (by decide) (bytes.take 4)
      generalize hv : signedOf 4 (bytes.take 4) = v at hplain hrange
      simp only [storedInt, hp, hv]
      unfold plainInt32 at hplain
      simp only [hdec, hun, htypid, Bool.and_true, decide_true, true_or] at hplain
      unfold intRange
      rcases htype' with ht | ht | ht <;> rw [ht] at hplain ⊢ <;> cases hs : info.sc.isUnsigned <;>
        simp [hs] at hplain ⊢ <;> grind
    · rw [hp] at hphys hun
      have hplain := plain_int64 hphys hr
      have hrange := @signedOf_range 8 (by decide) (bytes.take 8)
      generalize hv : signedOf 8 (bytes.take 8) = v at hplain hrange
      simp only [storedInt, hp, hv]
      unfold plainInt64 at hplain
      simp only [hdec, hun, htypid, ht, Bool.and_true, decide_true, or_true] at hplain
      unfold intRange
      rw [ht]
      cases hs : info.sc.isUnsigned <;> simp [hs] at hplain ⊢ <;> grind

/-- A boolean is returned as it is stored. -/
theorem read_bool (htype : att.typid = .bool) (hread : readStored session imp.plan x = some d) :
    ∃ b, storedInt info.sc x = some (if b then 1 else 0) ∧ d = .bool b := by
  have hphys := phys_of_bind h
  have hbool : info.sc.physType = .boolean := by
    rcases (plan_of_bindFieldId h).2 with hwant | hwiden
    · rw [htype] at hwant
      simpa [pqWantPhysFor, pqWantPhys] using hwant.symm
    · simp [pqFieldIdWidens, htype] at hwiden
  rw [hbool] at hphys
  cases x with
  | bit b =>
    rw [readStored, hphys, if_pos rfl] at hread
    cases hread
    exact ⟨b, rfl, rfl⟩
  | plain bytes => simp [readStored, plainValueToDatum, hphys] at hread

/-- A text is returned as it is stored. -/
theorem read_text (htype : att.typid = .text ∨ att.typid = .varchar)
    (hread : readStored session imp.plan x = some d) :
    ∃ bytes, storedBytes info.sc x = some bytes ∧ d = .text bytes := by
  have hphys := phys_of_bind h
  have htypid := typid_of_bind h
  have hdec := decimal_of_bind h (by rcases htype with ht | ht <;> rw [ht] <;> decide)
  have hbytes : info.sc.physType = .byteArray := by
    rcases (plan_of_bindFieldId h).2 with hwant | hwiden
    · rcases htype with ht | ht <;> rw [ht] at hwant <;>
        simpa [pqWantPhysFor, pqWantPhys] using hwant.symm
    · rcases htype with ht | ht <;> simp [pqFieldIdWidens, ht] at hwiden
  rw [hbytes] at hphys
  cases x with
  | bit b => simp [readStored, hphys] at hread
  | plain bytes =>
    simp only [readStored, plainValueToDatum, hphys, map_eq_some_iff] at hread
    obtain ⟨r, hr, rfl⟩ := hread
    obtain ⟨len, hlen, hr⟩ := bind_eq_some_iff.mp hr
    obtain ⟨b, hb, hr⟩ := bind_eq_some_iff.mp hr
    obtain ⟨d, hd, rfl⟩ := map_eq_some_iff.mp hr
    refine ⟨b.1, by simp [storedBytes, hbytes, hlen, hb], ?_⟩
    have hnot : imp.plan.typid ≠ .bytea := by
      rw [htypid]; rcases htype with ht | ht <;> rw [ht] <;> decide
    rw [binaryDatum, hdec, if_neg Bool.false_ne_true, if_neg hnot] at hd
    split_ifs at hd
    exact (Option.some.inj hd).symm

/-- A date is moved to PostgreSQL's epoch. -/
theorem read_date (htype : att.typid = .date) (hread : readStored session imp.plan x = some d) :
    ∃ days, instantNs info.sc x = some (days * (24 * nsPerHour)) ∧ d = .int (days - pgToUnixDays) ∧
      isValidDate (days - pgToUnixDays) = true := by
  have hphys := phys_of_bind h
  have htypid := typid_of_bind h
  have hdec := decimal_of_bind h (by rw [htype]; decide)
  have hint : info.sc.physType = .int32 := by
    rcases (plan_of_bindFieldId h).2 with hwant | hwiden
    · rw [htype] at hwant
      simpa [pqWantPhysFor, pqWantPhys] using hwant.symm
    · simp [pqFieldIdWidens, htype] at hwiden
  rw [hint] at hphys
  cases x with
  | bit b => simp [readStored, hphys] at hread
  | plain bytes =>
    obtain ⟨r, hr, rfl⟩ := map_eq_some_iff.mp hread
    have hplain := plain_int32 hphys hr
    refine ⟨signedOf 4 (bytes.take 4), by simp [instantNs, hint], ?_⟩
    rw [htype] at htypid
    unfold plainInt32 at hplain
    simp only [hdec, htypid, Bool.false_eq_true, if_false, reduceCtorEq, and_false, or_self,
      false_and, dateDatum] at hplain
    split_ifs at hplain with hfits
    exact ⟨(Option.some.inj hplain).symm, (Bool.and_eq_true _ _ ▸ hfits).2⟩

theorem phys_of_timestamp (htype : att.typid = .timestamp ∨ att.typid = .timestamptz) :
    info.sc.physType = .int64 ∨ info.sc.physType = .int96 := by
  rcases (plan_of_bindFieldId h).2 with hwant | hwiden
  · by_cases h96 : info.sc.physType = .int96
    · exact .inr h96
    · refine .inl ?_
      rcases htype with ht | ht <;> rw [ht] at hwant <;>
        simpa [pqWantPhysFor, pqWantPhys, h96] using hwant.symm
  · rcases htype with ht | ht <;> simp [pqFieldIdWidens, ht] at hwiden

/-- A timestamp of the column's kind is moved to PostgreSQL's epoch and cut to microseconds; a
number of nanoseconds before 1970 goes up. -/
theorem read_timestamp (htype : att.typid = .timestamp ∨ att.typid = .timestamptz)
    (hshift : tsShiftOf att.typid info.sc = .none)
    (hread : readStored session imp.plan x = some d) :
    ∃ ns t, instantNs info.sc x = some ns ∧ d = .int t ∧ isValidTimestamp t = true ∧
      (t + pgToUnixUsecs = ns / 1000 ∨ t + pgToUnixUsecs = ns / 1000 + 1 ∧ ns < 0 ∧
        info.sc.timeUnit = .nanos) := by
  have hphys := phys_of_bind h
  have htypid := typid_of_bind h
  have hdec := decimal_of_bind h (by rcases htype with ht | ht <;> rw [ht] <;> decide)
  have hplan := (plan_of_bindFieldId h).1
  have hunit : imp.plan.timeUnit = info.sc.timeUnit := by rw [hplan]; rfl
  have hnoshift : imp.plan.tsShift = .none := by rw [hplan]; exact hshift
  have hint := phys_of_timestamp h htype
  have hvalid : ∀ t, timestampShifted session imp.plan.tsShift t = some d → d = .int t ∧
    isValidTimestamp t = true := by
    intro t ht
    rw [timestampShifted, hnoshift] at ht
    cases hv : isValidTimestamp t with
    | false => simp [hv] at ht
    | true =>
      simp only [hv, Bool.not_true, Bool.false_eq_true, if_false, if_true, Option.some.injEq] at ht
      exact ⟨ht.symm, rfl⟩
  cases x with
  | bit b => rcases hint with hp | hp <;> simp [readStored, hphys, hp] at hread
  | plain bytes =>
    obtain ⟨r, hr, rfl⟩ := map_eq_some_iff.mp hread
    rcases hint with hp | hp
    · rw [hp] at hphys
      have hplain := plain_int64 hphys hr
      simp only [instantNs, hp, Option.some.injEq, exists_and_left, exists_eq_left']
      generalize signedOf 8 (bytes.take 8) = v at hplain ⊢
      have hts : timestampDatum session imp.plan v = some r.1 := by
        rw [plainInt64, hdec, htypid] at hplain
        rcases htype with ht | ht <;> rw [ht] at hplain <;> simpa using hplain
      unfold timestampDatum at hts
      rw [hunit] at hts
      cases hscale : pqScaleToUsecs info.sc.timeUnit v with
      | none => simp [hscale] at hts
      | some us =>
        simp only [hscale] at hts
        split_ifs at hts
        obtain ⟨hd, hval⟩ := hvalid _ hts
        refine ⟨us - pgToUnixUsecs, hd, hval, ?_⟩
        rw [sub_add_cancel]
        unfold pqScaleToUsecs at hscale
        cases hu : info.sc.timeUnit with
        | millis =>
          rw [hu] at hscale
          dsimp only at hscale ⊢
          split at hscale <;> cases hscale
          exact .inl (by omega)
        | nanos =>
          rw [hu] at hscale
          cases hscale
          dsimp only
          -- the division is toward zero
          have htdiv := tdiv_eq_ediv (a := v) (b := 1000)
          have hsign : Int.sign 1000 = 1 := rfl
          rw [hsign] at htdiv
          split at htdiv
          · exact .inl (by omega)
          · exact .inr ⟨by omega, by omega, rfl⟩
        | micros | none =>
          rw [hu] at hscale
          cases hscale
          dsimp only
          exact .inl (by omega)
    · rw [hp] at hphys
      simp only [plainValueToDatum, hphys] at hr
      obtain ⟨b, hb, hr⟩ := bind_eq_some_iff.mp hr
      obtain ⟨d, hd, rfl⟩ := map_eq_some_iff.mp hr
      have htake := takeBytes_eq hb
      rw [htake] at hd
      simp only [instantNs, hp, Option.some.injEq, exists_and_left, exists_eq_left']
      generalize signedOf 8 ((bytes.take 12).take 8) = nanos at hd ⊢
      generalize signedOf 4 ((bytes.take 12).drop 8) = jday at hd ⊢
      unfold plainInt96 at hd
      dsimp only at hd
      split at hd
      · cases hd
      · next hnanos =>
        split_ifs at hd
        obtain ⟨hd', hval⟩ := hvalid _ hd
        refine ⟨_, hd', hval, .inl ?_⟩
        unfold pgToUnixUsecs pgToUnixDays usecsPerDay nsPerHour
        omega

end Plan

end PgColumnar.Iceberg
