import Mathlib.Algebra.Group.Nat.Defs
import Mathlib.Logic.Basic
import Mathlib.Tactic.SplitIfs

/-!
# Binding a column to a Parquet leaf

A scalar column of a foreign table is bound to a leaf of the file
(`columnar_parquet_reader.c`): the PostgreSQL type names the physical type that the leaf
must have, and the leaf's annotations go into the plan by which its values are read.

Whether a type has a length coercion function is a parameter.

## Main definitions

* `PqColPlan`, `pqPlanBindSchema` — how a column reads a leaf.
-/

/-- `PQ_TU_*` -/
inductive PgColumnar.TimeUnit where
  | none
  | millis
  | micros
  | nanos
  deriving DecidableEq

namespace PgColumnar.Parquet

inductive PhysType where
  | boolean
  | int32
  | int64
  | int96
  | float
  | double
  | byteArray
  | fixedLenByteArray
  deriving DecidableEq

inductive TypeOid where
  | bool
  | int2
  | int4
  | int8
  | date
  | time
  | timestamp
  | timestamptz
  | float4
  | float8
  | text
  | varchar
  | bytea
  | uuid
  | numeric
  | other (oid : ℕ)
  deriving DecidableEq

/-- `PQ_CT_DECIMAL` -/
def ctDecimal : ℤ := 5

/-- `PqSchemaCol`, as far as a plan is made from it. -/
structure PqSchemaCol where
  physType : PhysType
  /-- -1 if there is none -/
  convertedType : ℤ
  timeUnit : TimeUnit
  isTimestamp : Bool
  adjustedUtc : Bool
  isUnsigned : Bool
  typeLength : ℤ
  scale : ℤ
  precision : ℤ

structure PqLeafInfo where
  sc : PqSchemaCol
  maxDef : ℕ
  maxRep : ℕ

/-- `PQ_TS_*` -/
inductive TsShift where
  | none
  | wallToInstant
  | instantToWall
  deriving DecidableEq

structure PqColPlan where
  typid : TypeOid
  expectPhys : PhysType
  timeUnit : TimeUnit
  typeLength : ℤ
  decScale : ℤ
  isDecimal : Bool
  isUnsigned : Bool
  tsShift : TsShift
  typmod : ℤ
  coerce : Bool

/-- `pq_decimal_bounds_ok` -/
def pqDecimalBoundsOk (sc : PqSchemaCol) : Bool :=
  decide (1 ≤ sc.precision ∧ sc.precision ≤ 38 ∧ 0 ≤ sc.scale ∧ sc.scale ≤ sc.precision)

/-- `pq_want_phys`; `none` for a type that is not supported. -/
def pqWantPhys : TypeOid → Option PhysType
  | .int2 | .int4 | .date => some .int32
  | .int8 | .timestamp | .timestamptz | .time => some .int64
  | .float4 => some .float
  | .float8 => some .double
  | .bool => some .boolean
  | .text | .varchar | .bytea => some .byteArray
  | .uuid | .numeric | .other _ => none

/-- `UUID_LEN` -/
def uuidLen : ℤ := 16

/-- `pq_want_phys_for`; a `uuid` and a binary of another width match no physical type. -/
def pqWantPhysFor (typid : TypeOid) (sc : PqSchemaCol) : Option PhysType :=
  if typid = .time ∧ sc.timeUnit = .millis ∧ sc.isTimestamp = false then some .int32
  else if (typid = .timestamptz ∨ typid = .timestamp) ∧ sc.physType = .int96 then some .int96
  else if sc.isUnsigned = true ∧ typid = .int8 ∧ sc.physType = .int32 then some .int32
  else if sc.isUnsigned = true ∧ typid = .numeric ∧ sc.physType = .int64 then some .int64
  else if typid = .uuid then
    if sc.physType = .fixedLenByteArray ∧ sc.typeLength ≠ uuidLen then none
    else some .fixedLenByteArray
  else if typid = .bytea ∧ sc.physType = .fixedLenByteArray then some .fixedLenByteArray
  else if typid = .numeric ∧ sc.convertedType = ctDecimal ∧ pqDecimalBoundsOk sc = true ∧
      (sc.physType = .fixedLenByteArray ∨ sc.physType = .byteArray ∨ sc.physType = .int32 ∨
        sc.physType = .int64) then some sc.physType
  else pqWantPhys typid

/-- The shift of `pq_plan_bind_schema`: the leaf and the column are of different kinds. -/
def tsShiftOf (typid : TypeOid) (sc : PqSchemaCol) : TsShift :=
  if sc.isTimestamp = true ∧ sc.adjustedUtc = false ∧ typid = .timestamptz then .wallToInstant
  else if sc.isTimestamp = true ∧ sc.adjustedUtc = true ∧ typid = .timestamp then .instantToWall
  else if sc.physType = .int96 ∧ typid = .timestamp then .instantToWall
  else .none

/-- `pq_plan_bind_schema` -/
def pqPlanBindSchema (typid : TypeOid) (want : PhysType) (sc : PqSchemaCol) : PqColPlan :=
  { sc with
    typid := typid
    expectPhys := want
    decScale := sc.scale
    isDecimal := decide (typid = .numeric ∧ sc.convertedType = ctDecimal)
    isUnsigned := sc.isUnsigned && decide (sc.physType = .int32 ∨ sc.physType = .int64)
    tsShift := tsShiftOf typid sc
    typmod := -1
    coerce := false }

/-- `VARHDRSZ` -/
def varhdrsz : ℤ := 4

/-- `MAX_TIMESTAMP_PRECISION` -/
def maxTimestampPrecision : ℤ := 6

/-- The declared precision and scale, from the typmod of a `numeric`. -/
def declaredPrecision (typmod : ℤ) : ℕ := (typmod - varhdrsz).toNat / 2 ^ 16 % 2 ^ 16

def declaredScale (typmod : ℤ) : ℤ := (((typmod - varhdrsz).toNat % 2 ^ 11) ^^^ 1024 : ℕ) - 1024

/-- The cases in which `pq_plan_set_typmod` finds that no value can change. -/
def typmodChangesNothing (plan : PqColPlan) (typmod : ℤ) (sc : PqSchemaCol) : Bool :=
  decide (typmod < 0) ||
  (plan.isDecimal && pqDecimalBoundsOk sc && decide (varhdrsz ≤ typmod) &&
    decide (sc.scale = declaredScale typmod ∧ sc.precision ≤ declaredPrecision typmod)) ||
  (decide (plan.typid = .timestamp ∨ plan.typid = .timestamptz ∨ plan.typid = .time) &&
    decide (maxTimestampPrecision ≤ typmod))

/-- `pq_plan_set_typmod` -/
def pqPlanSetTypmod (coercionFunction : TypeOid → Bool) (plan : PqColPlan) (typmod : ℤ)
    (sc : PqSchemaCol) : PqColPlan :=
  { plan with
    typmod := typmod
    coerce := !typmodChangesNothing plan typmod sc && coercionFunction plan.typid }

/-- The scalar branch of `build_imp_targets`. -/
def bindScalar (coercionFunction : TypeOid → Bool) (typid : TypeOid) (typmod : ℤ)
    (leaf : PqLeafInfo) :
    Option PqColPlan :=
  match pqWantPhysFor typid leaf.sc with
  | none => none
  | some want =>
    if leaf.maxRep ≠ 0 then none
    else if leaf.sc.physType ≠ want then none
    else some (pqPlanSetTypmod coercionFunction
      (pqPlanBindSchema typid want leaf.sc) typmod leaf.sc)

/-- What a scalar's plan says of its leaf. -/
structure BoundTo (typid : TypeOid) (sc : PqSchemaCol) (plan : PqColPlan) : Prop where
  typid_eq : plan.typid = typid
  phys : plan.expectPhys = sc.physType
  want : pqWantPhysFor typid sc = some sc.physType
  unit : plan.timeUnit = sc.timeUnit
  decimal : plan.isDecimal = decide (typid = .numeric ∧ sc.convertedType = ctDecimal)
  unsigned : plan.isUnsigned =
    (sc.isUnsigned && decide (sc.physType = .int32 ∨ sc.physType = .int64))

theorem boundTo_of_bindScalar {coercionFunction : TypeOid → Bool} {typid : TypeOid} {typmod : ℤ}
    {leaf : PqLeafInfo} {plan : PqColPlan}
    (h : bindScalar coercionFunction typid typmod leaf = some plan) :
    BoundTo typid leaf.sc plan := by
  unfold bindScalar at h
  split at h
  · cases h
  · next want hwant =>
    split at h
    · cases h
    · split_ifs at h with hphys
      rw [not_not] at hphys
      cases h
      exact ⟨rfl, hphys.symm, hphys ▸ hwant, rfl, rfl, rfl⟩

end PgColumnar.Parquet
