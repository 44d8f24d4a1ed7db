import PgColumnar.Iceberg.Deletes
import PgColumnar.Lib.Murmur3

/-!
# Pruning data files

Before it reads a data file, the foreign scan of an Iceberg table asks whether the file's manifest
entry rules out every row (`columnar_iceberg_fdw.c`).  The clauses `column op constant` are compiled
against the bounds of the columns and against the cells of the partition tuple: the bucket, the
interval, the day or the year in which all values of the source column lie.  Clauses over columns
that the file is partitioned by as they are, are evaluated on the tuple itself.

The calendar of PostgreSQL (`timestamp2tm`), its check of encoded text and the catalog of operators
are parameters, and so is the evaluation of a clause.

## Main definitions

* `iceFdwMetricQuals`, `iceFdwBucketQuals`, `iceFdwTruncQuals`, `iceFdwDayQuals` — the clauses
  that a file can be ruled out by.
* `IceFileMeta` — what the manifest says of a file.
-/

namespace PgColumnar.Iceberg

open Bytes Parquet Zone

local instance optionNatBEq : LawfulBEq (Option ℕ) := inferInstance

/-! ### The table -/

/-- `IceTemporalKind` -/
inductive TemporalKind where
  | year
  | month
  | day
  | hour
  deriving DecidableEq

/-- What `atoi` gives. -/
abbrev CInt := { v : ℤ // -2 ^ 31 ≤ v ∧ v < 2 ^ 31 }

/-- The transform of a partition field. -/
inductive Transform where
  | identity
  | bucket (n : CInt)
  | truncate (w : CInt)
  | temporal (kind : TemporalKind)
  | other
  deriving DecidableEq

/-- A field of a partition spec. -/
structure PartField where
  transform : Transform
  sourceId : ℕ

/-- The type of a field of the current schema, as far as the scan looks at it. -/
inductive FieldType where
  | timestamp (tz : Bool)
  | date
  | other
  deriving DecidableEq

/-- A column, with the field of the current schema that has its name; the id is `none` for -1. -/
structure Column where
  att : Att
  fieldId : Option ℕ
  fieldType : FieldType

/-- What the manifest says of a data file; a bound is found by its field id. -/
structure IceFileMeta where
  specId : ℤ
  cells : List PartCell
  lower : List (ℕ × Option (List Byte))
  upper : List (ℕ × Option (List Byte))

/-- The first column that is read by the id. -/
def fieldColumn (cols : List Column) (sourceId : ℕ) : Option ℕ :=
  cols.findIdx? fun c => !c.att.dropped && decide (c.fieldId = some sourceId)

/-- `PgColumnarIcebergIdentityPartMap`: for each field the column, unless the transform is
another. -/
def identityPartMap (fields : List PartField) (cols : List Column) : List (Option ℕ) :=
  fields.map fun f => if f.transform = .identity then fieldColumn cols f.sourceId else none

/-- The fields of one kind: their positions, their columns and what the transform says. -/
def fieldMap {β : Type} (sel : Transform → Option β) (fields : List PartField)
    (cols : List Column) :
    List (ℕ × ℕ × β) :=
  fields.zipIdx.filterMap fun f =>
    (sel f.1.transform).bind fun b => (fieldColumn cols f.1.sourceId).map fun a => (f.2, a, b)

/-- `PgColumnarIcebergBucketMap` -/
def bucketMap : List PartField → List Column → List (ℕ × ℕ × ℤ) :=
  fieldMap fun | .bucket n => if n.1 ≤ 0 then none else some n.1
               | _ => none

/-- `PgColumnarIcebergTruncateMap` -/
def truncateMap : List PartField → List Column → List (ℕ × ℕ × ℤ) :=
  fieldMap fun | .truncate w => if w.1 ≤ 0 then none else some w.1
               | _ => none

/-- `PgColumnarIcebergDayMap` -/
def dayMap : List PartField → List Column → List (ℕ × ℕ × Unit) :=
  fieldMap fun t => if t = .temporal .day then some () else none

/-- `ice_field_timestamp_kind_differs` -/
def timestampKindDiffers (col : Column) : Bool :=
  match col.att.typid, col.fieldType with
  | .timestamp, .timestamp tz => tz
  | .timestamptz, .timestamp tz => !tz
  | _, _ => false

/-- `PgColumnarIcebergTemporalMap` -/
def temporalMap (kind : TemporalKind) (fields : List PartField) (cols : List Column) :
    List (ℕ × ℕ × Unit) :=
  (fieldMap (fun t => if t = .temporal kind then some () else none) fields cols).filter fun m =>
    !(cols[m.2.1]?.any timestampKindDiffers)

/-! ### The clauses -/

/-- A clause of the scan: the attributes it names, whether the collation of its operator is
deterministic, and whether a row satisfies it. -/
structure ScanQual where
  expr : Qual
  attrs : List ℤ
  isVolatile : Bool
  deterministic : Bool
  eval : Row → Bool

/-- The column of an attribute number. -/
def columnAt (cols : List Column) (attno : ℤ) : Option Column :=
  if attno < 1 then none else cols[(attno - 1).toNat]?

/-- A clause that compares a column with a constant, with the column on the left. -/
def varOpConst (cat : Catalog) (q : ScanQual) : Option (ℤ × Const × Strategy) :=
  match q.expr with
  | .other => none
  | .opExpr opno args =>
    match varAndConst args with
    | none => none
    | some (attno, con, varLeft) =>
      if q.isVolatile then none
      else
        match firstInterpretation cat opno with
        | none => none
        | some (st, _) => some (attno, con, if varLeft then st else flipStrategy st)

/-- `ice_fdw_typmod_changes_values` -/
def iceFdwTypmodChangesValues (att : Att) : Bool :=
  if att.typmod < 0 then false
  else if (att.typid = .timestamp ∨ att.typid = .timestamptz ∨ att.typid = .time) ∧
    maxTimestampPrecision ≤ att.typmod then
    false
  else true

/-- `ice_fdw_const_int` -/
def iceFdwConstInt (c : Const) : Option ℤ :=
  if c.constisnull then none
  else
    match c.consttype, c.constvalue with
    | .bool, .bool b => some (if b then 1 else 0)
    | .int2, .int v => some v
    | .int4, .int v => some v
    | .int8, .int v => some v
    | _, _ => none

def isIntType (typid : TypeOid) : Bool := decide (typid = .int2 ∨ typid = .int4 ∨ typid = .int8)

/-- The field id that `PgColumnarIcebergColumnFieldIds` gives a column. -/
def columnFieldId (col : Column) : Option ℕ :=
  if col.att.dropped then none else col.fieldId.filter fun id => decide (0 < id ∧ id ≤ 2 ^ 31 - 1)

structure IceMetricQual where
  fieldid : ℕ
  strategy : Strategy
  constval : ℤ

/-- `ice_fdw_metric_quals` -/
def iceFdwMetricQuals (cat : Catalog) (cols : List Column) (quals : List ScanQual) :
    List IceMetricQual :=
  quals.filterMap fun q =>
    (varOpConst cat q).bind fun (attno, con, st) =>
      (columnAt cols attno).bind fun col =>
        (columnFieldId col).bind fun id =>
          if isIntType col.att.typid = false ∧ col.att.typid ≠ .bool then none
          else (iceFdwConstInt con).map fun c => ⟨id, st, c⟩

/-! ### Buckets -/

/-- `ice_murmur3_32` -/
def iceMurmur332 (data : List Byte) : BitVec 32 := Murmur3.indexed data

/-- `ice_bucket_of` -/
def iceBucketOf (data : List Byte) (n : ℤ) : ℤ :=
    ((iceMurmur332 data &&& 0x7fffffff#32).toNat : ℤ) % n

/-- The eight bytes of a number. -/
def int64Bytes (v : ℤ) : List Byte := leBytes 8 (v % 2 ^ 64).toNat

/-- `ice_fdw_bucket_of_const` -/
def iceFdwBucketOfConst (c : Const) (n : ℤ) : Option ℤ :=
  if c.constisnull then none
  else
    match c.consttype, c.constvalue with
    | .int2, .int v => some (iceBucketOf (int64Bytes v) n)
    | .int4, .int v => some (iceBucketOf (int64Bytes v) n)
    | .int8, .int v => some (iceBucketOf (int64Bytes v) n)
    | .text, .text bytes => some (iceBucketOf bytes n)
    | .varchar, .text bytes => some (iceBucketOf bytes n)
    | _, _ => none

structure IceBucketQual where
  pos : ℕ
  target : ℤ

/-- The column and the constant of an equality that buckets can decide. -/
def bucketClause (cat : Catalog) (cols : List Column) (q : ScanQual) : Option (ℤ × Const) :=
  match q.expr with
  | .other => none
  | .opExpr opno args =>
    match varAndConst args with
    | none => none
    | some (attno, con, _) =>
      if attno < 1 ∨ q.isVolatile then none
      else if (columnAt cols attno).any (fun col => iceFdwTypmodChangesValues col.att) then none
      else if (cat.opInterpretation opno).any (fun o => o.1 = 3) = false then none
      else if q.deterministic then some (attno, con) else none

/-- `ice_fdw_bucket_quals` -/
def iceFdwBucketQuals (cat : Catalog) (cols : List Column) (bmap : List (ℕ × ℕ × ℤ))
    (quals : List ScanQual) :
    List IceBucketQual :=
  quals.flatMap fun q =>
    match bucketClause cat cols q with
    | none => []
    | some (attno, con) => bmap.filterMap fun (pos, a, n) =>
      if (a : ℤ) + 1 ≠ attno then none else (iceFdwBucketOfConst con n).map fun target =>
        ⟨pos, target⟩

/-! ### Intervals -/

structure IceTruncQual where
  pos : ℕ
  w : ℤ
  strategy : Strategy
  constval : ℤ

/-- `ice_fdw_trunc_quals` -/
def iceFdwTruncQuals (cat : Catalog) (cols : List Column) (tmap : List (ℕ × ℕ × ℤ))
    (quals : List ScanQual) :
    List IceTruncQual :=
  quals.flatMap fun q =>
    match varOpConst cat q with
    | none => []
    | some (attno, con, st) =>
      match columnAt cols attno, iceFdwConstInt con with
      | some col, some c =>
        if isIntType col.att.typid = false then []
        else tmap.filterMap fun (pos, a, w) =>
          if (a : ℤ) + 1 ≠ attno then none else some ⟨pos, w, st, c⟩
      | _, _ => []

/-! ### Days, and coarser and finer times -/

structure IceDayQual where
  pos : ℕ
  strategy : Strategy
  dayval : ℤ

/-- The number of a date or of a timestamp. -/
def temporalNumber : Datum → Option ℤ
  | .int v => some v
  | _ => none

/-- `ice_fdw_day_quals` -/
def iceFdwDayQuals (cat : Catalog) (cols : List Column) (dmap : List (ℕ × ℕ × Unit))
    (quals : List ScanQual) :
    List IceDayQual :=
  quals.flatMap fun q =>
    match varOpConst cat q with
    | none => []
    | some (attno, con, st) =>
      match columnAt cols attno, temporalNumber con.constvalue with
      | some col, some d =>
        if col.att.typid ≠ .date then []
        else if con.constisnull = true ∨ con.consttype ≠ .date then []
        else dmap.filterMap fun (pos, a, _) =>
          if (a : ℤ) + 1 ≠ attno then none else some ⟨pos, st, d + pgToUnixDays⟩
      | _, _ => []

/-- `ice_floordiv` -/
def iceFloordiv (a b : ℤ) : ℤ :=
  if a.tmod b ≠ 0 ∧ (decide (a < 0) ≠ decide (b < 0)) then a.tdiv b - 1 else a.tdiv b

/-- A sum of 64 bits. -/
def wrapInt64 (v : ℤ) : ℤ := v.bmod (2 ^ 64)

/-- `USECS_PER_HOUR` -/
def usecsPerHour : ℤ := 3600000000

/-- `TIMESTAMP_NOT_FINITE` -/
def timestampNotFinite (t : ℤ) : Bool := decide (t = -2 ^ 63 ∨ t = 2 ^ 63 - 1)

/-- `DATE_NOT_FINITE` -/
def dateNotFinite (d : ℤ) : Bool := decide (d = -2 ^ 31 ∨ d = 2 ^ 31 - 1)

variable (timestamp2tm : ℤ → Option (ℤ × ℤ))

/-- `ice_temporal_bucket`; `timestamp2tm` gives the year and the month. -/
def iceTemporalBucket (kind : TemporalKind) (ts : ℤ) : Option ℤ :=
  if timestampNotFinite ts then none
  else
    match kind with
    | .year => (timestamp2tm ts).map fun tm => tm.1 - 1970
    | .month => (timestamp2tm ts).map fun tm => (tm.1 - 1970) * 12 + (tm.2 - 1)
    | .day => some (iceFloordiv (wrapInt64 (ts + pgToUnixUsecs)) usecsPerDay)
    | .hour => some (iceFloordiv (wrapInt64 (ts + pgToUnixUsecs)) usecsPerHour)

/-- `ice_temporal_source_ok` -/
def iceTemporalSourceOk (kind : TemporalKind) (typid : TypeOid) : Bool :=
  if typid = .timestamp ∨ typid = .timestamptz then true
  else if typid = .date then decide (kind = .year ∨ kind = .month)
  else false

/-- `ice_const_to_timestamp` -/
def iceConstToTimestamp (typid : TypeOid) (v : ℤ) : Option ℤ :=
  if typid = .timestamp ∨ typid = .timestamptz then if timestampNotFinite v then none else some v
  else if dateNotFinite v then none
  else if (2 ^ 63 - 1) / usecsPerDay < v ∨ v < -((2 ^ 63 - 1) / usecsPerDay) then none
  else some (v * usecsPerDay)

structure IceTemporalQual where
  pos : ℕ
  strategy : Strategy
  bucket : ℤ

/-- The attribute, the strategy and the instant of a clause that buckets of time can decide. -/
def temporalClause (cat : Catalog) (cols : List Column) (kind : TemporalKind) (q : ScanQual) :
    Option (ℤ × Strategy × ℤ) :=
  match varOpConst cat q with
  | none => none
  | some (attno, con, st) =>
    match columnAt cols attno, temporalNumber con.constvalue with
    | some col, some v =>
      if iceTemporalSourceOk kind col.att.typid = false then none
      else if iceFdwTypmodChangesValues col.att then none
      else if con.constisnull = true ∨ con.consttype ≠ col.att.typid then none
      else (iceConstToTimestamp col.att.typid v).map fun ts => (attno, st, ts)
    | _, _ => none

/-- `ice_fdw_temporal_quals` -/
def iceFdwTemporalQuals (cat : Catalog) (cols : List Column) (kind : TemporalKind)
    (tmap : List (ℕ × ℕ × Unit))
    (quals : List ScanQual) : List IceTemporalQual :=
  quals.flatMap fun q =>
    match temporalClause cat cols kind q with
    | none => []
    | some (attno, st, ts) =>
      match iceTemporalBucket timestamp2tm kind ts with
      | none => []
      | some bucket => tmap.filterMap fun (pos, a, _) =>
        if (a : ℤ) + 1 ≠ attno then none else some ⟨pos, st, bucket⟩

/-! ### Partition columns -/

/-- `ice_fdw_type_supported` -/
def iceFdwTypeSupported (typid : TypeOid) : Bool :=
  decide (typid = .text ∨ typid = .varchar) || isIntType typid || decide (typid = .bool)

/-- The mask that `icefdwBeginForeignScan` makes of the identity fields. -/
def partMask (pmap : List (Option ℕ)) (cols : List Column) (a : ℕ) : Bool :=
  decide (some a ∈ pmap) &&
    cols[a]?.any fun col => iceFdwTypeSupported col.att.typid && !iceFdwTypmodChangesValues col.att

/-- `ice_fdw_partition_quals` -/
def iceFdwPartitionQuals (pmap : List (Option ℕ)) (cols : List Column) (quals : List ScanQual) :
    List ScanQual :=
  quals.filter fun q => !q.attrs.isEmpty && !q.isVolatile &&
    q.attrs.all fun attno => decide (1 ≤ attno ∧ attno ≤ cols.length) &&
      partMask pmap cols (attno - 1).toNat

/-- A number cut to a width of bits. -/
def toWidth (bits : ℕ) (v : ℤ) : ℤ := v.bmod (2 ^ bits)

variable (verifyMbstr : List Byte → Bool)

/-- `ice_fdw_cell_datum` -/
def iceFdwCellDatum (c : PartCell) (typid : TypeOid) : Option Datum :=
  if c.comparable = false then none
  else
    match typid with
    | .text | .varchar =>
      if c.isBytes = false then none else if verifyMbstr c.bytes then some (.text c.bytes) else none
    | .int2 => if c.isBytes then none else some (.int (toWidth 16 c.ival))
    | .int4 => if c.isBytes then none else some (.int (toWidth 32 c.ival))
    | .int8 => if c.isBytes then none else some (.int c.ival)
    | .bool => if c.isBytes then none else some (.bool (decide (c.ival ≠ 0)))
    | _ => none

/-- The tuple of the cells; `none` when a cell cannot be converted. -/
def partSlot (cols : List Column) : List (Option ℕ) → List PartCell → Row → Option Row
  | some a :: pmap, c :: cells, row =>
    if c.isnull then partSlot cols pmap cells (row.set a none)
    else
      match (cols[a]?).bind fun col => iceFdwCellDatum verifyMbstr c col.att.typid with
      | none => none
      | some d => partSlot cols pmap cells (row.set a (some d))
  | none :: pmap, _ :: cells, row => partSlot cols pmap cells row
  | _, _, row => some row

/-! ### The test -/

/-- `ice_fdw_find_bound` -/
def iceFdwFindBound (bounds : List (ℕ × Option (List Byte))) (fieldid : ℕ) : Option (List Byte) :=
  (bounds.find? fun b => b.1 = fieldid).bind (·.2)

/-- `ice_fdw_bound_int` -/
def iceFdwBoundInt (bytes : List Byte) : Option ℤ :=
  if bytes.length = 1 then some (leNat bytes)
  else if bytes.length = 4 then some (signedOf 4 bytes)
  else if bytes.length = 8 then some (signedOf 8 bytes)
  else none

/-- `ice_fdw_metric_excludes` -/
def iceFdwMetricExcludes (st : Strategy) (c lo hi : ℤ) : Bool :=
  match st with
  | .equal => decide (c < lo) || decide (hi < c)
  | .less => decide (c ≤ lo)
  | .lessEqual => decide (c < lo)
  | .greater => decide (hi ≤ c)
  | .greaterEqual => decide (hi < c)

/-- `ice_fdw_temporal_excludes` -/
def iceFdwTemporalExcludes (st : Strategy) (b v : ℤ) : Bool :=
  match st with
  | .equal => decide (v ≠ b)
  | .less | .lessEqual => decide (b < v)
  | .greater | .greaterEqual => decide (v < b)

/-- `IceFdwState`, as far as the test reads it. -/
structure IceFdwState where
  cols : List Column
  specid : ℤ
  partAttno : List (Option ℕ)
  partQuals : List ScanQual
  metricQuals : List IceMetricQual
  bucketQuals : List IceBucketQual
  truncQuals : List IceTruncQual
  dayQuals : List IceDayQual
  temporalQuals : List IceTemporalQual

/-- The foreign scan: its columns, the partition specs and the id of the default one, the
clauses. -/
structure IceScan where
  cat : Catalog
  cols : List Column
  specs : List (ℤ × List PartField)
  specid : ℤ
  quals : List ScanQual

/-- The fields of the default spec, none if it has no entry. -/
def IceScan.specFields (scan : IceScan) : List PartField :=
  ((scan.specs.find? fun s => s.1 = scan.specid).map (·.2)).getD []

/-- The state that `icefdwBeginForeignScan` makes. -/
def iceBeginForeignScan (scan : IceScan) : IceFdwState :=
  let fields := scan.specFields
  let pmap := identityPartMap fields scan.cols
  { cols := scan.cols
    specid := scan.specid
    partAttno := pmap
    partQuals := iceFdwPartitionQuals pmap scan.cols scan.quals
    metricQuals := iceFdwMetricQuals scan.cat scan.cols scan.quals
    bucketQuals := iceFdwBucketQuals scan.cat scan.cols (bucketMap fields scan.cols) scan.quals
    truncQuals := iceFdwTruncQuals scan.cat scan.cols (truncateMap fields scan.cols) scan.quals
    dayQuals := iceFdwDayQuals scan.cat scan.cols (dayMap fields scan.cols) scan.quals
    temporalQuals := [TemporalKind.year, .month, .day, .hour].flatMap fun kind =>
      iceFdwTemporalQuals timestamp2tm scan.cat scan.cols kind
        (temporalMap kind fields scan.cols) scan.quals }

/-- The number of a cell that a test uses. -/
def usableCell (file : IceFileMeta) (pos : ℕ) : Option ℤ :=
  file.cells[pos]?.bind fun c => if c.isnull || c.isBytes ||
    !c.comparable then none else some c.ival

def metricExcludes (file : IceFileMeta) (mq : IceMetricQual) : Bool :=
  match (iceFdwFindBound file.lower mq.fieldid).bind iceFdwBoundInt,
      (iceFdwFindBound file.upper mq.fieldid).bind iceFdwBoundInt with
  | some lo, some hi =>
    if hi < lo then false else iceFdwMetricExcludes mq.strategy mq.constval lo hi
  | _, _ => false

def bucketExcludes (file : IceFileMeta) (bq : IceBucketQual) : Bool :=
  (usableCell file bq.pos).any fun v => decide (v ≠ bq.target)

def truncExcludes (file : IceFileMeta) (tq : IceTruncQual) : Bool :=
  (usableCell file tq.pos).any fun v =>
    if 2 ^ 63 - 1 - tq.w < v then false else iceFdwMetricExcludes tq.strategy tq.constval v
      (v + tq.w - 1)

def dayExcludes (file : IceFileMeta) (dq : IceDayQual) : Bool :=
  (usableCell file dq.pos).any fun v => iceFdwMetricExcludes dq.strategy dq.dayval v v

def temporalExcludes (file : IceFileMeta) (tq : IceTemporalQual) : Bool :=
  (usableCell file tq.pos).any fun v => iceFdwTemporalExcludes tq.strategy tq.bucket v

/-- The last part of the test, on the tuple of the cells. -/
def partExcludes (st : IceFdwState) (file : IceFileMeta) : Bool :=
  if st.partQuals = [] ∨ file.specId ≠ st.specid ∨
    file.cells.length ≠ st.partAttno.length then false
  else
    match partSlot verifyMbstr st.cols st.partAttno file.cells
      (List.replicate st.cols.length none) with
    | none => false
    | some row => st.partQuals.any fun q => !q.eval row

/-- `ice_fdw_file_excludes` -/
def iceFdwFileExcludes (st : IceFdwState) (file : IceFileMeta) : Bool :=
  if st.metricQuals.any (metricExcludes file) then true
  else if decide (file.specId = st.specid) && st.bucketQuals.any (bucketExcludes file) then true
  else if decide (file.specId = st.specid) && st.truncQuals.any (truncExcludes file) then true
  else if decide (file.specId = st.specid) && st.dayQuals.any (dayExcludes file) then true
  else if decide (file.specId = st.specid) && st.temporalQuals.any (temporalExcludes file) then true
  else partExcludes verifyMbstr st file

end PgColumnar.Iceberg
