import Mathlib.Data.List.Destutter
import PgColumnar.Iceberg.Read
import PgColumnar.Lib.Buckets

/-!
# The scan of a snapshot

The scan of an Iceberg table (`columnar_iceberg.c`) collects the entries of the current snapshot,
then reads its delete files, then each data file without the rows that were deleted.  Deletion
vectors and position deletes name rows by their ordinals; an equality delete names them by the
values of some columns, so that the data file is read once for these and once for the output.

What a path opens, and what a blob of a Puffin file decodes to, are parameters, as are the hash
functions of the types.

## Main definitions

* `Metadata`, `Store` — the metadata of a table, and its files.
* `scanFile` — the reads of one data file.
-/

namespace PgColumnar.Iceberg

open Bytes Parquet

/-! ### Paths -/

/-- A string without the NUL at its end. -/
abbrev CString := List Byte

def ascii (s : String) : CString := s.toList.map fun c => BitVec.ofNat 8 c.toNat

def lower (b : Byte) : Byte := if 65 ≤ b.toNat ∧ b.toNat ≤ 90 then b + 32 else b

/-- `pg_strcasecmp`, for an equality with a string of ASCII letters -/
def caseEq (a b : CString) : Bool := decide (a.map lower = b.map lower)

/-- `ice_path_tail`: what follows the scheme, and whether the scheme is one of object storage. -/
def icePathTail (path : CString) : CString × Bool :=
  if (ascii "file://").isPrefixOf path then (path.drop 7, false)
  else if caseEq (path.take 6) (ascii "s3a://") ||
    caseEq (path.take 6) (ascii "s3n://") then (path.drop 6, true)
  else if (ascii "s3://").isPrefixOf path then (path.drop 5, true)
  else (path, false)

/-- `ice_path_eq` -/
def icePathEq (a b : CString) : Bool := decide (icePathTail a = icePathTail b)

/-! ### Manifests -/

/-- `PgColumnarAvroPartCell` -/
structure PartCell where
  comparable : Bool
  isnull : Bool
  isBytes : Bool
  ival : ℤ
  bytes : List Byte

/-- `PgColumnarAvroManifestEntry`; `hasSequenceField` tells whether the schema of the entries has a
sequence number at all. -/
structure ManifestEntry where
  content : ℤ
  status : ℤ
  filePath : Option CString
  fileFormat : Option CString
  hasSequenceField : Bool
  sequenceNumber : Option ℤ
  equalityIds : List ℕ
  partCells : List PartCell
  referencedDataFile : Option CString
  contentOffset : Option ℤ
  contentSize : Option ℤ
  recordCount : ℤ

/-- `PgColumnarAvroManifestFile`; `entries` is `none` when the manifest cannot be read. -/
structure ManifestFile where
  content : ℤ
  sequenceNumber : Option ℤ
  partitionSpecId : Option ℤ
  entries : Option (List ManifestEntry)

/-- A partition spec of the metadata, with the number of its fields. -/
structure PartitionSpec where
  specId : ℤ
  fields : Option ℕ

/-- A field of the current schema; the type is `none` unless it is primitive. -/
structure SchemaField where
  id : ℕ
  type : Option String

/-- The metadata; `manifests` is `none` without a current snapshot. -/
structure Metadata where
  formatVersion : ℤ
  specs : List PartitionSpec
  fields : List SchemaField
  nameMapping : NameMapping
  manifests : Option (List ManifestFile)

/-- The files by their recorded paths; `puffin` is what `PgColumnarPuffinReadDeletionVector`
decodes. -/
structure Store where
  file : CString → Option DataFile
  puffin : CString → ℤ → ℤ → CString → Option (List ℕ)

inductive ScanError where
  | read (e : ReadError)
  | cannotOpen (path : CString)
  | manifestContent (content : ℤ)
  | cannotReadManifest
  | entryContent (content : ℤ)
  | entryStatus (status : ℤ)
  | noFilePath
  | noSequenceNumber (path : CString)
  | nullManifestSequence (path : CString)
  | deleteFormat (path : CString)
  | dataFormat (path : CString)
  | nullPosDelete (path : CString)
  | negativePos (path : CString)
  | dvFormatVersion (path : CString)
  | dvNoReference (path : CString)
  | dvNoOffset (path : CString)
  | dvTwice (path : CString)
  | dvCardinality (path : CString)
  | noEqualityIds (path : CString)
  | noPartitionSpecId (path : CString)
  | incomparablePartition (path : CString)
  | specWithoutFields (specId : ℤ)
  | noSuchSpec (specId : ℤ)
  | eqColumnType (id : ℕ)
  | noSuchField (id : ℕ)
  | rowCount (path : CString)

/-- `IceEntry` -/
structure IceEntry where
  filePath : CString
  fileFormat : Option CString
  seq : ℤ
  eqIds : List ℕ
  specId : Option ℤ
  refDataFile : Option CString
  contentOffset : Option ℤ
  contentSize : Option ℤ
  recordCount : ℤ
  partCells : List PartCell

/-- `IceScanCtx`, as far as the walk fills it. -/
structure IceScanCtx where
  data : List IceEntry
  posdel : List IceEntry
  eqdel : List IceEntry

/-- The entry that `ice_scan_cb` makes. -/
def ManifestEntry.toIceEntry (m : ManifestFile) (e : ManifestEntry) (path : CString) (seq : ℤ) :
    IceEntry :=
  ⟨path, e.fileFormat, seq, e.equalityIds, m.partitionSpecId, e.referencedDataFile, e.contentOffset,
    e.contentSize, e.recordCount, e.partCells⟩

/-- `ice_scan_cb` -/
def iceScanCb (c : IceScanCtx) (content : ℤ) (ie : IceEntry) : IceScanCtx :=
  if content = 0 then { c with data := c.data ++ [ie] }
  else if content = 1 then { c with posdel := c.posdel ++ [ie] }
  else { c with eqdel := c.eqdel ++ [ie] }

/-- The sequence number of a live entry. -/
def resolveSeq (m : ManifestFile) (e : ManifestEntry) (path : CString) : Except ScanError ℤ :=
  match e.sequenceNumber with
  | some seq => .ok seq
  | none =>
    if e.hasSequenceField = false then .ok 0
    else if e.status ≠ 1 then .error (.noSequenceNumber path)
    else
      match m.sequenceNumber with
      | none => .error (.nullManifestSequence path)
      | some seq => .ok seq

/-- The loop over the entries of a manifest. -/
def walkEntries (m : ManifestFile) : List ManifestEntry → IceScanCtx → Except ScanError IceScanCtx
  | [], c => .ok c
  | e :: es, c =>
    if e.content < 0 ∨ 2 < e.content then .error (.entryContent e.content)
    else if e.status < 0 ∨ 2 < e.status then .error (.entryStatus e.status)
    else if e.status = 2 then walkEntries m es c
    else
      match e.filePath with
      | none => .error .noFilePath
      | some path =>
        match resolveSeq m e path with
        | .error err => .error err
        | .ok seq => walkEntries m es (iceScanCb c e.content (e.toIceEntry m path seq))

/-- The loop over the manifests. -/
def walkManifests : List ManifestFile → IceScanCtx → Except ScanError IceScanCtx
  | [], c => .ok c
  | m :: ms, c =>
    if m.content ≠ 0 ∧ m.content ≠ 1 then .error (.manifestContent m.content)
    else
      match m.entries with
      | none => .error .cannotReadManifest
      | some es =>
        match walkEntries m es c with
        | .error err => .error err
        | .ok c => walkManifests ms c

/-- `ice_walk_data_files`, for the scan -/
def iceWalkDataFiles (md : Metadata) : Except ScanError IceScanCtx :=
  walkManifests (md.manifests.getD []) ⟨[], [], []⟩

/-! ### Position deletes and deletion vectors -/

variable (coercionFunction : TypeOid → Bool) (coerceFn : TypeOid → ℤ → Datum → Option Datum)

/-- An attribute of a descriptor that the scan makes for itself. -/
def plainAtt (typid : TypeOid) : Att := ⟨false, true, typid, -1⟩

/-- A file that is read for some of its columns, all of which it has to have. -/
def readColumns (st : Store) (path : CString) (cols : List (ℕ × TypeOid)) :
    Except ScanError (List Row) :=
  match st.file path with
  | none => .error (.cannotOpen path)
  | some f =>
    match readParquetByFieldId coercionFunction coerceFn f (cols.map fun c => plainAtt c.2)
      (cols.map (·.1)) with
    | .error e => .error (.read e)
    | .ok rows => .ok rows

structure IcePosDel where
  dpath : CString
  pos : ℤ
  seq : ℤ

/-- `ICE_POSDEL_PATH_ID`, `ICE_POSDEL_POS_ID` -/
def posDelCols : List (ℕ × TypeOid) := [(2147483546, .text), (2147483545, .int8)]

def textToCstring (bytes : List Byte) : CString := bytes.takeWhile (· ≠ 0)

/-- A row of a position-delete file; the columns are of the types `text` and `int8`. -/
def posDelRow (pd : IceEntry) (row : Row) : Except ScanError IcePosDel :=
  match row with
  | [some (.text path), some (.int pos)] =>
    if pos < 0 then .error (.negativePos pd.filePath) else .ok ⟨textToCstring path, pos, pd.seq⟩
  | _ => .error (.nullPosDelete pd.filePath)

def isFormat (name : String) (fileFormat : Option CString) : Bool :=
  match fileFormat with
  | none => false
  | some fmt => caseEq fmt (ascii name)

/-- `ice_read_pos_deletes` -/
def iceReadPosDeletes (st : Store) : List IceEntry → Except ScanError (List IcePosDel)
  | [] => .ok []
  | pd :: pds =>
    if isFormat "PUFFIN" pd.fileFormat then iceReadPosDeletes st pds
    else if pd.fileFormat ≠ none ∧ isFormat "PARQUET" pd.fileFormat =
      false then .error (.deleteFormat pd.filePath)
    else
      match readColumns coercionFunction coerceFn st pd.filePath posDelCols with
      | .error e => .error e
      | .ok rows =>
        match rows.mapM (posDelRow pd) with
        | .error e => .error e
        | .ok dels =>
          match iceReadPosDeletes st pds with
          | .error e => .error e
          | .ok more => .ok (dels ++ more)

structure IceDvDel where
  dpath : CString
  seq : ℤ
  pos : List ℕ

/-- `ice_read_dvs`; `seen` are the data files that have a deletion vector. -/
def iceReadDvs (st : Store) (formatVersion : ℤ) : List CString → List IceEntry →
    Except ScanError (List IceDvDel)
  | _, [] => .ok []
  | seen, pd :: pds =>
    if isFormat "PUFFIN" pd.fileFormat = false then iceReadDvs st formatVersion seen pds
    else if formatVersion < 3 then .error (.dvFormatVersion pd.filePath)
    else
      match pd.refDataFile with
      | none => .error (.dvNoReference pd.filePath)
      | some ref =>
        match pd.contentOffset, pd.contentSize with
        | some offset, some size =>
          if offset < 0 ∨ size ≤ 0 then .error (.dvNoOffset pd.filePath)
          else if seen.any fun p => icePathEq p ref then .error (.dvTwice ref)
          else
            match st.puffin pd.filePath offset size ref with
            | none => .error (.cannotOpen pd.filePath)
            | some pos =>
              if (pos.length : ℤ) ≠ pd.recordCount then .error (.dvCardinality pd.filePath)
              else
                match iceReadDvs st formatVersion (seen ++ [ref]) pds with
                | .error e => .error e
                | .ok more => .ok (⟨ref, pd.seq, pos⟩ :: more)
        | _, _ => .error (.dvNoOffset pd.filePath)

/-! ### Equality deletes -/

/-- `ice_part_cells_equal` -/
def icePartCellsEqual : List PartCell → List PartCell → Bool
  | [], [] => true
  | a :: as, b :: bs =>
    if !a.comparable || !b.comparable then false
    else if a.isnull ≠ b.isnull then false
    else if a.isnull then icePartCellsEqual as bs
    else if a.isBytes ≠ b.isBytes then false
    else if a.isBytes then
      if a.bytes ≠ b.bytes then false else icePartCellsEqual as bs
    else if a.ival ≠ b.ival then false
    else icePartCellsEqual as bs
  | _, _ => false

/-- `ice_part_incomparable` -/
def icePartIncomparable (cells : List PartCell) : Bool := cells.any fun c => !c.comparable

/-- `ice_spec_is_partitioned` -/
def iceSpecIsPartitioned (specs : List PartitionSpec) (specId : ℤ) : Except ScanError Bool :=
  match specs.find? fun s => s.specId = specId with
  | none => .error (.noSuchSpec specId)
  | some s =>
    match s.fields with
    | none => .error (.specWithoutFields specId)
    | some n => .ok (decide (0 < n))

/-- `ice_eq_col_type` -/
def iceEqColType (fields : List SchemaField) (id : ℕ) : Except ScanError TypeOid :=
  match fields.find? fun f => f.id = id with
  | none => .error (.noSuchField id)
  | some f =>
    match f.type with
    | some "int" => .ok .int4
    | some "long" => .ok .int8
    | some "string" => .ok .text
    | some "boolean" => .ok .bool
    | some "date" => .ok .date
    | _ => .error (.eqColumnType id)

structure IceEqRow where
  vals : List (Option Datum)
  hash : BitVec 32

/-- `IceEqDel`; the partition is `none` for a delete of an unpartitioned spec. -/
structure IceEqDel where
  seq : ℤ
  cols : List (ℕ × TypeOid)
  buckets : List (List IceEqRow)
  partition : Option (ℤ × List PartCell)

/-- `ICE_EQ_NULL_HASH` -/
def iceEqNullHash : BitVec 32 := 0x9e3779b9

/-- `hash_combine` -/
def hashCombine (a b : BitVec 32) : BitVec 32 := a ^^^ (b + 0x9e3779b9 + (a <<< 6) + (a >>> 2))

variable (hashProc : TypeOid → Datum → BitVec 32)

/-- `ice_eq_hash` -/
def iceEqHash (cols : List (ℕ × TypeOid)) (vals : List (Option Datum)) : BitVec 32 :=
  (cols.zip vals).foldl (fun h r => hashCombine h (r.2.elim iceEqNullHash (hashProc r.1.2))) 0

/-- The doubling of the number of buckets, from `n` on. -/
def growBuckets (nrows : ℕ) : ℕ → ℕ → ℕ
  | 0, n => n
  | fuel + 1, n => if n < nrows ∧ n < 2 ^ 30 then growBuckets nrows fuel (2 * n) else n

/-- A row goes to the head of its chain. -/
def chain (buckets : List (List IceEqRow)) (row : IceEqRow) : List (List IceEqRow) :=
  buckets.modify (row.hash.toNat &&& (buckets.length - 1)) (row :: ·)

/-- The hash table; from 16 on, no more than 26 doublings are made. -/
def buildBuckets (rows : List IceEqRow) : List (List IceEqRow) :=
  if rows = [] then []
  else rows.foldl chain (List.replicate (growBuckets rows.length 26 16) [])

/-- The partition that an equality delete is confined to. -/
def partitionOf (md : Metadata) (ed : IceEntry) : Except ScanError (Option (ℤ × List PartCell)) :=
  match ed.specId with
  | none => .error (.noPartitionSpecId ed.filePath)
  | some specId =>
    match iceSpecIsPartitioned md.specs specId with
    | .error e => .error e
    | .ok false => .ok none
    | .ok true =>
      if ed.partCells = [] ∨ icePartIncomparable ed.partCells then .error
        (.incomparablePartition ed.filePath)
      else .ok (some (specId, ed.partCells))

/-- One file of `ice_read_eq_deletes`. -/
def readEqDelete (st : Store) (md : Metadata) (ed : IceEntry) : Except ScanError IceEqDel :=
  if ed.eqIds = [] then .error (.noEqualityIds ed.filePath)
  else if ed.fileFormat ≠ none ∧ isFormat "PARQUET" ed.fileFormat =
    false then .error (.deleteFormat ed.filePath)
  else
    match partitionOf md ed with
    | .error e => .error e
    | .ok partition =>
      match ed.eqIds.mapM (iceEqColType md.fields) with
      | .error e => .error e
      | .ok types =>
        match readColumns coercionFunction coerceFn st ed.filePath (ed.eqIds.zip types) with
        | .error e => .error e
        | .ok rows => .ok ⟨ed.seq, ed.eqIds.zip types,
            buildBuckets (rows.map fun vals =>
              ⟨vals, iceEqHash hashProc (ed.eqIds.zip types) vals⟩), partition⟩

/-- `ice_read_eq_deletes`; without a data file there is no least sequence number. -/
def iceReadEqDeletes (st : Store) (md : Metadata) (minDataSeq : Option ℤ) :
    List IceEntry → Except ScanError (List IceEqDel)
  | [] => .ok []
  | ed :: eds =>
    if minDataSeq.all (ed.seq ≤ ·) then iceReadEqDeletes st md minDataSeq eds
    else
      match readEqDelete coercionFunction coerceFn hashProc st md ed with
      | .error e => .error e
      | .ok E =>
        match iceReadEqDeletes st md minDataSeq eds with
        | .error e => .error e
        | .ok more => .ok (E :: more)

/-! ### The probe -/

/-- Null equals null, and nothing else. -/
def nullEq : Option Datum → Option Datum → Bool
  | none, none => true
  | some x, some y => decide (x = y)
  | _, _ => false

/-- The values at the positions that the map gives. -/
def pick (mape : List ℕ) (vals : List (Option Datum)) : List (Option Datum) :=
  mape.map fun k => vals[k]?.join

/-- `ice_eq_file_matches` -/
def iceEqFileMatches (E : IceEqDel) (mape : List ℕ) (dv : List (Option Datum)) : Bool :=
  if E.buckets.length = 0 then false
  else (E.buckets[(iceEqHash hashProc E.cols (pick mape dv)).toNat &&& (E.buckets.length - 1)]?.getD
    []).any fun row =>
    decide (row.hash = iceEqHash hashProc E.cols (pick mape dv)) &&
      ((pick mape dv).zip row.vals).all fun r => nullEq r.1 r.2

def addCol (u : List (ℕ × TypeOid)) (c : ℕ × TypeOid) : List (ℕ × TypeOid) :=
  if u.any fun d => d.1 = c.1 then u else u ++ [c]

/-- The equality columns of the files, each once. -/
def unionCols (elig : List IceEqDel) : List (ℕ × TypeOid) :=
    (elig.flatMap IceEqDel.cols).foldl addCol []

/-- The positions of the columns of a file among these. -/
def unionMap (u : List (ℕ × TypeOid)) (E : IceEqDel) : List ℕ :=
    E.cols.map fun c => u.findIdx fun d => d.1 = c.1

/-- `ice_eq_probe`: the ordinals of the rows that a delete matches, and the number of rows. -/
def iceEqProbe (f : DataFile) (elig : List IceEqDel) : Except ReadError (List ℕ × ℕ) :=
  match readParquetByFieldId coercionFunction coerceFn f
    ((unionCols elig).map fun c => plainAtt c.2)
      ((unionCols elig).map (·.1)) with
  | .error e => .error e
  | .ok rows => .ok ((rows.zipIdx.filter fun r =>
      elig.any fun E => iceEqFileMatches hashProc E (unionMap (unionCols elig) E) r.1).map (·.2),
        rows.length)

/-! ### The scan -/

/-- The reader wants the set sorted and unique. -/
def sortSkip (skip : List ℕ) : List ℕ :=
  if 1 < skip.length then (skip.insertionSort (· ≤ ·)).destutter (· ≠ ·) else skip

/-- The reads of a data file, with the ordinals that its position deletes drop. -/
def scanFile (f : DataFile) (atts : List Att) (ids : List ℕ) (nm : NameMapping) (path : CString)
    (skip : List ℕ) (elig : List IceEqDel) : Except ScanError (List Row) :=
  if elig = [] then
    match readParquetByFieldIdNM coercionFunction coerceFn f atts ids nm (sortSkip skip) none with
    | .error e => .error (.read e)
    | .ok rows => .ok rows
  else
    match iceEqProbe coercionFunction coerceFn hashProc f elig with
    | .error e => .error (.read e)
    | .ok (matched, probeRows) =>
      match readParquetByFieldIdNM coercionFunction coerceFn f atts ids nm
        (sortSkip (skip ++ matched)) none with
      | .error e => .error (.read e)
      | .ok rows =>
        if (rows.length : ℤ) ≠ probeRows - (sortSkip (skip ++ matched)).countP (· < probeRows) then
          .error (.rowCount path)
        else .ok rows

/-- The ordinals that deletion vectors drop, or else position deletes. -/
def positionSkip (hash : CString × Bool → ℕ) (posdels : List IcePosDel) (dvdels : List IceDvDel)
    (d : IceEntry) :
    List ℕ :=
  let applies := dvdels.filter fun v => decide (d.seq ≤ v.seq) && icePathEq v.dpath d.filePath
  if applies ≠ [] then applies.flatMap IceDvDel.pos
  else
    let index := posdels.foldl (fun bs r =>
      Buckets.insert IcePosDel.dpath (fun p => hash (icePathTail p)) icePathEq r bs) []
    ((Buckets.lookup (fun p => hash (icePathTail p)) icePathEq d.filePath index).filter fun r =>
      d.seq ≤ r.seq).map
      fun r => r.pos.toNat

/-- The equality deletes that apply to a data file. -/
def eligible (d : IceEntry) : List IceEqDel → Except ScanError (List IceEqDel)
  | [] => .ok []
  | E :: es =>
    if E.seq ≤ d.seq then eligible d es
    else
      match E.partition with
      | none => (eligible d es).map (E :: ·)
      | some (specId, cells) =>
        match d.specId with
        | none => .error (.noPartitionSpecId d.filePath)
        | some dataSpecId =>
          if specId ≠ dataSpecId then eligible d es
          else if icePartIncomparable d.partCells then .error (.incomparablePartition d.filePath)
          else if icePartCellsEqual cells d.partCells = false then eligible d es
          else (eligible d es).map (E :: ·)

/-- The loop over the data files. -/
def scanFiles (hash : CString × Bool → ℕ) (st : Store) (md : Metadata) (atts : List Att)
    (ids : List ℕ)
    (posdels : List IcePosDel) (dvdels : List IceDvDel) (eqdels : List IceEqDel) :
    List IceEntry → Except ScanError (List (List Row))
  | [] => .ok []
  | d :: ds =>
    if d.fileFormat ≠ none ∧ isFormat "PARQUET" d.fileFormat =
      false then .error (.dataFormat d.filePath)
    else
      match eligible d eqdels with
      | .error e => .error e
      | .ok elig =>
        match st.file d.filePath with
        | none => .error (.cannotOpen d.filePath)
        | some f =>
          match scanFile coercionFunction coerceFn hashProc f atts ids md.nameMapping d.filePath
              (positionSkip hash posdels dvdels d) elig with
          | .error e => .error e
          | .ok rows =>
            match scanFiles hash st md atts ids posdels dvdels eqdels ds with
            | .error e => .error e
            | .ok more => .ok (rows :: more)

/-- `PgColumnarIcebergScanCore` without a filter; the rows of each data file, in the order of the
files. `ids` are the field ids of the output columns. -/
def scanCore (hash : CString × Bool → ℕ) (st : Store) (md : Metadata) (atts : List Att)
    (ids : List ℕ) :
    Except ScanError (List (List Row)) :=
  match iceWalkDataFiles md with
  | .error e => .error e
  | .ok c =>
    match iceReadPosDeletes coercionFunction coerceFn st c.posdel with
    | .error e => .error e
    | .ok posdels =>
      match iceReadDvs st md.formatVersion [] c.posdel with
      | .error e => .error e
      | .ok dvdels =>
        match iceReadEqDeletes coercionFunction coerceFn hashProc st md
          ((c.data.map IceEntry.seq).min?) c.eqdel with
        | .error e => .error e
        | .ok eqdels =>
          scanFiles coercionFunction coerceFn hashProc hash st md atts ids posdels dvdels
            eqdels c.data

end PgColumnar.Iceberg
