import Mathlib.Data.List.TakeWhile
import PgColumnar.Avro.Partition

/-!
# Manifest entries

The records of a manifest and of a manifest list, decoded against the schema of the file.  The
fields are known by name, in any order; the others are skipped.

## Main definitions

* `avDecodeEntry`, `avDecodeManifestFile` — the decoders.
* `projectEntry`, `projectManifestFile` — what they should find in a value.

## Main results

* `parses_avDecodeEntry`, `parses_avDecodeManifestFile` — they find it.
-/

namespace PgColumnar.Avro

open Bytes Cursor Cursor.Parser Iceberg List

/-! ### Single fields -/

/-- `av_unwrap_union` and the value behind it, or what stands for a union's null. -/
def avPresent {α : Type} (s : AvSchema) (null : α) (body : AvSchema → AvReader α) : AvReader α := do
  let r ← avUnwrapUnion s
  if r.2 then pure null else body r.1

def avReadString (depth : ℕ) (s : AvSchema) : AvReader (Option CString) :=
  avPresent s none fun t =>
    match t with
    | .string | .bytes _ => do
      let c ← avCstring
      pure (some c)
    | _ => do
      avSkip depth t
      pure none

/-- `av_read_long`; `none` is a field that is not there, and reads as zero. -/
def avReadLong (depth : ℕ) (s : AvSchema) : AvReader (Option ℤ) :=
  avPresent s none fun t =>
    match t with
    | .int | .long => do
      let z ← avLong
      pure (some z)
    | _ => do
      avSkip depth t
      pure none

def IsInt32 (z : ℤ) : Prop := -2147483648 ≤ z ∧ z ≤ 2147483647

instance (z : ℤ) : Decidable (IsInt32 z) := inferInstanceAs (Decidable (_ ∧ _))

/-- `av_read_int32_field` -/
def avReadInt32Field (depth : ℕ) (s : AvSchema) (what : String) (path : Option CString)
    (field : String) :
    AvReader (Option ℤ) := do
  let v ← avReadLong depth s
  if IsInt32 (v.getD 0) then pure v else fail (.invalidField what path field (v.getD 0))

def avMaxEqualityIds : ℤ := 10000

def avReadId (ids : List ℤ) : AvReader (List ℤ) := do
  let v ← avLong
  if v < 0 ∨ 2147483647 < v then fail .malformed else pure (ids ++ [v])

/-- `av_read_int_array` -/
def avReadIntArray (depth : ℕ) (s : AvSchema) : AvReader (List ℤ) :=
  avPresent s [] fun t =>
    match t with
    | .array .int | .array .long => avBlocks avMaxEqualityIds (fun ids => ids.length) avReadId []
    | _ => do
      avSkip depth t
      pure []

/-- `PgColumnarAvroBound` -/
structure AvroBound where
  fieldId : ℤ
  bytes : List Byte

def avMaxBounds : ℤ := 8192

def avMaxBoundLen : ℤ := 65536

def avReadBoundKey (depth : ℕ) (s : AvSchema) : AvReader ℤ := do
  let v ← avReadLong depth s
  if IsInt32 (v.getD 0) then pure (v.getD 0) else fail .malformed

def avReadBoundBytes : AvReader (List Byte) := do
  let len ← avLong
  if len < 0 ∨ avMaxBoundLen < len then fail .malformed else avTake len

def avReadBoundValue (depth : ℕ) (s : AvSchema) : AvReader (Option (List Byte)) :=
  avPresent s none fun t =>
    match t with
    | .string | .bytes _ => do
      let p ← avReadBoundBytes
      pure (some p)
    | _ => do
      avSkip depth t
      pure none

/-- A field of a bound's record; a value that is null leaves the one before it. -/
def avBoundField (depth : ℕ) (b : Option ℤ × Option (List Byte)) (f : CString × AvSchema) :
    AvReader (Option ℤ × Option (List Byte)) :=
  if f.1 = ascii "key" then do
    let key ← avReadBoundKey depth f.2
    pure (some key, b.2)
  else if f.1 = ascii "value" then do
    let val ← avReadBoundValue depth f.2
    pure (b.1, val <|> b.2)
  else do
    avSkip depth f.2
    pure b

def boundList : Option ℤ × Option (List Byte) → List AvroBound
  | (some key, some val) => [⟨key, val⟩]
  | _ => []

def avReadBound (depth : ℕ) (fields : List (CString × AvSchema)) (bounds : List AvroBound) :
    AvReader (List AvroBound) := do
  let b ← fold (avBoundField depth) fields (none, none)
  pure (bounds ++ boundList b)

/-- `av_read_bound_map` -/
def avReadBoundMap (depth : ℕ) (s : AvSchema) : AvReader (List AvroBound) :=
  avPresent s [] fun t =>
    match t with
    | .array (.record fields) =>
      avBlocks avMaxBounds (fun bounds => bounds.length) (avReadBound depth fields) []
    | _ => do
      avSkip depth t
      pure []

/-! ### Records -/

/-- `PgColumnarAvroManifestEntry`; an option is a value with its `has_` flag. -/
structure AvroEntry where
  status : ℤ
  content : ℤ
  filePath : Option CString
  fileFormat : Option CString
  recordCount : ℤ
  fileSizeInBytes : ℤ
  partition : Option (List Byte)
  sequenceNumber : Option ℤ
  hasSequenceField : Bool
  equalityIds : List ℤ
  referencedDataFile : Option CString
  contentOffset : Option ℤ
  contentSizeInBytes : Option ℤ
  partCells : List PartCell
  lowerBounds : List AvroBound
  upperBounds : List AvroBound

/-- `palloc0` -/
def AvroEntry.zero : AvroEntry :=
  ⟨0, 0, none, none, 0, 0, none, none, false, [], none, none, none, [], [], []⟩

/-- `PgColumnarAvroManifestFile` -/
structure AvroManifestFile where
  manifestPath : Option CString
  manifestLength : ℤ
  partitionSpecId : Option ℤ
  content : ℤ
  sequenceNumber : Option ℤ
  minSequenceNumber : Option ℤ
  addedSnapshotId : ℤ
  addedFilesCount : ℤ
  existingFilesCount : ℤ
  deletedFilesCount : ℤ
  addedRowsCount : ℤ
  existingRowsCount : ℤ
  deletedRowsCount : ℤ

def AvroManifestFile.zero : AvroManifestFile := ⟨none, 0, none, 0, none, none, 0, 0, 0, 0, 0, 0, 0⟩

/-- The cast to `int32`. -/
def castInt32 (z : ℤ) : ℤ := Int.bmod z 4294967296

section Decode

variable (encoding : Bool) (verifyUtf8 : List Byte → Bool)
  (floatText doubleText : List Byte → List Byte)

/-- The `partition` field of a data file. -/
def avReadPartition (depth : ℕ) (s : AvSchema) (e : AvroEntry) : AvReader AvroEntry :=
  avPresent s e fun t => do
    let r ← avDecodePartition encoding verifyUtf8 floatText doubleText depth t
    match r with
    | none => pure { e with partition := none }
    | some (cells, text) => pure { e with partition := some text, partCells := cells }

def avDataFileField (depth : ℕ) (e : AvroEntry) (f : CString × AvSchema) : AvReader AvroEntry :=
  if f.1 = ascii "file_path" then do
    let v ← avReadString depth f.2
    pure { e with filePath := v }
  else if f.1 = ascii "file_format" then do
    let v ← avReadString depth f.2
    pure { e with fileFormat := v }
  else if f.1 = ascii "content" then do
    let v ← avReadInt32Field depth f.2 "manifest entry" e.filePath "content"
    pure { e with content := v.getD 0 }
  else if f.1 = ascii "record_count" then do
    let v ← avReadLong depth f.2
    pure { e with recordCount := v.getD 0 }
  else if f.1 = ascii "file_size_in_bytes" then do
    let v ← avReadLong depth f.2
    pure { e with fileSizeInBytes := v.getD 0 }
  else if f.1 = ascii "partition" then
    avReadPartition encoding verifyUtf8 floatText doubleText depth f.2 e
  else if f.1 = ascii "equality_ids" then do
    let v ← avReadIntArray depth f.2
    pure { e with equalityIds := v }
  else if f.1 = ascii "lower_bounds" then do
    let v ← avReadBoundMap depth f.2
    pure { e with lowerBounds := v }
  else if f.1 = ascii "upper_bounds" then do
    let v ← avReadBoundMap depth f.2
    pure { e with upperBounds := v }
  else if f.1 = ascii "referenced_data_file" then do
    let v ← avReadString depth f.2
    pure { e with referencedDataFile := v }
  else if f.1 = ascii "content_offset" then do
    let v ← avReadLong depth f.2
    pure { e with contentOffset := v }
  else if f.1 = ascii "content_size_in_bytes" then do
    let v ← avReadLong depth f.2
    pure { e with contentSizeInBytes := v }
  else do
    avSkip depth f.2
    pure e

/-- `av_decode_data_file` -/
def avDecodeDataFile (depth : ℕ) (s : AvSchema) (e : AvroEntry) : AvReader AvroEntry :=
  match s with
  | .record fields => fold (avDataFileField encoding verifyUtf8 floatText doubleText depth) fields e
  | _ => fail .malformed

def avReadDataFile (depth : ℕ) (s : AvSchema) (e : AvroEntry) : AvReader AvroEntry :=
  avPresent s e fun t => avDecodeDataFile encoding verifyUtf8 floatText doubleText depth t e

def avEntryField (depth : ℕ) (e : AvroEntry) (f : CString × AvSchema) : AvReader AvroEntry :=
  if f.1 = ascii "status" then do
    let v ← avReadInt32Field depth f.2 "manifest entry" e.filePath "status"
    pure { e with status := v.getD 0 }
  else if f.1 = ascii "sequence_number" ∨ f.1 = ascii "data_sequence_number" then do
    let v ← avReadLong depth f.2
    pure { e with hasSequenceField := true, sequenceNumber := v }
  else if f.1 = ascii "data_file" then
    avReadDataFile encoding verifyUtf8 floatText doubleText depth f.2 e
  else do
    avSkip depth f.2
    pure e

/-- `av_decode_entry`, of an entry that is all zero -/
def avDecodeEntry (depth : ℕ) (s : AvSchema) : AvReader AvroEntry :=
  match s with
  | .record fields =>
    fold (avEntryField encoding verifyUtf8 floatText doubleText depth) fields AvroEntry.zero
  | _ => fail .malformed

end Decode

def avManifestFileField (depth : ℕ) (e : AvroManifestFile) (f : CString × AvSchema) :
    AvReader AvroManifestFile :=
  if f.1 = ascii "manifest_path" then do
    let v ← avReadString depth f.2
    pure { e with manifestPath := v }
  else if f.1 = ascii "manifest_length" then do
    let v ← avReadLong depth f.2
    pure { e with manifestLength := v.getD 0 }
  else if f.1 = ascii "partition_spec_id" then do
    let v ← avReadInt32Field depth f.2 "manifest" e.manifestPath "partition_spec_id"
    pure { e with partitionSpecId := v }
  else if f.1 = ascii "content" then do
    let v ← avReadInt32Field depth f.2 "manifest" e.manifestPath "content"
    pure { e with content := v.getD 0 }
  else if f.1 = ascii "sequence_number" then do
    let v ← avReadLong depth f.2
    pure { e with sequenceNumber := v }
  else if f.1 = ascii "min_sequence_number" then do
    let v ← avReadLong depth f.2
    pure { e with minSequenceNumber := v }
  else if f.1 = ascii "added_snapshot_id" then do
    let v ← avReadLong depth f.2
    pure { e with addedSnapshotId := v.getD 0 }
  else if f.1 = ascii "added_files_count" then do
    let v ← avReadLong depth f.2
    pure { e with addedFilesCount := castInt32 (v.getD 0) }
  else if f.1 = ascii "existing_files_count" then do
    let v ← avReadLong depth f.2
    pure { e with existingFilesCount := castInt32 (v.getD 0) }
  else if f.1 = ascii "deleted_files_count" then do
    let v ← avReadLong depth f.2
    pure { e with deletedFilesCount := castInt32 (v.getD 0) }
  else if f.1 = ascii "added_rows_count" then do
    let v ← avReadLong depth f.2
    pure { e with addedRowsCount := v.getD 0 }
  else if f.1 = ascii "existing_rows_count" then do
    let v ← avReadLong depth f.2
    pure { e with existingRowsCount := v.getD 0 }
  else if f.1 = ascii "deleted_rows_count" then do
    let v ← avReadLong depth f.2
    pure { e with deletedRowsCount := v.getD 0 }
  else do
    avSkip depth f.2
    pure e

/-- `av_decode_manifest_file`, of an element that is all zero -/
def avDecodeManifestFile (depth : ℕ) (s : AvSchema) : AvReader AvroManifestFile :=
  match s with
  | .record fields => fold (avManifestFileField depth) fields AvroManifestFile.zero
  | _ => fail .malformed

/-! ### The fields of values -/

/-- The number of a value that is one. -/
def longOf (s : AvSchema) (v : AvValue) : Option ℤ :=
  match unwrap s v with
  | (.int, .int z, _) | (.long, .int z, _) => some z
  | _ => none

/-- The bytes of a value that is a string or bytes. -/
def rawOf (s : AvSchema) (v : AvValue) : Option (List Byte) :=
  match unwrap s v with
  | (.string, .raw p, _) | (.bytes _, .raw p, _) => some p
  | _ => none

def intOf : AvValue → ℤ
  | .int z => z
  | _ => 0

def idsOf (s : AvSchema) (v : AvValue) : List ℤ :=
  match unwrap s v with
  | (.array .int, .array vs, _) | (.array .long, .array vs, _) => vs.map intOf
  | _ => []

def recordOf : AvValue → List AvValue
  | .record vs => vs
  | _ => []

def projectBoundField (b : Option ℤ × Option (List Byte)) (fv : (CString × AvSchema) × AvValue) :
    Option ℤ × Option (List Byte) :=
  if fv.1.1 = ascii "key" then (some ((longOf fv.1.2 fv.2).getD 0), b.2)
  else if fv.1.1 = ascii "value" then (b.1, rawOf fv.1.2 fv.2 <|> b.2)
  else b

def projectBound (fields : List (CString × AvSchema)) (v : AvValue) : List AvroBound :=
  boundList ((fields.zip (recordOf v)).foldl projectBoundField (none, none))

def boundsOf (s : AvSchema) (v : AvValue) : List AvroBound :=
  match unwrap s v with
  | (.array (.record fields), .array vs, _) => vs.flatMap (projectBound fields)
  | _ => []

section Project

variable (text : List Byte → CString) (encoding : Bool) (verifyUtf8 : List Byte → Bool)
  (floatText doubleText : List Byte → List Byte)

def projectPartition (s : AvSchema) (v : AvValue) (e : AvroEntry) : AvroEntry :=
  match unwrap s v with
  | (_, _, true) => e
  | (.record fields, w, _) =>
    let r := fieldsText encoding verifyUtf8 floatText doubleText (fields.zip (recordOf w)) true
    { e with partition := some r.2, partCells := r.1 }
  | _ => { e with partition := none }

def projectDataFileField (e : AvroEntry) (fv : (CString × AvSchema) × AvValue) : AvroEntry :=
  let s := fv.1.2
  let v := fv.2
  if fv.1.1 = ascii "file_path" then { e with filePath := (rawOf s v).map text }
  else if fv.1.1 = ascii "file_format" then { e with fileFormat := (rawOf s v).map text }
  else if fv.1.1 = ascii "content" then { e with content := (longOf s v).getD 0 }
  else if fv.1.1 = ascii "record_count" then { e with recordCount := (longOf s v).getD 0 }
  else if fv.1.1 = ascii "file_size_in_bytes" then { e with fileSizeInBytes := (longOf s v).getD 0 }
  else if fv.1.1 = ascii "partition"
    then projectPartition encoding verifyUtf8 floatText doubleText s v e
  else if fv.1.1 = ascii "equality_ids" then { e with equalityIds := idsOf s v }
  else if fv.1.1 = ascii "lower_bounds" then { e with lowerBounds := boundsOf s v }
  else if fv.1.1 = ascii "upper_bounds" then { e with upperBounds := boundsOf s v }
  else if fv.1.1 = ascii "referenced_data_file"
    then { e with referencedDataFile := (rawOf s v).map text }
  else if fv.1.1 = ascii "content_offset" then { e with contentOffset := longOf s v }
  else if fv.1.1 = ascii "content_size_in_bytes" then { e with contentSizeInBytes := longOf s v }
  else e

def projectDataFile (s : AvSchema) (v : AvValue) (e : AvroEntry) : AvroEntry :=
  match unwrap s v with
  | (.record fields, w, false) =>
    (fields.zip (recordOf w)).foldl
      (projectDataFileField text encoding verifyUtf8 floatText doubleText) e
  | _ => e

def projectEntryField (e : AvroEntry) (fv : (CString × AvSchema) × AvValue) : AvroEntry :=
  let s := fv.1.2
  let v := fv.2
  if fv.1.1 = ascii "status" then { e with status := (longOf s v).getD 0 }
  else if fv.1.1 = ascii "sequence_number" ∨ fv.1.1 = ascii "data_sequence_number" then
    { e with hasSequenceField := true, sequenceNumber := longOf s v }
  else if fv.1.1 = ascii "data_file"
    then projectDataFile text encoding verifyUtf8 floatText doubleText s v e
  else e

/-- The entry of a record's values. -/
def projectEntry (fvs : List ((CString × AvSchema) × AvValue)) : AvroEntry :=
  fvs.foldl (projectEntryField text encoding verifyUtf8 floatText doubleText) AvroEntry.zero

end Project

section Project

variable (text : List Byte → CString) (count : ℤ → ℤ)

def projectManifestFileField (e : AvroManifestFile) (fv : (CString × AvSchema) × AvValue) :
    AvroManifestFile :=
  let s := fv.1.2
  let v := fv.2
  if fv.1.1 = ascii "manifest_path" then { e with manifestPath := (rawOf s v).map text }
  else if fv.1.1 = ascii "manifest_length" then { e with manifestLength := (longOf s v).getD 0 }
  else if fv.1.1 = ascii "partition_spec_id" then { e with partitionSpecId := longOf s v }
  else if fv.1.1 = ascii "content" then { e with content := (longOf s v).getD 0 }
  else if fv.1.1 = ascii "sequence_number" then { e with sequenceNumber := longOf s v }
  else if fv.1.1 = ascii "min_sequence_number" then { e with minSequenceNumber := longOf s v }
  else if fv.1.1 = ascii "added_snapshot_id" then { e with addedSnapshotId := (longOf s v).getD 0 }
  else if fv.1.1 = ascii "added_files_count"
    then { e with addedFilesCount := count ((longOf s v).getD 0) }
  else if fv.1.1 = ascii "existing_files_count" then
    { e with existingFilesCount := count ((longOf s v).getD 0) }
  else if fv.1.1 = ascii "deleted_files_count" then
    { e with deletedFilesCount := count ((longOf s v).getD 0) }
  else if fv.1.1 = ascii "added_rows_count" then { e with addedRowsCount := (longOf s v).getD 0 }
  else if fv.1.1 = ascii "existing_rows_count"
    then { e with existingRowsCount := (longOf s v).getD 0 }
  else if fv.1.1 = ascii "deleted_rows_count"
    then { e with deletedRowsCount := (longOf s v).getD 0 }
  else e

/-- The manifest of a record's values. -/
def projectManifestFile (fvs : List ((CString × AvSchema) × AvValue)) : AvroManifestFile :=
  fvs.foldl (projectManifestFileField text count) AvroManifestFile.zero

end Project

/-! ### The caps -/

def IdsOk (s : AvSchema) (v : AvValue) : Prop :=
  ((idsOf s v).length : ℤ) ≤ avMaxEqualityIds ∧ ∀ z ∈ idsOf s v, 0 ≤ z ∧ z ≤ 2147483647

def BoundFieldOk (fv : (CString × AvSchema) × AvValue) : Prop :=
  (fv.1.1 = ascii "key" → IsInt32 ((longOf fv.1.2 fv.2).getD 0)) ∧
    (fv.1.1 = ascii "value" → ∀ p, rawOf fv.1.2 fv.2 = some p → (p.length : ℤ) ≤ avMaxBoundLen)

def BoundsOk (s : AvSchema) (v : AvValue) : Prop :=
  match unwrap s v with
  | (.array (.record fields), .array vs, _) => (vs.length : ℤ) ≤ avMaxBounds ∧
      ∀ w ∈ vs, ∀ fw ∈ fields.zip (recordOf w), BoundFieldOk fw
  | _ => True

def DataFileFieldOk (fv : (CString × AvSchema) × AvValue) : Prop :=
  (fv.1.1 = ascii "content" → IsInt32 ((longOf fv.1.2 fv.2).getD 0)) ∧
    (fv.1.1 = ascii "equality_ids" → IdsOk fv.1.2 fv.2) ∧
      (fv.1.1 = ascii "lower_bounds" ∨ fv.1.1 = ascii "upper_bounds" → BoundsOk fv.1.2 fv.2)

/-- The data file is a record, or null. -/
def DataFileOk (s : AvSchema) (v : AvValue) : Prop :=
  match unwrap s v with
  | (_, _, true) => True
  | (.record fields, w, _) => ∀ fw ∈ fields.zip (recordOf w), DataFileFieldOk fw
  | _ => False

def EntryFieldOk (fv : (CString × AvSchema) × AvValue) : Prop :=
  (fv.1.1 = ascii "status" → IsInt32 ((longOf fv.1.2 fv.2).getD 0)) ∧
    (fv.1.1 = ascii "data_file" → DataFileOk fv.1.2 fv.2)

def ManifestFileFieldOk (fv : (CString × AvSchema) × AvValue) : Prop :=
  fv.1.1 = ascii "partition_spec_id" ∨ fv.1.1 = ascii "content" →
    IsInt32 ((longOf fv.1.2 fv.2).getD 0)

/-! ### What single fields read -/

section Fields

variable {depth : ℕ} {s : AvSchema} {v : AvValue} {bs : List Byte} {α : Type}

theorem unwrap_of_null (h : (unwrap s v).2.2 = true) : (unwrap s v).1 = .null := by
  unfold unwrap at h ⊢
  split at h
  · next branches i w =>
    cases hget : branches.getD i .null with
    | null => rfl
    | _ =>
      rw [hget] at h
      cases h
  · cases h

theorem parses_avPresent {d a : α} {body : AvSchema → AvReader α} (h : Encodes depth s v bs)
    (hnull : ∀ w, unwrap s v = (.null, w, true) → a = d)
    (hbody : ∀ n t w wb, depth = n + 1 → unwrap s v = (t, w, false) → Encodes (n + 1) t w wb →
      Parses (body t) wb a) : Parses (avPresent s d body) bs a := by
  obtain ⟨ib, wb, rfl, hunwrap, hw⟩ := parses_avUnwrapUnion h
  refine hunwrap.bind ?_
  by_cases hisnull : (unwrap s v).2.2 = true
  · obtain rfl := Encodes.null_eq_nil hisnull hw
    rw [if_pos hisnull, hnull _ (Prod.ext (unwrap_of_null hisnull) (Prod.ext rfl hisnull))]
    exact parses_pure d
  · rw [if_neg hisnull]
    cases depth with
    | zero => exact hw.elim
    | succ n =>
      exact hbody n _ _ wb rfl (Prod.ext rfl (Prod.ext rfl (Bool.eq_false_iff.mpr hisnull))) hw

theorem parses_avReadLong (h : Encodes depth s v bs) :
    Parses (avReadLong depth s) bs (longOf s v) := by
  unfold longOf
  refine parses_avPresent h (fun w hu => by rw [hu]) fun n t w wb hn hu hwb => ?_
  subst hn
  rw [hu]
  have hskip := parses_avSkip hwb
  cases t with
  | int =>
    obtain ⟨z, rfl, -, -, hz⟩ := hwb
    exact (parses_avLong hz).bind_pure some
  | long =>
    obtain ⟨z, rfl, hz⟩ := hwb
    exact (parses_avLong hz).bind_pure some
  | _ => exact hskip.bind_pure fun _ => none

theorem parses_avReadString (h : Encodes depth s v bs) :
    Parses (avReadString depth s) bs ((rawOf s v).map textToCstring) := by
  unfold rawOf
  refine parses_avPresent h (fun w hu => by rw [hu]; rfl) fun n t w wb hn hu hwb => ?_
  subst hn
  rw [hu]
  have hskip := parses_avSkip hwb
  cases t with
  | string | bytes =>
    obtain ⟨p, rfl, hp⟩ := hwb
    exact ((parses_avBytes hp).bind_pure textToCstring).bind_pure some
  | _ => exact hskip.bind_pure fun _ => none

theorem parses_avReadInt32Field (h : Encodes depth s v bs) (hok : IsInt32 ((longOf s v).getD 0))
    (what : String) (path : Option CString) (field : String) :
    Parses (avReadInt32Field depth s what path field) bs (longOf s v) := by
  refine (parses_avReadLong h).last ?_
  rw [if_pos hok]
  exact parses_pure _

/-- The ids are the items of an array of int or of long. -/
theorem parses_idBlocks {items : AvSchema} (hitems : items = .int ∨ items = .long)
    {vs : List AvValue}
    (h : Blocks (Encodes depth items) avMaxObjects vs bs)
    (hlen : (vs.length : ℤ) ≤ avMaxEqualityIds)
    (hids : ∀ a ∈ vs, 0 ≤ intOf a ∧ intOf a ≤ 2147483647) :
    Parses (avBlocks avMaxEqualityIds (fun ids : List ℤ => ids.length) avReadId []) bs
      (vs.map intOf) := by
  have hsing : ∀ us : List AvValue, us.foldl (fun ids a => ids ++ [intOf a]) [] = us.map intOf := by
    intro us
    rw [← flatMap_eq_foldl, map_eq_flatMap]
  rw [← hsing]
  have hitem : ∀ (ids : List ℤ) (a : AvValue) (bs : List Byte),
      (0 ≤ intOf a ∧ intOf a ≤ 2147483647 ∧ Encodes depth items a bs) →
        Parses (avReadId ids) bs (ids ++ [intOf a]) := by
    intro ids a bs ha
    obtain ⟨hlo, hhi, henc⟩ := ha
    have hlong : LongBytes (intOf a) bs := by
      cases depth with
      | zero => exact henc.elim
      | succ depth =>
        obtain rfl | rfl := hitems
        · obtain ⟨z, rfl, -, -, hz⟩ := henc
          exact hz
        · obtain ⟨z, rfl, hz⟩ := henc
          exact hz
    refine (parses_avLong hlong).last ?_
    rw [if_neg (by omega)]
    exact parses_pure _
  refine parses_avBlocks hitem (h.imp_of_mem (.inr hlen) fun a ha bs henc => ?_) ?_
  · exact ⟨(hids a ha).1, (hids a ha).2, henc⟩
  · intro pre us post hvs _
    rw [hsing]
    rw [hvs] at hlen
    simp only [length_append, length_map] at hlen ⊢
    omega

theorem parses_avReadIntArray (h : Encodes depth s v bs) (hok : IdsOk s v) :
    Parses (avReadIntArray depth s) bs (idsOf s v) := by
  unfold IdsOk at hok
  unfold idsOf at hok ⊢
  refine parses_avPresent h (fun w hu => by rw [hu]) fun n t w wb hn hu hwb => ?_
  subst hn
  rw [hu] at hok ⊢
  have hskip := parses_avSkip hwb
  cases t with
  | array items =>
    obtain ⟨vs, rfl, hblocks⟩ := hwb
    cases items with
    | int =>
      rw [length_map, forall_mem_map] at hok
      exact parses_idBlocks (.inl rfl) hblocks hok.1 hok.2
    | long =>
      rw [length_map, forall_mem_map] at hok
      exact parses_idBlocks (.inr rfl) hblocks hok.1 hok.2
    | _ => exact hskip.bind_pure fun _ => []
  | _ => exact hskip.bind_pure fun _ => []

theorem parses_avReadBoundValue (h : Encodes depth s v bs)
    (hok : ∀ p, rawOf s v = some p → (p.length : ℤ) ≤ avMaxBoundLen) :
    Parses (avReadBoundValue depth s) bs (rawOf s v) := by
  unfold rawOf at hok ⊢
  refine parses_avPresent h (fun w hu => by rw [hu]) fun n t w wb hn hu hwb => ?_
  subst hn
  rw [hu] at hok ⊢
  have hskip := parses_avSkip hwb
  cases t with
  | string | bytes =>
    obtain ⟨p, rfl, lb, hlb, rfl⟩ := hwb
    have hlen := hok p rfl
    have hbytes : Parses avReadBoundBytes (lb ++ p) p := by
      refine (parses_avLong hlb).bind ?_
      rw [if_neg (by omega)]
      exact parses_avTake p
    exact hbytes.bind_pure some
  | _ => exact hskip.bind_pure fun _ => none

theorem parses_avBoundField {fv : (CString × AvSchema) × AvValue} (h : Encodes depth fv.1.2 fv.2 bs)
    (hok : BoundFieldOk fv) (b : Option ℤ × Option (List Byte)) :
    Parses (avBoundField depth b fv.1) bs (projectBoundField b fv) := by
  unfold avBoundField projectBoundField
  obtain ⟨hkey, hvalue⟩ := hok
  by_cases h1 : fv.1.1 = ascii "key"
  · rw [if_pos h1, if_pos h1]
    have hread : Parses (avReadBoundKey depth fv.1.2) bs ((longOf fv.1.2 fv.2).getD 0) := by
      refine (parses_avReadLong h).last ?_
      rw [if_pos (hkey h1)]
      exact parses_pure _
    exact hread.last (parses_pure _)
  · rw [if_neg h1, if_neg h1]
    by_cases h2 : fv.1.1 = ascii "value"
    · rw [if_pos h2, if_pos h2]
      exact (parses_avReadBoundValue h (hvalue h2)).last (parses_pure _)
    · rw [if_neg h2, if_neg h2]
      exact (parses_avSkip h).last (parses_pure b)

/-- The fields of a record, with a condition on each. -/
theorem parses_recordFields {σ : Type} {P : (CString × AvSchema) × AvValue → Prop}
    {step : σ → CString × AvSchema → AvReader σ} {next : σ → (CString × AvSchema) × AvValue → σ}
    (hstep : ∀ s fv bs, Encodes depth fv.1.2 fv.2 bs → P fv → Parses (step s fv.1) bs (next s fv))
    {fields : List (CString × AvSchema)} (h : Encodes depth (.record fields) v bs)
    (hok : ∀ fv ∈ fields.zip (recordOf v), P fv) (s : σ) :
    Parses (fold step fields s) bs ((fields.zip (recordOf v)).foldl next s) := by
  cases depth with
  | zero => exact h.elim
  | succ depth =>
    obtain ⟨vs, rfl, hlen, hseq⟩ := h
    have hfold := parses_fold (fun s fv bs h => hstep s fv bs h.1 h.2)
      (hseq.imp_of_mem fun fv hfv bs henc => (⟨henc.succ, hok fv hfv⟩ : _ ∧ P fv)) s
    rwa [map_fst_zip (Nat.le_of_eq hlen)] at hfold

theorem length_boundList_le (b : Option ℤ × Option (List Byte)) : (boundList b).length ≤ 1 := by
  obtain ⟨_ | key, _ | val⟩ := b <;> simp [boundList]

theorem length_flatMap_le {β : Type} {f : α → List β} (hf : ∀ a, (f a).length ≤ 1) (xs : List α) :
    (xs.flatMap f).length ≤ xs.length := by
  induction xs with
  | nil => exact le_rfl
  | cons a xs ih =>
    have ha := hf a
    rw [flatMap_cons, length_append, length_cons]
    omega

theorem parses_avReadBoundMap (h : Encodes depth s v bs) (hok : BoundsOk s v) :
    Parses (avReadBoundMap depth s) bs (boundsOf s v) := by
  unfold BoundsOk at hok
  unfold boundsOf
  refine parses_avPresent h (fun w hu => by rw [hu]) fun n t w wb hn hu hwb => ?_
  subst hn
  rw [hu] at hok ⊢
  have hskip := parses_avSkip hwb
  cases t with
  | array items =>
    obtain ⟨vs, rfl, hblocks⟩ := hwb
    cases items with
    | record fields =>
      obtain ⟨hlen, hfields⟩ := hok
      dsimp only
      rw [flatMap_eq_foldl]
      have hbound : ∀ (bounds : List AvroBound) (a : AvValue) (bs : List Byte),
          (Encodes n (.record fields) a bs ∧ ∀ fw ∈ fields.zip (recordOf a), BoundFieldOk fw) →
            Parses (avReadBound (n + 1) fields bounds) bs (bounds ++ projectBound fields a) := by
        intro bounds a bs ha
        have hrecord := parses_recordFields (fun b fv bs henc hok => parses_avBoundField henc hok b)
          ha.1.succ ha.2 (none, none)
        exact hrecord.last (parses_pure _)
      refine parses_avBlocks hbound
        (hblocks.imp_of_mem (.inr hlen) fun a ha bs henc => ⟨henc, hfields a ha⟩) ?_
      intro pre us post hvs _
      have hkept : (pre.flatMap (projectBound fields)).length ≤ pre.length :=
        length_flatMap_le (fun a => length_boundList_le _) pre
      rw [← flatMap_eq_foldl]
      rw [hvs, length_append, length_append] at hlen
      omega
    | _ => exact hskip.bind_pure fun _ => []
  | _ => exact hskip.bind_pure fun _ => []

end Fields

/-! ### What the records read -/

section Records

variable {encoding : Bool} {verifyUtf8 : List Byte → Bool}
  {floatText doubleText : List Byte → List Byte}
  {depth : ℕ} {s : AvSchema} {v : AvValue} {bs : List Byte}

theorem parses_avReadPartition (h : Encodes depth s v bs) (e : AvroEntry) :
    Parses (avReadPartition encoding verifyUtf8 floatText doubleText depth s e) bs
      (projectPartition encoding verifyUtf8 floatText doubleText s v e) := by
  unfold projectPartition
  refine parses_avPresent h (fun w hu => by rw [hu]) fun n t w wb hn hu hw => ?_
  subst hn
  rw [hu]
  have hskip := parses_avSkip hw
  cases t with
  | record fields =>
    obtain ⟨vs, rfl, hseq⟩ := hw
    have hrecord : Encodes (n + 1) (.record fields) (.record vs) wb := ⟨vs, rfl, hseq⟩
    exact (parses_avDecodePartition hrecord).last (parses_pure _)
  | _ => exact (hskip.last (parses_pure none)).last (parses_pure _)

variable {fv : (CString × AvSchema) × AvValue}

theorem parses_avDataFileField (h : Encodes depth fv.1.2 fv.2 bs)
    (hok : DataFileFieldOk fv) (e : AvroEntry) :
    Parses (avDataFileField encoding verifyUtf8 floatText doubleText depth e fv.1) bs
      (projectDataFileField textToCstring encoding verifyUtf8 floatText doubleText e fv) := by
  obtain ⟨hcontent, hids, hbounds⟩ := hok
  have hlong := parses_avReadLong h
  have hstring := parses_avReadString h
  refine .ite (fun _ => hstring.last (parses_pure _)) fun _ => ?_
  refine .ite (fun _ => hstring.last (parses_pure _)) fun _ => ?_
  refine .ite (fun hc => (parses_avReadInt32Field h (hcontent hc) _ _ _).last (parses_pure _))
    fun _ => ?_
  refine .ite (fun _ => hlong.last (parses_pure _)) fun _ => ?_
  refine .ite (fun _ => hlong.last (parses_pure _)) fun _ => ?_
  refine .ite (fun _ => parses_avReadPartition h e) fun _ => ?_
  refine .ite (fun hc => (parses_avReadIntArray h (hids hc)).last (parses_pure _)) fun _ => ?_
  refine .ite (fun hc => (parses_avReadBoundMap h (hbounds (.inl hc))).last (parses_pure _))
    fun _ => ?_
  refine .ite (fun hc => (parses_avReadBoundMap h (hbounds (.inr hc))).last (parses_pure _))
    fun _ => ?_
  refine .ite (fun _ => hstring.last (parses_pure _)) fun _ => ?_
  refine .ite (fun _ => hlong.last (parses_pure _)) fun _ => ?_
  refine .ite (fun _ => hlong.last (parses_pure _)) fun _ => ?_
  -- a field that is not known
  exact (parses_avSkip h).last (parses_pure e)

theorem parses_avReadDataFile (h : Encodes depth s v bs) (hok : DataFileOk s v) (e : AvroEntry) :
    Parses (avReadDataFile encoding verifyUtf8 floatText doubleText depth s e) bs
      (projectDataFile textToCstring encoding verifyUtf8 floatText doubleText s v e) := by
  unfold DataFileOk at hok
  unfold projectDataFile
  refine parses_avPresent h (fun w hu => by rw [hu]) fun n t w wb hn hu hw => ?_
  subst hn
  rw [hu] at hok ⊢
  cases t with
  | record fields =>
    exact parses_recordFields (fun e fv bs henc hok => parses_avDataFileField henc hok e) hw hok e
  | _ => exact hok.elim

theorem parses_avEntryField (h : Encodes depth fv.1.2 fv.2 bs)
    (hok : EntryFieldOk fv) (e : AvroEntry) :
    Parses (avEntryField encoding verifyUtf8 floatText doubleText depth e fv.1) bs
      (projectEntryField textToCstring encoding verifyUtf8 floatText doubleText e fv) := by
  obtain ⟨hstatus, hfile⟩ := hok
  refine .ite (fun hc => (parses_avReadInt32Field h (hstatus hc) _ _ _).last (parses_pure _))
    fun _ => ?_
  refine .ite (fun _ => (parses_avReadLong h).last (parses_pure _)) fun _ => ?_
  refine .ite (fun hc => parses_avReadDataFile h (hfile hc) e) fun _ => ?_
  exact (parses_avSkip h).last (parses_pure e)

/-- **A manifest entry is decoded to its projection.** -/
theorem parses_avDecodeEntry {fields : List (CString × AvSchema)}
    (h : Encodes depth (.record fields) v bs)
    (hok : ∀ fv ∈ fields.zip (recordOf v), EntryFieldOk fv) :
    Parses (avDecodeEntry encoding verifyUtf8 floatText doubleText depth (.record fields)) bs
      (projectEntry textToCstring encoding verifyUtf8 floatText doubleText
        (fields.zip (recordOf v))) :=
  parses_recordFields (fun e _ _ henc hok => parses_avEntryField henc hok e) h hok AvroEntry.zero

theorem parses_avManifestFileField (h : Encodes depth fv.1.2 fv.2 bs)
    (hok : ManifestFileFieldOk fv) (e : AvroManifestFile) :
    Parses (avManifestFileField depth e fv.1) bs
      (projectManifestFileField textToCstring castInt32 e fv) := by
  have hlong := parses_avReadLong h
  refine .ite (fun _ => (parses_avReadString h).last (parses_pure _)) fun _ => ?_
  refine .ite (fun _ => hlong.last (parses_pure _)) fun _ => ?_
  refine .ite (fun hc => (parses_avReadInt32Field h (hok (.inl hc)) _ _ _).last (parses_pure _))
    fun _ => ?_
  refine .ite (fun hc => (parses_avReadInt32Field h (hok (.inr hc)) _ _ _).last (parses_pure _))
    fun _ => ?_
  iterate 9 refine .ite (fun _ => hlong.last (parses_pure _)) fun _ => ?_
  exact (parses_avSkip h).last (parses_pure e)

/-- **A manifest of a manifest list is decoded to its projection.** -/
theorem parses_avDecodeManifestFile {fields : List (CString × AvSchema)}
    (h : Encodes depth (.record fields) v bs)
    (hok : ∀ fv ∈ fields.zip (recordOf v), ManifestFileFieldOk fv) :
    Parses (avDecodeManifestFile depth (.record fields)) bs
      (projectManifestFile textToCstring castInt32 (fields.zip (recordOf v))) :=
  parses_recordFields (fun e _ _ henc hok =>
    parses_avManifestFileField henc hok e) h hok AvroManifestFile.zero

end Records

/-! ### Strings cut at a NUL, and casts -/

/-- What a C string keeps of the strings of an entry. -/
def AvroEntry.cut (e : AvroEntry) : AvroEntry :=
  { e with filePath := e.filePath.map textToCstring
           fileFormat := e.fileFormat.map textToCstring
           referencedDataFile := e.referencedDataFile.map textToCstring }

def AvroEntry.NoNul (e : AvroEntry) : Prop :=
  ∀ p, e.filePath = some p ∨ e.fileFormat = some p ∨ e.referencedDataFile = some p → 0#8 ∉ p

/-- What a C string and an `int32` keep of a manifest. -/
def AvroManifestFile.cut (e : AvroManifestFile) : AvroManifestFile :=
  { e with manifestPath := e.manifestPath.map textToCstring
           addedFilesCount := castInt32 e.addedFilesCount
           existingFilesCount := castInt32 e.existingFilesCount
           deletedFilesCount := castInt32 e.deletedFilesCount }

def AvroManifestFile.Fits (e : AvroManifestFile) : Prop :=
  (∀ p, e.manifestPath = some p → 0#8 ∉ p) ∧ IsInt32 e.addedFilesCount ∧
    IsInt32 e.existingFilesCount ∧
    IsInt32 e.deletedFilesCount

theorem textToCstring_eq_iff {p : List Byte} : textToCstring p = p ↔ 0#8 ∉ p := by
  rw [textToCstring, takeWhile_eq_self_iff]
  constructor
  · intro h hmem
    have hfalse := h 0#8 hmem
    simp at hfalse
  · intro h b hb
    have hne : b ≠ 0#8 := fun heq => h (heq ▸ hb)
    simpa using hne

theorem map_textToCstring_eq_iff {o : Option (List Byte)} :
    o.map textToCstring = o ↔ ∀ p, o = some p → 0#8 ∉ p := by
  cases o with
  | none => simp
  | some p => simp [textToCstring_eq_iff]

theorem castInt32_eq_iff {z : ℤ} : castInt32 z = z ↔ IsInt32 z := by
  unfold castInt32 IsInt32
  rw [Int.bmod_def]
  split <;> omega

theorem AvroEntry.cut_eq_iff {e : AvroEntry} : e.cut = e ↔ e.NoNul := by
  have hcut : e.cut = e ↔ e.filePath.map textToCstring = e.filePath ∧
      e.fileFormat.map textToCstring = e.fileFormat ∧
        e.referencedDataFile.map textToCstring = e.referencedDataFile := by
    obtain ⟨⟩ := e
    simp [AvroEntry.cut]
  rw [hcut, map_textToCstring_eq_iff, map_textToCstring_eq_iff, map_textToCstring_eq_iff]
  constructor
  · intro h p hp
    obtain hp | hp | hp := hp
    · exact h.1 p hp
    · exact h.2.1 p hp
    · exact h.2.2 p hp
  · intro h
    exact ⟨fun p hp => h p (.inl hp), fun p hp => h p (.inr (.inl hp)), fun p hp =>
      h p (.inr (.inr hp))⟩

theorem AvroManifestFile.cut_eq_iff {e : AvroManifestFile} : e.cut = e ↔ e.Fits := by
  have hcut : e.cut = e ↔ e.manifestPath.map textToCstring = e.manifestPath ∧
      castInt32 e.addedFilesCount = e.addedFilesCount ∧
        castInt32 e.existingFilesCount = e.existingFilesCount ∧
        castInt32 e.deletedFilesCount = e.deletedFilesCount := by
    obtain ⟨⟩ := e
    simp [AvroManifestFile.cut]
  rw [hcut, map_textToCstring_eq_iff, castInt32_eq_iff, castInt32_eq_iff, castInt32_eq_iff]
  rfl

theorem ite_hom {α β : Type} {f : α → β} {c : Prop} [Decidable c] {a a' : β} {b b' : α}
    (h : a = f b)
    (h' : a' = f b') : (if c then a else a') = f (if c then b else b') := by
  split
  · exact h
  · exact h'

section Cut

variable (encoding : Bool) (verifyUtf8 : List Byte → Bool)
  (floatText doubleText : List Byte → List Byte)

theorem projectPartition_cut (s : AvSchema) (v : AvValue) (e : AvroEntry) :
    projectPartition encoding verifyUtf8 floatText doubleText s v e.cut =
      (projectPartition encoding verifyUtf8 floatText doubleText s v e).cut := by
  unfold projectPartition
  split <;> rfl

theorem projectDataFileField_cut (e : AvroEntry) (fv : (CString × AvSchema) × AvValue) :
    projectDataFileField textToCstring encoding verifyUtf8 floatText doubleText e.cut fv =
      (projectDataFileField id encoding verifyUtf8 floatText doubleText e fv).cut := by
  unfold projectDataFileField
  simp only [Option.map_id_fun, id_eq]
  iterate 5 refine ite_hom rfl ?_
  refine ite_hom (projectPartition_cut encoding verifyUtf8 floatText doubleText _ _ _) ?_
  iterate 6 refine ite_hom rfl ?_
  rfl

theorem projectDataFile_cut (s : AvSchema) (v : AvValue) (e : AvroEntry) :
    projectDataFile textToCstring encoding verifyUtf8 floatText doubleText s v e.cut =
      (projectDataFile id encoding verifyUtf8 floatText doubleText s v e).cut := by
  unfold projectDataFile
  split
  · exact foldl_hom AvroEntry.cut
      (projectDataFileField_cut encoding verifyUtf8 floatText doubleText)
  · rfl

theorem projectEntryField_cut (e : AvroEntry) (fv : (CString × AvSchema) × AvValue) :
    projectEntryField textToCstring encoding verifyUtf8 floatText doubleText e.cut fv =
      (projectEntryField id encoding verifyUtf8 floatText doubleText e fv).cut := by
  refine ite_hom rfl (ite_hom rfl (ite_hom ?_ rfl))
  exact projectDataFile_cut encoding verifyUtf8 floatText doubleText _ _ _

/-- The decoded entry is the exact one, with its strings cut. -/
theorem projectEntry_cut (fvs : List ((CString × AvSchema) × AvValue)) :
    projectEntry textToCstring encoding verifyUtf8 floatText doubleText fvs =
      (projectEntry id encoding verifyUtf8 floatText doubleText fvs).cut := by
  have hzero : AvroEntry.zero = AvroEntry.zero.cut := rfl
  unfold projectEntry
  rw [hzero]
  exact foldl_hom AvroEntry.cut (projectEntryField_cut encoding verifyUtf8 floatText doubleText)

end Cut

theorem projectManifestFileField_cut (e : AvroManifestFile) (fv : (CString × AvSchema) × AvValue) :
    projectManifestFileField textToCstring castInt32 e.cut fv =
      (projectManifestFileField id id e fv).cut := by
  unfold projectManifestFileField
  simp only [Option.map_id_fun, id_eq]
  iterate 13 refine ite_hom rfl ?_
  rfl

theorem projectManifestFile_cut (fvs : List ((CString × AvSchema) × AvValue)) :
    projectManifestFile textToCstring castInt32 fvs = (projectManifestFile id id fvs).cut := by
  have hzero : AvroManifestFile.zero = AvroManifestFile.zero.cut := rfl
  unfold projectManifestFile
  rw [hzero]
  exact foldl_hom AvroManifestFile.cut projectManifestFileField_cut

/-! ### Any buffer -/

section Safe

variable {encoding : Bool} {verifyUtf8 : List Byte → Bool}
  {floatText doubleText : List Byte → List Byte}

theorem safe_avPresent {α : Type} (s : AvSchema) (null : α) {body : AvSchema → AvReader α}
    (h : ∀ t, Safe AvError.Bad (body t)) : Safe AvError.Bad (avPresent s null body) :=
  (safe_avUnwrapUnion s).bind fun r => Safe.ite (safe_pure null) (h r.1)

theorem safe_avReadString (depth : ℕ) (s : AvSchema) : Safe AvError.Bad (avReadString depth s) := by
  refine safe_avPresent s none fun t => ?_
  have hskip := safe_avSkip depth t
  cases t with
  | string | bytes => exact (safe_avBytes.bind fun _ => safe_pure _).bind fun _ => safe_pure _
  | _ => exact hskip.bind fun _ => safe_pure none

theorem safe_avReadLong (depth : ℕ) (s : AvSchema) : Safe AvError.Bad (avReadLong depth s) := by
  refine safe_avPresent s none fun t => ?_
  have hskip := safe_avSkip depth t
  cases t with
  | int | long => exact safe_avLong.bind fun _ => safe_pure _
  | _ => exact hskip.bind fun _ => safe_pure none

theorem safe_avReadInt32Field (depth : ℕ) (s : AvSchema) (what : String) (path : Option CString)
    (field : String) : Safe AvError.Bad (avReadInt32Field depth s what path field) :=
  (safe_avReadLong depth s).bind fun v => Safe.ite (safe_pure v) (safe_fail (by simp [AvError.Bad]))

theorem safe_avReadIntArray (depth : ℕ) (s : AvSchema) :
    Safe AvError.Bad (avReadIntArray depth s) := by
  have hid : ∀ ids, Safe AvError.Bad (avReadId ids) :=
    fun ids => safe_avLong.bind fun v => Safe.ite (safe_fail not_bad_malformed) (safe_pure _)
  refine safe_avPresent s [] fun t => ?_
  have hskip := safe_avSkip depth t
  cases t with
  | array items =>
    cases items with
    | int | long => exact safe_avBlocks _ _ hid []
    | _ => exact hskip.bind fun _ => safe_pure []
  | _ => exact hskip.bind fun _ => safe_pure []

theorem safe_avReadBoundValue (depth : ℕ) (s : AvSchema) :
    Safe AvError.Bad (avReadBoundValue depth s) := by
  refine safe_avPresent s none fun t => ?_
  have hskip := safe_avSkip depth t
  have hbytes : Safe AvError.Bad avReadBoundBytes :=
    safe_avLong.bind fun len => Safe.ite (safe_fail not_bad_malformed) (safe_avTake len)
  cases t with
  | string | bytes => exact hbytes.bind fun _ => safe_pure _
  | _ => exact hskip.bind fun _ => safe_pure none

theorem safe_avBoundField (depth : ℕ) (b : Option ℤ × Option (List Byte)) (f : CString × AvSchema) :
    Safe AvError.Bad (avBoundField depth b f) := by
  have hkey : Safe AvError.Bad (avReadBoundKey depth f.2) :=
    (safe_avReadLong depth f.2).bind fun v => Safe.ite (safe_pure _) (safe_fail not_bad_malformed)
  refine Safe.ite (hkey.bind fun _ => safe_pure _) (Safe.ite ?_ ?_)
  · exact (safe_avReadBoundValue depth f.2).bind fun _ => safe_pure _
  · exact (safe_avSkip depth f.2).bind fun _ => safe_pure b

theorem safe_avReadBoundMap (depth : ℕ) (s : AvSchema) :
    Safe AvError.Bad (avReadBoundMap depth s) := by
  refine safe_avPresent s [] fun t => ?_
  have hskip := safe_avSkip depth t
  cases t with
  | array items =>
    cases items with
    | record fields =>
      refine safe_avBlocks _ _ (fun bounds => ?_) []
      exact (Safe.fold (safe_avBoundField depth) fields _).bind fun _ => safe_pure _
    | _ => exact hskip.bind fun _ => safe_pure []
  | _ => exact hskip.bind fun _ => safe_pure []

theorem safe_avDecimalField (p : List Byte) (scale : ℕ) :
    Safe AvError.Bad (avDecimalField p scale) := by
  rw [avDecimalField_eq]
  exact safe_pure _

theorem safe_avPartitionValue (depth : ℕ) (t : AvSchema) :
    Safe AvError.Bad (avPartitionValue encoding verifyUtf8 floatText doubleText depth t) := by
  have hskip := safe_avSkip depth t
  cases t with
  | int | long => exact safe_avLong.bind fun _ => safe_pure _
  | bool | float | double => exact (safe_avTake _).bind fun _ => safe_pure _
  | string => exact safe_avBytes.bind fun _ => safe_pure _
  | bytes decimal =>
    cases decimal with
    | none => exact safe_avBytes.bind fun _ => safe_pure _
    | some scale =>
      exact safe_avBytes.bind fun p => (safe_avDecimalField p scale).bind fun _ => safe_pure _
  | fixed size decimal =>
    cases decimal with
    | none => exact (safe_avTake _).bind fun _ => safe_pure _
    | some scale =>
      exact (safe_avTake _).bind fun p => (safe_avDecimalField p scale).bind fun _ => safe_pure _
  | null | enum | record | array | map | union => exact hskip.bind fun _ => safe_pure _

theorem safe_avPartitionFields (depth : ℕ) (fields : List (CString × AvSchema)) (first : Bool) :
    Safe AvError.Bad
      (avPartitionFields encoding verifyUtf8 floatText doubleText depth fields first) := by
  induction fields generalizing first with
  | nil => exact safe_pure _
  | cons f fields ih =>
    have hfield : Safe AvError.Bad
      (avPartitionField encoding verifyUtf8 floatText doubleText depth f) :=
      (safe_avUnwrapUnion f.2).bind fun r => Safe.ite (safe_pure _)
        ((safe_avPartitionValue depth r.1).bind fun _ => safe_pure _)
    exact hfield.bind fun _ => (ih false).bind fun _ => safe_pure _

theorem safe_avReadPartition (depth : ℕ) (s : AvSchema) (e : AvroEntry) :
    Safe AvError.Bad (avReadPartition encoding verifyUtf8 floatText doubleText depth s e) := by
  refine safe_avPresent s e fun t => ?_
  have hskip := safe_avSkip depth t
  cases t with
  | record fields =>
    refine ((safe_avPartitionFields depth fields true).bind fun r => safe_pure _).bind fun r => ?_
    cases r <;> exact safe_pure _
  | _ => exact (hskip.bind fun _ => safe_pure none).bind fun r => by cases r <;> exact safe_pure _

theorem safe_avDataFileField (depth : ℕ) (e : AvroEntry) (f : CString × AvSchema) :
    Safe AvError.Bad (avDataFileField encoding verifyUtf8 floatText doubleText depth e f) := by
  have hstring := safe_avReadString depth f.2
  have hlong := safe_avReadLong depth f.2
  have hbounds := safe_avReadBoundMap depth f.2
  refine Safe.ite (hstring.bind fun _ => safe_pure _) ?_
  refine Safe.ite (hstring.bind fun _ => safe_pure _) ?_
  refine Safe.ite ((safe_avReadInt32Field depth f.2 _ _ _).bind fun _ => safe_pure _) ?_
  refine Safe.ite (hlong.bind fun _ => safe_pure _) ?_
  refine Safe.ite (hlong.bind fun _ => safe_pure _) ?_
  refine Safe.ite (safe_avReadPartition depth f.2 e) ?_
  refine Safe.ite ((safe_avReadIntArray depth f.2).bind fun _ => safe_pure _) ?_
  refine Safe.ite (hbounds.bind fun _ => safe_pure _) ?_
  refine Safe.ite (hbounds.bind fun _ => safe_pure _) ?_
  refine Safe.ite (hstring.bind fun _ => safe_pure _) ?_
  refine Safe.ite (hlong.bind fun _ => safe_pure _) ?_
  refine Safe.ite (hlong.bind fun _ => safe_pure _) ?_
  exact (safe_avSkip depth f.2).bind fun _ => safe_pure e

theorem safe_avDecodeEntry (depth : ℕ) (s : AvSchema) :
    Safe AvError.Bad (avDecodeEntry encoding verifyUtf8 floatText doubleText depth s) := by
  have hfile : ∀ (t : AvSchema) (e : AvroEntry), Safe AvError.Bad
      (avDecodeDataFile encoding verifyUtf8 floatText doubleText depth t e) := by
    intro t e
    cases t with
    | record fields => exact Safe.fold (safe_avDataFileField depth) fields e
    | _ => exact safe_fail not_bad_malformed
  cases s with
  | record fields =>
    refine Safe.fold (fun e f => ?_) fields _
    refine Safe.ite ((safe_avReadInt32Field depth f.2 _ _ _).bind fun _ => safe_pure _) ?_
    refine Safe.ite ((safe_avReadLong depth f.2).bind fun _ => safe_pure _) ?_
    refine Safe.ite (safe_avPresent f.2 e fun t => hfile t e) ?_
    exact (safe_avSkip depth f.2).bind fun _ => safe_pure e
  | _ => exact safe_fail not_bad_malformed

theorem safe_avDecodeManifestFile (depth : ℕ) (s : AvSchema) :
    Safe AvError.Bad (avDecodeManifestFile depth s) := by
  cases s with
  | record fields =>
    refine Safe.fold (fun e f => ?_) fields _
    have hlong := safe_avReadLong depth f.2
    have hint := safe_avReadInt32Field depth f.2
    refine Safe.ite ((safe_avReadString depth f.2).bind fun _ => safe_pure _) ?_
    refine Safe.ite (hlong.bind fun _ => safe_pure _) ?_
    refine Safe.ite ((hint _ _ _).bind fun _ => safe_pure _) ?_
    refine Safe.ite ((hint _ _ _).bind fun _ => safe_pure _) ?_
    iterate 9 refine Safe.ite (hlong.bind fun _ => safe_pure _) ?_
    exact (safe_avSkip depth f.2).bind fun _ => safe_pure e
  | _ => exact safe_fail not_bad_malformed

end Safe

end PgColumnar.Avro
