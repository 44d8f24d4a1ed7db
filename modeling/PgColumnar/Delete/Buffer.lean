import PgColumnar.Lib.Bitmap
import PgColumnar.Lib.Nested
import PgColumnar.Lib.Run

/-!
# The delete marks of one relation

A delete sets a bit in an in-memory buffer of the subtransaction that deletes, one
mask for each row group (`columnar_delete_vector.c`).  A flush merges the masks into
the rows of `pgcolumnar.delete_vector`; as with the write buffers, what it writes
belongs to the subtransaction that is current then, so a scan below the owner
writes the marks out and keeps them.

The upsert merges the stored bits into the mask it is given in place
(`PgColumnarUpsertDeleteVector`), so a kept mask is copied first.

A catalog row is written as a new version over the one that was visible; a version
goes with the subtransaction that wrote it.  Versions are listed newest first, and
zero stands for what was committed before the transaction.  A flush that raises
ends its subtransaction, so it is not an action of its own here but an abort.

## Main definitions

* `markRowDeleted`, `flushBuffer` — marks in memory, and how they reach the catalog.
* `History`, `step` — a transaction with its subtransactions, and what it has marked.
-/

namespace PgColumnar.Delete

open Nested Bytes

/-- A row of `pgcolumnar.row_group`: the row numbers a group covers. -/
structure RowGroupMeta where
  groupNumber : ℕ
  firstRowNumber : ℕ
  rowCount : ℕ
  deriving DecidableEq

namespace RowGroupMeta

def covers (g : RowGroupMeta) (rowNumber : ℕ) : Bool :=
  g.firstRowNumber ≤ rowNumber && rowNumber < g.firstRowNumber + g.rowCount

/-- Bytes of a mask with one bit for each row of the group. -/
def maskLen (g : RowGroupMeta) : ℕ := (g.rowCount + 7) / 8

end RowGroupMeta

/-- `DeleteVectorChunkBuffer`: the marks for one row group.  The chunk id is always 0,
and stripe id, start row number and row count are the group's. -/
structure Chunk where
  group : RowGroupMeta
  mask : List Byte

/-- `DeleteVectorBuffer`; `lastChunk` only saves a search and is left out. -/
structure Buffer where
  subid : ℕ
  chunks : List Chunk
  rowGroupCache : List RowGroupMeta
  lastGroup : Option RowGroupMeta
  flushedUnder : Option ℕ

/-- A version of a row of `pgcolumnar.delete_vector` and the subtransaction that
wrote it, zero when it was there before the transaction. -/
structure DeleteVectorRow where
  groupNumber : ℕ
  deletedCount : ℕ
  bitmap : List Byte
  subid : ℕ

/-! ### Marking -/

/-- `delete_vector_find_row_group`: the group found last, then the cache, then the
catalog, which replaces the cache. -/
def findRowGroup (catalog : List RowGroupMeta) (buf : Buffer) (rowNumber : ℕ) :
    Option (RowGroupMeta × Buffer) :=
  match buf.lastGroup.filter (·.covers rowNumber) with
  | some g => some (g, buf)
  | none =>
    match buf.rowGroupCache.find? (·.covers rowNumber) with
    | some g => some (g, { buf with lastGroup := some g })
    | none =>
      match catalog.find? (·.covers rowNumber) with
      | some g => some (g, { buf with rowGroupCache := catalog, lastGroup := some g })
      | none => none

/-- Set a bit in the chunk of a row group, as `delete_vector_get_chunk` finds or
makes it. -/
def markChunk (g : RowGroupMeta) (bitIndex : ℕ) : List Chunk → List Chunk
  | [] => [⟨g, setBit (zeros g.maskLen) bitIndex⟩]
  | c :: cs =>
    if c.group.groupNumber = g.groupNumber ∧ c.group.firstRowNumber = g.firstRowNumber then
      { c with mask := setBit c.mask bitIndex } :: cs
    else c :: markChunk g bitIndex cs

/-- `PgColumnarMarkRowDeleted` once the buffer is found: the buffer and the bit
marked, or an error when no row group covers the row. -/
def markInBuffer (catalog : List RowGroupMeta) (rowNumber : ℕ) (buf : Buffer) :
    Option (Buffer × (ℕ × ℕ)) :=
  (findRowGroup catalog buf rowNumber).map fun r =>
    let bitIndex := rowNumber - r.1.firstRowNumber
    ({ r.2 with chunks := markChunk r.1 bitIndex r.2.chunks }, (r.1.groupNumber, bitIndex))

/-- `delete_vector_get_buffer` and the mark in it. -/
def markRowDeleted (current : ℕ) (catalog : List RowGroupMeta) (rowNumber : ℕ) :
    List Buffer → Option (List Buffer × (ℕ × ℕ))
  | [] => (markInBuffer catalog rowNumber ⟨current, [], [], none, none⟩).map fun r => ([r.1], r.2)
  | buf :: bufs =>
    if buf.subid = current then
      (markInBuffer catalog rowNumber buf).map fun r => (r.1 :: bufs, r.2)
    else (markRowDeleted current catalog rowNumber bufs).map fun r => (buf :: r.1, r.2)

/-! ### Flushing -/

/-- The bitmap a scan of `delete_vector` under `SnapshotSelf` finds for a group, if
only the versions of subtransactions up to `upto` are there. -/
def storedBitmap (rows : List DeleteVectorRow) (upto groupNumber : ℕ) : List Byte :=
  match rows.find? fun r => r.groupNumber = groupNumber ∧ r.subid ≤ upto with
  | none => []
  | some r => r.bitmap

/-- `PgColumnarUpsertDeleteVector`: the new version on top, and the bitmap it was
given, into which the stored bits have been merged. -/
def upsertDeleteVector (current : ℕ) (rows : List DeleteVectorRow) (groupNumber : ℕ)
    (bitmap : List Byte) : List DeleteVectorRow × List Byte :=
  match rows.find? fun r => r.groupNumber = groupNumber with
  | none => (⟨groupNumber, popcount bitmap, bitmap, current⟩ :: rows, bitmap)
  | some r =>
    let merged := orBytes bitmap r.bitmap
    (⟨groupNumber, popcount merged, merged, current⟩ :: rows, merged)

/-- The upserts of `delete_vector_flush_buffer`, one a chunk.  A kept mask stays as
it was, since the upsert gets a copy of it. -/
def flushChunks (current : ℕ) (keep : Bool) :
    List DeleteVectorRow → List Chunk → List DeleteVectorRow × List Chunk
  | rows, [] => (rows, [])
  | rows, c :: cs =>
    let u := upsertDeleteVector current rows c.group.groupNumber c.mask
    let c' := if keep then c else { c with mask := u.2 }
    let r := flushChunks current keep u.1 cs
    (r.1, c' :: r.2)

/-- `delete_vector_chunk_cmp`. -/
def chunkLe (a b : Chunk) : Bool :=
  a.group.groupNumber < b.group.groupNumber ||
    (a.group.groupNumber == b.group.groupNumber && a.group.firstRowNumber ≤ b.group.firstRowNumber)

/-- `committed_deleted_in`: a covering group exists and its bit is set. -/
def committedDeleted (catalog : List RowGroupMeta) (rows : List DeleteVectorRow)
    (current rowNumber : ℕ) : Bool :=
  match catalog.find? (·.covers rowNumber) with
  | none => false
  | some g => bitAt (storedBitmap rows current g.groupNumber) (rowNumber - g.firstRowNumber)

/-- The conflict `PgColumnarSerializeFlushRows` raises an error for. -/
def conflict (catalog : List RowGroupMeta) (rows : List DeleteVectorRow) (current : ℕ)
    (chunks : List Chunk) : Bool :=
  chunks.any fun c => (List.range (8 * c.mask.length)).any fun i =>
    bitAt c.mask i && committedDeleted catalog rows current (c.group.firstRowNumber + i)

/-- `row_group_exists`. -/
def rowGroupExists (catalog : List RowGroupMeta) (groupNumber : ℕ) : Bool :=
  catalog.any (·.groupNumber = groupNumber)

/-- `delete_vector_reset_buffer`. -/
def Buffer.reset (buf : Buffer) : Buffer :=
  { buf with chunks := [], rowGroupCache := [], lastGroup := none }

/-- `delete_vector_flush_buffer`; `none` is a serialization failure, of the row check
or because a row group is gone.  `rowLock` is `pgcolumnar.enable_row_update_lock`. -/
def flushBuffer (catalog : List RowGroupMeta) (rowLock : Bool) (current : ℕ) (keep : Bool)
    (buf : Buffer) (rows : List DeleteVectorRow) : Option (Buffer × List DeleteVectorRow) :=
  if buf.chunks.isEmpty then some (buf, rows)
  else if rowLock && conflict catalog rows current buf.chunks then none
  else if buf.chunks.any fun c => !rowGroupExists catalog c.group.groupNumber then none
  else
    let r := flushChunks current keep rows (buf.chunks.mergeSort chunkLe)
    some (if keep then { buf with chunks := r.2 } else buf.reset, r.1)

/-- One buffer in `PgColumnarFlushDeleteVectorForRelation`. -/
def flushForScan (catalog : List RowGroupMeta) (rowLock : Bool) (current : ℕ)
    (buf : Buffer) (rows : List DeleteVectorRow) : Option (Buffer × List DeleteVectorRow) :=
  let keep : Bool := buf.subid ≠ current
  if buf.flushedUnder.isSome then some (buf, rows)
  else
    (flushBuffer catalog rowLock current keep buf rows).map fun r =>
      if keep && !r.1.chunks.isEmpty then ({ r.1 with flushedUnder := some current }, r.2) else r

/-- One buffer in `PgColumnarFlushDeleteVectorsOfSubXact`. -/
def flushOfSubXact (catalog : List RowGroupMeta) (rowLock : Bool) (subid : ℕ)
    (buf : Buffer) (rows : List DeleteVectorRow) : Option (Buffer × List DeleteVectorRow) :=
  if buf.subid = subid then flushBuffer catalog rowLock subid false buf rows else some (buf, rows)

/-- A loop over the buffers that writes to the catalog. -/
def flushEach (f : Buffer → List DeleteVectorRow → Option (Buffer × List DeleteVectorRow)) :
    List Buffer → List DeleteVectorRow → Option (List Buffer × List DeleteVectorRow)
  | [], rows => some ([], rows)
  | buf :: bufs, rows =>
    (f buf rows).bind fun r => (flushEach f bufs r.2).map fun rest => (r.1 :: rest.1, rest.2)

/-! ### Subtransaction ends -/

/-- One buffer in `PgColumnarDeleteVectorPromoteSubXact`. -/
def promoteBuffer (subid parent : ℕ) (buf : Buffer) : Buffer :=
  let buf := { buf with subid := promote subid parent buf.subid }
  if buf.flushedUnder = some subid then
    if parent = buf.subid then { buf.reset with flushedUnder := none }
    else { buf with flushedUnder := some parent }
  else buf

/-- One buffer in `PgColumnarDeleteVectorDiscardSubXact`. -/
def discardBuffer (subid : ℕ) (buf : Buffer) : Option Buffer :=
  if buf.subid = subid then none
  else if buf.flushedUnder = some subid then some { buf with flushedUnder := none }
  else some buf

/-! ### The transaction -/

/-- What is stored when the transaction starts; a group number names one row group. -/
structure Stored where
  rowGroups : List RowGroupMeta
  bitmaps : List (ℕ × List Byte)
  nodup : (rowGroups.map (·.groupNumber)).Nodup

/-- One transaction's view of the relation.  A row group carries the subtransaction
that inserted it, zero when it was there before. -/
structure Session where
  stack : Stack
  rowGroups : List (ℕ × RowGroupMeta)
  deleteVectors : List DeleteVectorRow
  buffers : List Buffer

namespace Session

/-- The row groups the catalog shows. -/
def catalog (s : Session) : List RowGroupMeta := s.rowGroups.map (·.2)

def start (base : Stored) : Session where
  stack := Stack.start
  rowGroups := base.rowGroups.map (0, ·)
  deleteVectors := base.bitmaps.map fun b => ⟨b.1, popcount b.2, b.2, 0⟩
  buffers := []

/-- A loop over the buffers. -/
def forEach (s : Session)
    (f : Buffer → List DeleteVectorRow → Option (Buffer × List DeleteVectorRow)) : Option Session :=
  (flushEach f s.buffers s.deleteVectors).map fun r =>
    { s with buffers := r.1, deleteVectors := r.2 }

/-- `PgColumnarFlushDeleteVectorForRelation`. -/
def scanFlush (s : Session) (rowLock : Bool) : Option Session :=
  s.forEach (flushForScan s.catalog rowLock s.stack.current)

/-- `PgColumnarFlushDeleteVectorsOfSubXact` for the current subtransaction. -/
def statementEnd (s : Session) (rowLock : Bool) : Option Session :=
  s.forEach (flushOfSubXact s.catalog rowLock s.stack.current)

/-- The pre-commit call of `PgColumnarFlushAllDeleteVectors`. -/
def flushAllDeleteVectors (s : Session) (rowLock : Bool) : Option Session :=
  s.forEach (flushBuffer s.catalog rowLock s.stack.current false)

/-- A row group is written under the current subtransaction; `row_group_pkey` refuses
a number that is there already. -/
def insertRowGroup (s : Session) (g : RowGroupMeta) : Option Session :=
  if rowGroupExists s.catalog g.groupNumber then none
  else some { s with rowGroups := s.rowGroups ++ [(s.stack.current, g)] }

/-- Commit of the current subtransaction. -/
def commitSubXact (s : Session) : Option Session :=
  s.stack.pop.map fun t =>
    { stack := t
      rowGroups := s.rowGroups.map (Prod.map (promote s.stack.current t.current) id)
      deleteVectors := s.deleteVectors.map fun r =>
        { r with subid := promote s.stack.current t.current r.subid }
      buffers := s.buffers.map (promoteBuffer s.stack.current t.current) }

/-- Abort of the current subtransaction. -/
def abortSubXact (s : Session) : Option Session :=
  s.stack.pop.map fun t =>
    { stack := t
      rowGroups := s.rowGroups.filter (·.1 ≠ s.stack.current)
      deleteVectors := s.deleteVectors.filter (·.subid ≠ s.stack.current)
      buffers := s.buffers.filterMap (discardBuffer s.stack.current) }

end Session

/-- What a transaction can do to the relation's delete marks. -/
inductive Action where
  | mark (rowNumber : ℕ)
  | insertRowGroup (g : RowGroupMeta)
  | scanFlush (rowLock : Bool)
  | statementEnd (rowLock : Bool)
  | startSubXact
  | commitSubXact
  | abortSubXact

/-- A transaction together with the journal of the bits it marked, each as its group
number and bit index. -/
structure History where
  session : Session
  journal : Journal (ℕ × ℕ)

namespace History

def start (base : Stored) : History := ⟨Session.start base, Journal.empty⟩

/-- One action; it is refused where the code raises an error. -/
def step (h : History) : Action → Option History
  | .mark rowNumber =>
    (markRowDeleted h.session.stack.current h.session.catalog rowNumber h.session.buffers).map
      fun r => ⟨{ h.session with buffers := r.1 }, h.journal.record h.session.stack.current r.2⟩
  | .insertRowGroup g => (h.session.insertRowGroup g).map fun s => { h with session := s }
  | .scanFlush rowLock => (h.session.scanFlush rowLock).map fun s => { h with session := s }
  | .statementEnd rowLock => (h.session.statementEnd rowLock).map fun s => { h with session := s }
  | .startSubXact => some { h with session := { h.session with stack := h.session.stack.push } }
  | .commitSubXact =>
    h.session.commitSubXact.map fun s =>
      ⟨s, h.journal.commit h.session.stack.current s.stack.current⟩
  | .abortSubXact =>
    h.session.abortSubXact.map fun s => ⟨s, h.journal.abort h.session.stack.current⟩

end History

end PgColumnar.Delete
