import PgColumnar.Delete.Protocol
import PgColumnar.Write.Protocol

/-!
# A row by its number, and a scan

The write buffers and the delete marks of one transaction on one relation, put together.  The row
groups that the write buffers write out are the ones that delete marks are made for, and both kinds
of buffers end with the subtransaction that owns them.

`pgcolumnar_index_fetch_tuple` asks the row groups with their delete vectors and the delete marks
in memory, and then the write buffers.  A sequential scan writes the buffers out at its start and
reads row groups and delete vectors only.

## Main definitions

* `fetchRow`, `seqScan` — a row by its number, and a scan.
* `Transaction`, `step` — write buffers and delete marks of one transaction together.
-/

namespace PgColumnar.Fetch

open Bytes Write Delete

variable {ρ : Type*}

/-- What delete marks know of a row group. -/
def groupMeta (g : RowGroup ρ) : RowGroupMeta := ⟨g.groupNumber, g.firstRowNumber, g.rows.length⟩

/-- A committed state.  Group numbers and row numbers are given out once, and a delete vector goes
with its row group. -/
structure Base (ρ : Type*) where
  metapage : Metapage
  rowGroups : List (RowGroup ρ)
  bitmaps : List (ℕ × List Byte)
  groupNumbers : (rowGroups.map (·.groupNumber)).Nodup
  rowNumbers : ((numberedRows rowGroups).map (·.2)).Nodup
  below : ∀ x ∈ numberedRows rowGroups, x.2 < metapage.reservedRowNumber
  vectors : ∀ b ∈ bitmaps, b.1 ∈ rowGroups.map (·.groupNumber)

/-- The part that delete marks are about. -/
def Base.stored (base : Base ρ) : Stored where
  rowGroups := base.rowGroups.map groupMeta
  bitmaps := base.bitmaps
  nodup := by simpa [groupMeta, Function.comp_def] using base.groupNumbers

structure Transaction (ρ : Type*) where
  write : Write.History ρ
  delete : Delete.History

namespace Transaction

def start (base : Base ρ) : Transaction ρ := ⟨.start base.metapage, .start base.stored⟩

/-- The row groups that a step has written, in the catalog that delete marks read. -/
def addRowGroups (groups : List (RowGroup ρ)) (d : Delete.History) : Option Delete.History :=
  groups.foldlM (fun d g => d.step (.insertRowGroup (groupMeta g))) d

variable (t : Transaction ρ)

/-- A step of the write buffers. -/
def stepWrite (a : Write.Action ρ) : Option (Transaction ρ) :=
  (t.write.step a).bind fun w =>
    (addRowGroups (w.session.rowGroups.drop t.write.session.rowGroups.length) t.delete).map fun d =>
      ⟨w, d⟩

/-- A step of the delete marks. -/
def stepDelete (a : Delete.Action) : Option (Transaction ρ) :=
    (t.delete.step a).map fun d => ⟨t.write, d⟩

def stepBoth (a : Write.Action ρ) (b : Delete.Action) : Option (Transaction ρ) :=
  (t.stepWrite a).bind fun t' => t'.stepDelete b

end Transaction

/-- `scan` is the start of a scan; `flushWrites` writes the write buffers out alone, as
`pgcolumnar_tuple_complete_speculative` does before it marks the row. -/
inductive Action (ρ : Type*) where
  | openState (natts : ℕ) (limit : RowLimit)
  | insert (natts : ℕ) (limit : RowLimit) (projections : ℕ) (row : ρ)
  | delete (rowNumber : ℕ)
  | update (rowNumber natts : ℕ) (limit : RowLimit) (projections : ℕ) (row : ρ)
  | scan (rowLock : Bool)
  | flushWrites
  | statementEnd (rowLock : Bool)
  | startSubXact
  | commitSubXact
  | abortSubXact
  | reserve (rowCount : ℕ)

namespace Transaction

variable (t : Transaction ρ)

/-- One action; it is refused where the code raises an error. -/
def step : Action ρ → Option (Transaction ρ)
  | .openState natts limit => t.stepWrite (.openState natts limit)
  | .insert natts limit projections row => t.stepWrite (.append natts limit projections row)
  | .delete rowNumber => t.stepDelete (.mark rowNumber)
  | .update rowNumber natts limit projections row =>
    (t.stepDelete (.mark rowNumber)).bind fun t' =>
      t'.stepWrite (.append natts limit projections row)
  | .scan rowLock => t.stepBoth .readFlush (.scanFlush rowLock)
  | .flushWrites => t.stepWrite .readFlush
  | .statementEnd rowLock => t.stepBoth .statementEnd (.statementEnd rowLock)
  | .startSubXact => t.stepBoth .startSubXact .startSubXact
  | .commitSubXact => t.stepBoth .commitSubXact .commitSubXact
  | .abortSubXact => t.stepBoth .abortSubXact .abortSubXact
  | .reserve rowCount => t.stepWrite (.reserve rowCount)

end Transaction

/-! ### The reads -/

/-- `PgColumnarDeleteVectorBufferedDeleted` -/
def bufferedDeleted (buffers : List Buffer) (rowNumber : ℕ) : Bool :=
  buffers.any fun b => b.chunks.any fun c =>
    c.group.covers rowNumber && bitAt c.mask (rowNumber - c.group.firstRowNumber)

/-- A write state in `PgColumnarBufferedRowByNumber`. -/
def stateRow (rowNumber : ℕ) (ws : WriteState ρ) : Option ρ :=
  match ws.stripe with
  | none => none
  | some st =>
    if rowNumber < st.firstRowNumber ∨ st.firstRowNumber + st.rows.length ≤ rowNumber then none
    else st.rows[rowNumber - st.firstRowNumber]?

/-- `PgColumnarBufferedRowByNumber` -/
def bufferedRow (states : List (WriteState ρ)) (rowNumber : ℕ) : Option ρ :=
  states.findSome? (stateRow rowNumber)

section Reads

variable (base : Base ρ) (t : Transaction ρ)

/-- The row groups that the catalog shows. -/
def rowGroups : List (RowGroup ρ) := base.rowGroups ++ t.write.session.rowGroups

/-- The bit of a row of a group in the delete vectors that the catalog shows. -/
def storedBit (g : RowGroup ρ) (rowNumber : ℕ) : Bool :=
  bitAt (storedBitmap t.delete.session.deleteVectors t.delete.session.stack.current g.groupNumber)
    (rowNumber - g.firstRowNumber)

/-- `pgcolumnar_fetch_row` -/
def fetchRow (rowNumber : ℕ) : Option ρ :=
  match (rowGroups base t).find? fun g => (groupMeta g).covers rowNumber with
  | none => none
  | some g =>
    if bufferedDeleted t.delete.session.buffers rowNumber || storedBit t g rowNumber then none
    else g.rows[rowNumber - g.firstRowNumber]?

/-- `pgcolumnar_index_fetch_tuple` under an MVCC snapshot. -/
def indexFetch (rowNumber : ℕ) : Option ρ :=
  (fetchRow base t rowNumber).or (bufferedRow t.write.session.states rowNumber)

/-- What a sequential scan returns once it has written the buffers out. -/
def scanRows : List (ρ × ℕ) :=
  (rowGroups base t).flatMap fun g =>
    (g.rows.zipIdx g.firstRowNumber).filter fun x => !storedBit t g x.2

/-- A sequential scan that starts now; absent where it raises an error. -/
def seqScan (rowLock : Bool) : Option (List (ρ × ℕ)) :=
  (t.step (.scan rowLock)).map (scanRows base)

/-- The row is in a buffer of an enclosing subtransaction that was written out and kept. -/
def keptRow (rowNumber : ℕ) : Bool :=
  t.write.session.states.any fun ws => ws.flushedUnder.isSome && (stateRow rowNumber ws).isSome

/-- The row has been deleted: it is marked in memory, or in a delete vector. -/
def deleted (rowNumber : ℕ) : Bool :=
  bufferedDeleted t.delete.session.buffers rowNumber ||
    (rowGroups base t).any fun g => (groupMeta g).covers rowNumber && storedBit t g rowNumber

end Reads

end PgColumnar.Fetch
