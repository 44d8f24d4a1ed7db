import Mathlib.Data.List.Sort
import PgColumnar.Lib.Dirty
import PgColumnar.Lib.Run

/-!
# The fetch caches

A fetch by row number looks up the row group that covers the row, and then the decoded columns of
that group (`columnar_reader.c`).  Both are cached while a transaction runs one command: the list of
row groups for each snapshot content (the memo), and the column chunks of a group (the slots).

The catalog rows of a group are versions, with the subtransaction and the command that wrote them,
and those that deleted them.  A group is written again under its number when the subtransaction
that wrote out a kept buffer is rolled back; the buffer has only grown in the meantime.  What other
transactions did does not change for a snapshot.

## Main definitions

* `Memo`, `Slot` — the two caches.
* `fetch`, `fetchUncached` — a row by its number, with them and without.
* `Benign` — the events after which the caches are transparent.
-/

namespace PgColumnar.Cache

open Dirty

/-- A row of `row_group` with the rows it describes; a row is the list of its values. -/
structure Group (α : Type) where
  storageId : ℕ
  groupNumber : ℕ
  firstRowNumber : ℕ
  fileOffset : ℕ
  natts : ℕ
  rows : List (List α)
  deriving DecidableEq

/-- A row of `column_chunk` with what it decodes to. -/
structure Chunk (α : Type) where
  storageId : ℕ
  groupNumber : ℕ
  columnIndex : ℕ
  values : List (Option α)
  deriving DecidableEq

/-- Who wrote or deleted a catalog row: a subtransaction of the own transaction with the command
id, or another transaction. -/
inductive Xid where
  | own (sub cid : ℕ)
  | other (x : ℕ)
  deriving DecidableEq

/-- `σ` is what an MVCC snapshot holds besides the command id.  Of any other kind of snapshot only
what it shows at this moment is known, by who wrote and who deleted a row. -/
inductive Snapshot (σ : Type) where
  | mvcc (content : σ) (curcid : ℕ)
  | other (shows : Xid → Option Xid → Bool)

/-- `PgColumnarGroupMemo` -/
structure Memo (σ α : Type) where
  storageId : ℕ
  cid : ℕ
  content : σ
  curcid : ℕ
  groups : List (Group α)
  lastGroup : Option (Group α)

/-- `PgColumnarFetchGroup`; `columns` is `ccForCol`. -/
structure Slot (α : Type) where
  storageId : ℕ
  groupNumber : ℕ
  cid : ℕ
  firstRowNumber : ℕ
  rowCount : ℕ
  fileOffset : ℕ
  natts : ℕ
  columns : List (Option (Chunk α))

/-- The entries of a cache are listed with the one used last in front.  `truncatedBy` are the
subtransactions that have truncated a storage they had created, and `truncatedByOthers` other
transactions; `dropped` are the storages that went when their creation was rolled back. -/
structure State (σ α : Type) where
  cid : ℕ
  aborted : List ℕ
  dropped : List ℕ
  truncatedBy : List (ℕ × ℕ)
  truncatedByOthers : List (ℕ × ℕ)
  rowGroup : List (Version Xid (Group α))
  columnChunk : List (Version Xid (Chunk α))
  memo : List (Memo σ α)
  slots : List (Slot α)

variable {σ α : Type}

namespace Group

def rowCount (g : Group α) : ℕ := g.rows.length

def covers (rowNumber : ℕ) (g : Group α) : Bool :=
  decide (g.firstRowNumber ≤ rowNumber ∧ rowNumber < g.firstRowNumber + g.rowCount)

def chunk (g : Group α) (c : ℕ) : Chunk α := ⟨g.storageId, g.groupNumber, c, g.rows.map (·[c]?)⟩

/-- What the chunks of the group give for the columns of the relation. -/
def columns (g : Group α) (natts : ℕ) : List (Option (Chunk α)) :=
  (List.range natts).map fun c => if c < g.natts then some (g.chunk c) else none

/-- The two groups have one number, or row numbers in common. -/
def clashes (g h : Group α) : Bool :=
  decide (g.storageId = h.storageId) && (decide (g.groupNumber = h.groupNumber) ||
    !decide (g.firstRowNumber + g.rowCount ≤ h.firstRowNumber ∨
      h.firstRowNumber + h.rowCount ≤ g.firstRowNumber))

end Group

/-- `COLUMNAR_GROUP_MEMO_ENTRIES`, `COLUMNAR_FETCH_CACHE_ENTRIES` -/
def cacheEntries : ℕ := 4

/-- `PgColumnarCatalogSnapshot` -/
def catalogSnapshot (now : ℕ) : Snapshot σ → Snapshot σ
  | .mvcc content curcid => .mvcc content (if curcid ≤ now then now + 1 else curcid)
  | .other shows => .other shows

/-! ### The uncached reads -/

section Reads

variable (seen : σ → ℕ → Bool) (s : State σ α)

namespace State

/-- The transaction counts as committed for the snapshot; `seen` says so of the others. -/
def seesXid (content : σ) (curcid : ℕ) : Xid → Bool
  | .own sub cid => decide (sub ∉ s.aborted) && decide (cid < curcid)
  | .other x => seen content x

def shows {β : Type} (snapshot : Snapshot σ) (v : Version Xid β) : Bool :=
  match snapshot with
  | .mvcc content curcid =>
    s.seesXid seen content curcid v.xmin && !v.xmax.any (s.seesXid seen content curcid)
  | .other shows => shows v.xmin v.xmax

/-- `PgColumnarReadRowGroupList` -/
def readRowGroupList (snapshot : Snapshot σ) (storageId : ℕ) : List (Group α) :=
  ((s.rowGroup.filter fun v => s.shows seen snapshot v && decide (v.val.storageId = storageId)).map
    (·.val)).insertionSort fun g h => g.groupNumber ≤ h.groupNumber

/-- The group that an uncached read finds for a row. -/
def readRowGroup (snapshot : Snapshot σ) (storageId rowNumber : ℕ) : Option (Group α) :=
  (s.readRowGroupList seen snapshot storageId).find? (Group.covers rowNumber)

/-- `PgColumnarReadColumnChunkList`, by column: the last row that is read counts. -/
def readColumns (snapshot : Snapshot σ) (storageId groupNumber natts : ℕ) :
    List (Option (Chunk α)) :=
  (List.range natts).map fun c =>
    ((s.columnChunk.filter fun d => s.shows seen snapshot d && decide (d.val.storageId = storageId ∧
      d.val.groupNumber = groupNumber ∧ d.val.columnIndex = c)).getLast?).map (·.val)

end State

end Reads

/-! ### The memo -/

/-- `pgcolumnar_group_memo_walk` -/
def Memo.walk (m : Memo σ α) (rowNumber : ℕ) : Option (Group α) × Memo σ α :=
  match m.lastGroup.filter (Group.covers rowNumber) with
  | some g => (some g, m)
  | none =>
    match m.groups.find? (Group.covers rowNumber) with
    | some g => (some g, { m with lastGroup := some g })
    | none => (none, m)

section Caches

variable [DecidableEq σ] (seen : σ → ℕ → Bool) (s : State σ α)

/-- The key of the memo; `pgcolumnar_snapshot_same_read` compares the content. -/
def Memo.isFor (storageId cid : ℕ) (content : σ) (curcid : ℕ) (m : Memo σ α) : Bool :=
  decide (m.storageId = storageId ∧ m.cid = cid ∧ m.content = content ∧ m.curcid = curcid)

namespace State

/-- `pgcolumnar_group_memo_fill` -/
def fillMemo (storageId : ℕ) (content : σ) (curcid : ℕ) : Memo σ α :=
  ⟨storageId, s.cid, content, curcid, s.readRowGroupList seen
    (.mvcc content curcid) storageId, none⟩

/-- The entry used last, in front of the others; the last of them goes if there are too many. -/
def putMemo (m : Memo σ α) : State σ α :=
  { s with memo := (m :: s.memo.filter fun e =>
    !e.isFor m.storageId m.cid m.content m.curcid).take cacheEntries }

/-- `pgcolumnar_lookup_row_group` -/
def lookup (snapshot : Snapshot σ) (storageId rowNumber : ℕ) : Option (Group α) × State σ α :=
  match snapshot with
  | .other _ => (s.readRowGroup seen snapshot storageId rowNumber, s)
  | .mvcc content curcid =>
    let fresh := (s.fillMemo seen storageId content curcid).walk rowNumber
    match s.memo.find? (Memo.isFor storageId s.cid content curcid) with
    | some m =>
      match m.walk rowNumber with
      | (some g, m') => (some g, s.putMemo m')
      | (none, _) => (fresh.1, s.putMemo fresh.2)
    | none => (fresh.1, s.putMemo fresh.2)

end State

/-! ### The slots -/

/-- The geometry of the entry is that of the group. -/
def Slot.describes (e : Slot α) (g : Group α) : Bool :=
  decide (e.storageId = g.storageId ∧ e.groupNumber = g.groupNumber ∧
    e.firstRowNumber = g.firstRowNumber ∧ e.rowCount = g.rowCount ∧ e.fileOffset = g.fileOffset)

def Slot.isFor (g : Group α) (e : Slot α) : Bool :=
  decide (e.storageId = g.storageId ∧ e.groupNumber = g.groupNumber)

namespace State

/-- The entry that a miss fills. -/
def fillSlot (snapshot : Snapshot σ) (g : Group α) (natts : ℕ) : Slot α :=
  ⟨g.storageId, g.groupNumber, s.cid, g.firstRowNumber, g.rowCount, g.fileOffset, natts,
    s.readColumns seen snapshot g.storageId g.groupNumber natts⟩

/-- `pgcolumnar_fetch_group_slot`, with the check of the geometry that follows it: the columns
that are served.  The entries of earlier commands are dropped. -/
def fetchGroup (snapshot : Snapshot σ) (g : Group α) (natts : ℕ) :
    List (Option (Chunk α)) × State σ α :=
  let live := s.slots.filter fun e => decide (e.cid = s.cid)
  let fresh := s.fillSlot seen snapshot g natts
  let put := fun e => { s with
    slots := (e :: live.filter fun e => !e.isFor g).take cacheEntries }
  match live.find? (Slot.isFor g) with
  | some e =>
    if e.describes g ∧ e.natts = natts then (e.columns, put e) else (fresh.columns, put fresh)
  | none => (fresh.columns, put fresh)

/-- `pgcolumnar_fetch_row`: the row group, and the columns it is decoded from.  `decodes` says that
the row is not deleted and its values are asked for. -/
def fetch (snapshot : Snapshot σ) (storageId rowNumber natts : ℕ) (decodes : Bool) :
    Option (Group α × Option (List (Option (Chunk α)))) × State σ α :=
  let metaSnapshot := catalogSnapshot s.cid snapshot
  match s.lookup seen metaSnapshot storageId rowNumber with
  | (none, s') => (none, s')
  | (some g, s') =>
    if decodes then
      let r := s'.fetchGroup seen metaSnapshot g natts
      (some (g, some r.1), r.2)
    else (some (g, none), s')

/-- The same without the caches. -/
def fetchUncached (snapshot : Snapshot σ) (storageId rowNumber natts : ℕ) (decodes : Bool) :
    Option (Group α × Option (List (Option (Chunk α)))) :=
  let metaSnapshot := catalogSnapshot s.cid snapshot
  (s.readRowGroup seen metaSnapshot storageId rowNumber).map fun g =>
    (g, if decodes then some (s.readColumns seen metaSnapshot g.storageId g.groupNumber natts)
      else none)

end State

end Caches

/-! ### Events -/

inductive Action (σ α : Type) where
  /-- A row group is written, its catalog rows at some places of the scan orders. -/
  | flush (sub : ℕ) (g : Group α) (place : ℕ) (places : ℕ → ℕ)
  | retire (sub storageId groupNumber : ℕ)
  | truncate (sub storageId : ℕ)
  | abort (subs : List ℕ)
  | commandIncrement
  | executorEnd
  | fetch (snapshot : Snapshot σ) (storageId rowNumber natts : ℕ) (decodes : Bool)

namespace State

variable (s : State σ α)

def rolledBack {β : Type} (v : Version Xid β) : Bool :=
  match v.xmin with
  | .own sub _ => decide (sub ∈ s.aborted)
  | .other _ => false

/-- The group went with a truncation, which is rolled back with the relation only. -/
def truncated (v : Version Xid (Group α)) : Bool :=
  match v.xmax with
  | none => false
  | some (.own sub _) => decide ((sub, v.val.storageId) ∈ s.truncatedBy)
  | some (.other x) => decide ((x, v.val.storageId) ∈ s.truncatedByOthers)

/-- The row is not deleted, or its deletion was rolled back. -/
def undeleted {β : Type} (v : Version Xid β) : Bool :=
  match v.xmax with
  | none => true
  | some (.own sub _) => decide (sub ∈ s.aborted)
  | some (.other _) => false

/-- `CatalogTupleDelete` of the rows that are there. -/
def deleteRows {β : Type} (sub : ℕ) (p : β → Bool) (tab : List (Version Xid β)) :
    List (Version Xid β) :=
  tab.map fun v =>
    if p v.val && !s.rolledBack v && s.undeleted v
      then { v with xmax := some (.own sub s.cid) } else v

variable [DecidableEq α]

/-- A group may be written: its number and its row numbers are not in use, and a group that was
written before under its number came from the same buffer, which has only grown. -/
def canFlush (sub : ℕ) (g : Group α) : Prop :=
  sub ∉ s.aborted ∧ g.storageId ∉ s.dropped ∧
    (∀ v ∈ s.rowGroup, s.rolledBack v = true ∨ s.truncated v = true ∨ v.val.clashes g = false) ∧
    ∀ v ∈ s.rowGroup, s.truncated v = false → v.val.storageId = g.storageId →
      v.val.groupNumber = g.groupNumber →
      v.val.firstRowNumber = g.firstRowNumber ∧ v.val.natts = g.natts ∧ v.val.rows <+: g.rows

instance (sub : ℕ) (g : Group α) : Decidable (s.canFlush sub g) :=
  inferInstanceAs (Decidable (_ ∧ _))

/-- The chunk rows of a group that is written. -/
def insertChunks (sub : ℕ) (g : Group α) (places : ℕ → ℕ) : List (Version Xid (Chunk α)) :=
  (List.range g.natts).foldl
    (fun tab c => insertAt (places c) ⟨g.chunk c, .own sub s.cid, none⟩ tab) s.columnChunk

/-- One event; the resets of the caches are where the source has them. -/
def step [DecidableEq σ] (seen : σ → ℕ → Bool) : Action σ α → Option (State σ α)
  | .flush sub g place places =>
    if s.canFlush sub g then
      some { s with
        rowGroup := insertAt place ⟨g, .own sub s.cid, none⟩ s.rowGroup
        columnChunk := s.insertChunks sub g places }
    else none
  | .retire sub storageId groupNumber =>
    if sub ∉ s.aborted ∧ storageId ∉ s.dropped then
      some { s with
        rowGroup := s.deleteRows sub (fun g =>
          decide (g.storageId = storageId ∧ g.groupNumber = groupNumber))
          s.rowGroup
        columnChunk := s.deleteRows sub
          (fun d => decide (d.storageId = storageId ∧ d.groupNumber = groupNumber)) s.columnChunk
        memo := [] }
    else none
  | .truncate sub storageId =>
    if sub ∉ s.aborted ∧ storageId ∉ s.dropped then
      some { s with
        rowGroup := s.deleteRows sub (fun g => decide (g.storageId = storageId)) s.rowGroup
        columnChunk := s.deleteRows sub (fun d => decide (d.storageId = storageId)) s.columnChunk
        truncatedBy := (sub, storageId) :: s.truncatedBy
        memo := [] }
    else none
  | .abort subs =>
    some { s with
      aborted := s.aborted ++ subs
      dropped := s.dropped ++ (s.truncatedBy.filter fun t => decide (t.1 ∈ subs)).map (·.2)
      memo := [] }
  | .commandIncrement => some { s with cid := s.cid + 1 }
  | .executorEnd => some { s with memo := [], slots := [] }
  | .fetch snapshot storageId rowNumber natts decodes =>
    if storageId ∉ s.dropped then some (s.fetch seen snapshot storageId rowNumber natts decodes).2
    else none

end State

/-- A committed state.  Of the rows that one snapshot sees no two have a number or row numbers in
common, and the versions of a group come from one buffer, but for those that went with a truncation,
which is by the transaction that has created the relation. -/
structure Base (seen : σ → ℕ → Bool) (α : Type) where
  truncatedBy : List (ℕ × ℕ)
  rowGroup : List (Version Xid (Group α))
  columnChunk : List (Version Xid (Chunk α))
  others : ∀ v ∈ rowGroup, (∃ x, v.xmin = .other x) ∧ ∀ d ∈ v.xmax, ∃ x, d = .other x
  chunks : columnChunk.Perm (rowGroup.flatMap fun v =>
    (List.range v.val.natts).map fun c => ⟨v.val.chunk c, v.xmin, v.xmax⟩)
  one : ∀ c, ∀ v ∈ rowGroup, ∀ w ∈ rowGroup, (∀ x, v.xmin = .other x → seen c x = true) →
    (∀ x, w.xmin = .other x → seen c x = true) →
      (∀ x, v.xmax = some (.other x) → seen c x = false) →
    (∀ x, w.xmax = some (.other x) → seen c x = false) → v.val.clashes w.val = true → v.val = w.val
  created : ∀ v ∈ rowGroup, ∀ x, (x, v.val.storageId) ∈ truncatedBy → v.xmax = some (.other x) →
    v.xmin = .other x
  buffers : ∀ v ∈ rowGroup, ∀ w ∈ rowGroup,
    (∀ x, v.xmax = some (.other x) → (x, v.val.storageId) ∉ truncatedBy) →
    (∀ x, w.xmax = some (.other x) → (x, w.val.storageId) ∉ truncatedBy) →
    v.val.storageId = w.val.storageId → v.val.groupNumber = w.val.groupNumber →
    v.val.firstRowNumber = w.val.firstRowNumber ∧ v.val.natts = w.val.natts ∧
      (v.val.rows <+: w.val.rows ∨ w.val.rows <+: v.val.rows)

def start {seen : σ → ℕ → Bool} (base : Base seen α) : State σ α :=
  ⟨0, [], [], [], base.truncatedBy, base.rowGroup, base.columnChunk, [], []⟩

/-- The events after which the caches are transparent.  A fetch under a snapshot that is not an MVCC
one finds a version of a group that was not truncated, and where it decodes, it reads the chunk rows
of that version.  A group is not written with the geometry of one that has been decoded in the same
command, unless that one is still there. -/
def Benign [DecidableEq σ] [DecidableEq α] (seen : σ → ℕ → Bool) (s : State σ α) : Action σ α → Prop
  | .flush _ g _ _ => ∀ e ∈ s.slots, e.cid = s.cid → e.describes g = true →
    ∃ v ∈ s.rowGroup, s.truncated v = false ∧ e.describes v.val = true
  | .fetch (.other f) storageId rowNumber natts true =>
    ∀ g ∈ s.readRowGroup seen (.other f) storageId rowNumber,
      (∃ v ∈ s.rowGroup, v.val = g ∧ s.truncated v = false) ∧
      s.readColumns seen (.other f) g.storageId g.groupNumber natts = g.columns natts
  | _ => True

instance [DecidableEq σ] [DecidableEq α] (seen : σ → ℕ → Bool) (s : State σ α) (a : Action σ α) :
    Decidable (Benign seen s a) := by
  unfold Benign
  split <;> infer_instance

end PgColumnar.Cache
