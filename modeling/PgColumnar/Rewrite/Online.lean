import PgColumnar.Lib.Mvcc
import PgColumnar.Lib.Run
import Mathlib.Data.List.Sort

/-!
# Online rewrite of row groups

`pgcolumnar.compact_rewrite` and the online recluster move the live rows of row groups
into new groups while other transactions read and write the table.

* The rewrite lists groups under the latest snapshot, takes their chunk-group locks in
  ascending order, takes the snapshot it reads under, copies the live rows of the listed
  groups to new row numbers and deletes the catalog rows of the old groups
  (`rewrite_one_group`, `pgcolumnar_recluster_online`).  `compact_rewrite` does this
  group by group, the recluster with all groups at once.
* A delete is flushed under the same lock, and the flush raises a serialization failure
  when the row of the group in `pgcolumnar.row_group` is gone
  (`PgColumnarUpsertDeleteVector`).

The locks are advisory locks on a hash of the group number; `key` is the hash.  An update
marks the old row deleted and inserts the new one.

A row carries the number of the insert it comes from, which a copy keeps; no step of the
code reads it.

## Main definitions

* `Job`, `stepRewrite` — a rewrite: lists, locks, copies and retires its groups.
* `Table.expectedRows`, `Table.committedRows` — what was written, and what is there.
-/

namespace PgColumnar.Rewrite

open Mvcc

structure Row (α : Type) where
  origin : ℕ
  value : α
  deriving DecidableEq

/-- A row group: its rows have the numbers `firstRow`, `firstRow + 1`, and so on.  The
place in the list of groups is its group number. -/
structure Group (α : Type) where
  firstRow : ℕ
  rows : List (Row α)
  inserter : ℕ
  retirer : Option ℕ

/-- A row number marked deleted by a transaction, in its buffer or flushed to
`pgcolumnar.delete_vector`. -/
structure Mark where
  xid : ℕ
  row : ℕ
  origin : ℕ
  flushed : Bool
  deriving DecidableEq

/-- Which rewrite: `compact_rewrite` with its least deleted fraction `num / den` and its
group limit, or a recluster by a curve key. -/
inductive Kind (α : Type) where
  | compact (num den maxGroups : ℕ)
  | recluster (curveKey : α → ℕ)

/-- Where a rewrite is in its batch of groups. -/
inductive Phase where
  | lock (batch toLock : List ℕ)
  | copy (batch : List ℕ) (snap : Snapshot)
  | retire (toRetire : List ℕ)
  deriving DecidableEq

/-- The rewrite that holds the table's `ShareUpdateExclusiveLock`. -/
structure Job (α : Type) where
  xid : ℕ
  kind : Kind α
  phase : Phase
  todo : List (List ℕ)

structure Table (α : Type) where
  clock : Clock
  groups : List (Group α)
  marks : List Mark
  /-- Lock keys and the transactions that hold them. -/
  locks : List (ℕ × ℕ)
  job : Option (Job α)
  /-- The inserts, with their transactions. -/
  inserted : List (ℕ × Row α)

variable {α : Type}

def Table.init : Table α := ⟨Clock.init, [], [], [], none, []⟩

/-! ## Reading -/

/-- The row with number `n`. -/
def Group.row? (g : Group α) (n : ℕ) : Option (Row α) :=
  if g.firstRow ≤ n then g.rows[n - g.firstRow]? else none

def Group.covers (g : Group α) (n : ℕ) : Prop :=
  g.firstRow ≤ n ∧ n < g.firstRow + g.rows.length

instance (g : Group α) (n : ℕ) : Decidable (g.covers n) :=
  inferInstanceAs (Decidable (_ ∧ _))

/-- The snapshot finds the group's row in `pgcolumnar.row_group`. -/
def Table.groupVisible (s : Table α) (snap : Snapshot) (g : Group α) : Bool :=
  decide (s.clock.sees snap g.inserter) &&
    match g.retirer with
    | none => true
    | some x => decide (¬ s.clock.sees snap x)

/-- The snapshot finds the row number in the delete vector. -/
def Table.deleted (s : Table α) (snap : Snapshot) (n : ℕ) : Bool :=
  s.marks.any fun m => m.flushed && decide (m.row = n) && decide (s.clock.sees snap m.xid)

/-- A row that a read returns: the group, the row number and the row. -/
structure Found (α : Type) where
  group : ℕ
  number : ℕ
  row : Row α

def Group.read (g : Group α) (i : ℕ) : List (Found α) :=
  g.rows.zipIdx.map fun rk => ⟨i, g.firstRow + rk.2, rk.1⟩

/-- `PgColumnarReadNextRow` until the end: the live rows of the visible groups. -/
def Table.readRows (s : Table α) (snap : Snapshot) : List (Found α) :=
  s.groups.zipIdx.flatMap fun gi =>
    if s.groupVisible snap gi.1 then
      (gi.1.read gi.2).filter fun f => !s.deleted snap f.number
    else []

/-! ## The listed groups -/

/-- The group's rows that the delete vector has under the snapshot. -/
def Table.deletedCount (s : Table α) (snap : Snapshot) (g : Group α) (i : ℕ) : ℕ :=
  ((g.read i).filter fun f => s.deleted snap f.number).length

/-- The groups to rewrite, in the order of the catalog, which is that of their numbers:
all groups for a recluster; for `compact_rewrite` the groups that are partially deleted,
past the threshold, up to the limit when there is one. -/
def Table.candidates (s : Table α) : Kind α → List ℕ
  | .recluster _ =>
    (s.groups.zipIdx.filter fun gi => s.groupVisible s.clock.latest gi.1).map (·.2)
  | .compact num den maxGroups =>
    let cands := (s.groups.zipIdx.filter fun gi =>
      let deleted := s.deletedCount s.clock.latest gi.1 gi.2
      s.groupVisible s.clock.latest gi.1 && decide (gi.1.rows.length ≠ 0) &&
        decide (0 < deleted) && decide (deleted < gi.1.rows.length) &&
        decide (num * gi.1.rows.length ≤ deleted * den)).map (·.2)
    if 0 < maxGroups then cands.take maxGroups else cands

/-- A recluster takes its groups at once, `compact_rewrite` one by one. -/
def batches : Kind α → List ℕ → List (List ℕ)
  | .recluster _, [] => []
  | .recluster _, cands => [cands]
  | .compact _ _ _, cands => cands.map fun i => [i]

/-- `RECLUSTER_MAX_GROUPS` -/
def reclusterMaxGroups : ℕ := 8192

def Kind.accepts : Kind α → List ℕ → Bool
  | .recluster _, cands => decide (cands.length ≤ reclusterMaxGroups)
  | .compact _ _ _, _ => true

/-- The next batch of the rewrite, if there is one. -/
def Job.next (job : Job α) : Job α :=
  match job.todo with
  | [] => { job with phase := .retire [] }
  | batch :: rest => { job with phase := .lock batch batch, todo := rest }

/-- The groups still to retire, or the next batch. -/
def Job.retired (job : Job α) : List ℕ → Job α
  | [] => job.next
  | rest => { job with phase := .retire rest }

/-- `row_in_listed_groups`: binary search among the row ranges, sorted by their first row,
from `lo` to before `hi`. -/
def rowInListedGroups (byRow : List (ℕ × ℕ)) (rowNumber lo hi : ℕ) : Bool :=
  if lo < hi then
    let mid := lo + (hi - 1 - lo) / 2
    match byRow[mid]? with
    | none => false
    | some (first, count) =>
      if rowNumber < first then rowInListedGroups byRow rowNumber lo mid
      else if first + count ≤ rowNumber then rowInListedGroups byRow rowNumber (mid + 1) hi
      else true
  else false
termination_by hi - lo

/-- The row ranges of the groups of a batch, sorted by first row. -/
def Table.byRow (s : Table α) (batch : List ℕ) : List (ℕ × ℕ) :=
  (batch.filterMap fun i => (s.groups[i]?).map fun g => (g.firstRow, g.rows.length)).mergeSort
    fun a b => decide (a.1 ≤ b.1)

/-- The rows to copy: a recluster reads the table and skips the rows outside the listed
groups, `compact_rewrite` restricts the read to the group. -/
def Table.liveRows (s : Table α) (snap : Snapshot) (kind : Kind α) (batch : List ℕ) :
    List (Row α) :=
  ((s.readRows snap).filter fun f =>
    match kind with
    | .recluster _ =>
      let byRow := s.byRow batch
      rowInListedGroups byRow f.number 0 byRow.length
    | .compact _ _ _ => decide (f.group ∈ batch)).map (·.row)

/-- A recluster writes the rows in the order of the curve, whichever way its sort places
rows with equal keys; `compact_rewrite` keeps the order. -/
def Kind.writes [DecidableEq α] (kind : Kind α) (live written : List (Row α)) : Bool :=
  match kind with
  | .recluster curveKey => decide (written.Perm live) &&
      decide (written.Pairwise fun a b => curveKey a.value ≤ curveKey b.value)
  | .compact _ _ _ => decide (written = live)

/-! ## Writing -/

/-- Row numbers are handed out once. -/
def freshRange (groups : List (Group α)) (first count : ℕ) : Bool :=
  groups.all fun g =>
    decide (first + count ≤ g.firstRow) || decide (g.firstRow + g.rows.length ≤ first)

/-- The rows of a flush, numbered on from the inserts before. -/
def newRows (k : ℕ) (values : List α) : List (Row α) :=
  values.zipIdx.map fun vk => ⟨k + vk.2, vk.1⟩

/-- Flush the rows as row groups of the given first row numbers and sizes. -/
def flushGroups (x : ℕ) : List (Group α) → List (Row α) → List (ℕ × ℕ) →
    Option (List (Group α))
  | groups, rows, [] => if rows.isEmpty then some groups else none
  | groups, rows, (first, count) :: splits =>
    if 0 < count ∧ count ≤ rows.length ∧ freshRange groups first count = true then
      flushGroups x (groups ++ [⟨first, rows.take count, x, none⟩]) (rows.drop count) splits
    else none

/-- No other transaction holds the lock. -/
def Table.lockFree (s : Table α) (x k : ℕ) : Bool :=
  s.locks.all fun l => decide (l.1 ≠ k) || decide (l.2 = x)

def Table.flushMarks (s : Table α) (x : ℕ) (g : Group α) : List Mark :=
  s.marks.map fun m => if m.xid = x ∧ g.covers m.row then { m with flushed := true } else m

/-- The rewrite of this transaction is under way. -/
def Table.rewriting (s : Table α) (x : ℕ) : Bool :=
  match s.job with
  | some job => decide (job.xid = x)
  | none => false

/-- The end of transaction `x`, which releases its locks. -/
def Table.finish (s : Table α) (x : ℕ) (st : Status) : Table α :=
  { s with
    clock := s.clock.finish [x] st
    locks := s.locks.filter fun l => decide (l.2 ≠ x)
    job := if s.rewriting x then none else s.job }

/-- Every batch of the job is copied and retired. -/
def Job.done (job : Job α) : Bool :=
  job.todo.isEmpty && decide (job.phase = .retire [])

inductive Action (α : Type) where
  | begin
  | commit (x : ℕ)
  | abort (x : ℕ)
  | takeSnapshot
  | dropSnapshot (i : ℕ)
  /-- Transaction `x` flushes the rows it has inserted as a row group. -/
  | flushRowGroup (x first : ℕ) (values : List α)
  | markRowDeleted (x rowNumber : ℕ)
  /-- It flushes its marks on the rows of group `i`. -/
  | flushDeleteVector (x i : ℕ)
  /-- Take the table's lock and list the groups. -/
  | rewriteList (x : ℕ) (kind : Kind α)
  | rewriteLock
  | rewriteSnapshot
  | rewriteCopy (written : List (Row α)) (splits : List (ℕ × ℕ))
  | rewriteRetire

def stepRewrite [DecidableEq α] (key : ℕ → ℕ) (s : Table α) (job : Job α) :
    Action α → Option (Table α)
  | .rewriteLock =>
    match job.phase with
    | .lock batch (i :: rest) =>
      if s.lockFree job.xid (key i) = true then
        some { s with
          locks := (key i, job.xid) :: s.locks
          job := some { job with phase := .lock batch rest } }
      else none
    | _ => none
  | .rewriteSnapshot =>
    match job.phase with
    | .lock batch [] => some { s with job := some { job with phase := .copy batch s.clock.latest } }
    | _ => none
  | .rewriteCopy written splits =>
    match job.phase with
    | .copy batch snap =>
      if job.kind.writes (s.liveRows snap job.kind batch) written = true then
        (flushGroups job.xid s.groups written splits).map fun groups =>
          { s with groups := groups, job := some { job with phase := .retire batch } }
      else none
    | _ => none
  | .rewriteRetire =>
    match job.phase with
    | .retire (i :: rest) =>
      some { s with
        groups := s.groups.modify i fun g => { g with retirer := some job.xid }
        job := some (job.retired rest) }
    | _ => none
  | _ => none

def step [DecidableEq α] (key : ℕ → ℕ) (s : Table α) : Action α → Option (Table α)
  | .begin => some { s with clock := s.clock.begin }
  | .commit x =>
    -- the pre-commit hook has flushed every mark, and a rewrite runs to its end
    if s.clock.status x = .running ∧ (∀ m ∈ s.marks, m.xid = x → m.flushed = true) ∧
        (∀ job ∈ s.job, job.xid = x → job.done = true) then
      some (s.finish x .committed)
    else none
  | .abort x =>
    if s.clock.status x = .running then some (s.finish x .aborted) else none
  | .takeSnapshot => some { s with clock := s.clock.takeSnapshot }
  | .dropSnapshot i => some { s with clock := s.clock.dropSnapshot i }
  | .flushRowGroup x first values =>
    if s.clock.status x = .running ∧ s.rewriting x = false ∧ values ≠ [] ∧
        freshRange s.groups first values.length = true then
      let rows := newRows s.inserted.length values
      some { s with
        groups := s.groups ++ [⟨first, rows, x, none⟩]
        inserted := s.inserted ++ rows.map fun r => (x, r) }
    else none
  | .markRowDeleted x rowNumber =>
    -- `delete_vector_find_row_group`: a group the transaction sees covers the row
    match s.groups.find? fun g => decide (g.covers rowNumber) with
    | none => none
    | some g =>
      match g.row? rowNumber with
      | none => none
      | some r =>
        if s.clock.status x = .running ∧ s.rewriting x = false ∧
            (g.inserter = x ∨ s.clock.status g.inserter = .committed) then
          some { s with marks := s.marks ++ [⟨x, rowNumber, r.origin, false⟩] }
        else none
  | .flushDeleteVector x i =>
    match s.groups[i]? with
    | none => none
    | some g =>
      -- `row_group_exists`, asked once the lock is held
      if s.clock.status x = .running ∧ s.rewriting x = false ∧ s.lockFree x (key i) = true ∧
          (∀ y ∈ g.retirer, s.clock.status y ≠ .committed) then
        some { s with marks := s.flushMarks x g, locks := (key i, x) :: s.locks }
      else none
  | .rewriteList x kind =>
    -- a rewriting transaction does nothing else
    if s.clock.status x = .running ∧ s.job.isNone = true ∧ (∀ m ∈ s.marks, m.xid ≠ x) ∧
        (∀ g ∈ s.groups, g.inserter ≠ x) ∧
        kind.accepts (s.candidates kind) = true then
      some { s with job := some (Job.next ⟨x, kind, .retire [], batches kind (s.candidates kind)⟩) }
    else none
  | a => s.job.bind fun job => stepRewrite key s job a

/-! ## What the table should hold -/

/-- The committed inserts that no committed delete has removed. -/
def Table.expectedRows (s : Table α) : List (Row α) :=
  (s.inserted.filter fun e =>
    decide (s.clock.status e.1 = .committed) && s.marks.all fun m =>
      decide (m.origin ≠ e.2.origin) || decide (s.clock.status m.xid ≠ .committed)).map (·.2)

/-- The rows a new reader finds. -/
def Table.committedRows (s : Table α) : List (Row α) :=
  (s.readRows s.clock.latest).map (·.row)

end PgColumnar.Rewrite
