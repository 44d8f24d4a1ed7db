import Mathlib.Algebra.Group.Nat.Defs
import PgColumnar.Lib.Mvcc
import PgColumnar.Lib.Run

/-!
# The visibility map

An index-only scan asks the visibility map whether it may answer from the index alone.
The map has one bit for each synthetic block, `K` consecutive row numbers, where `K` is
`COLUMNAR_VALID_ITEMPOINTER_OFFSETS`.

* The write paths clear the bit of the block of each row they insert or mark deleted
  (`PgColumnarVMClearForRow`), and a rewrite clears the blocks of the row range of a
  group it retires (`PgColumnarVMClearForRowRange`).
* A lazy vacuum lists the row groups that every snapshot sees and that have no delete,
  committed or in progress (`PgColumnarComputeAllVisibleGroups`), merges them to runs
  and sets the bits of the blocks inside one run (`PgColumnarVMSetVisibleForRelation`).

A delete is in the private buffer of its transaction until it is flushed to
`pgcolumnar.delete_vector`, and the vacuum's test does not see it before.

Row numbers are unbounded here, and block numbers are those of an item pointer, of 32 bits:
rows past the last block share the bits of earlier ones.

## Main definitions

* `vmClearForRow`, `visibleBlocks` — the bits that a write clears, and those a vacuum sets.
* `Table`, `step` — writers, deletes, rewrites and a vacuum.
* `Safe` — what a set bit promises.
-/

namespace PgColumnar.Visibility

open Mvcc

local instance pairBEq : LawfulBEq (ℕ × ℕ) := inferInstance

/-- A row of `pgcolumnar.row_group` with the transactions that inserted and deleted it.
A group is known by its place in the list of groups, which is its group number. -/
structure Group where
  firstRow : ℕ
  rowCount : ℕ
  inserter : ℕ
  retirer : Option ℕ
  deriving DecidableEq

def Group.covers (g : Group) (n : ℕ) : Prop :=
  g.firstRow ≤ n ∧ n < g.firstRow + g.rowCount

instance (g : Group) (n : ℕ) : Decidable (g.covers n) :=
  inferInstanceAs (Decidable (_ ∧ _))

/-- The row range `[first, first + count)` overlaps the group's. -/
def Group.overlaps (g : Group) (first count : ℕ) : Bool :=
  decide (first < g.firstRow + g.rowCount) && decide (g.firstRow < first + count)

/-- A row marked deleted by a transaction, in its buffer or flushed. -/
structure Mark where
  xid : ℕ
  row : ℕ
  flushed : Bool
  deriving DecidableEq

/-- Who holds the table's `ShareUpdateExclusiveLock`: a vacuum that has read its horizon,
a vacuum with the blocks it has still to set, or a rewriting transaction with the groups
whose bits it has cleared. -/
inductive Maint where
  | free
  | vacuum (oldestXmin : ℕ)
  | setting (blocks : List ℕ)
  | rewrite (xid : ℕ) (cleared : List ℕ)
  deriving DecidableEq

structure Table where
  clock : Clock
  groups : List Group
  marks : List Mark
  /-- The chunk-group locks: group number and transaction, until it ends. -/
  locks : List (ℕ × ℕ)
  bits : ℕ → Bool
  maint : Maint

def Table.init : Table := ⟨Clock.init, [], [], [], fun _ => false, .free⟩

def invalidBlockNumber : ℕ := 2 ^ 32 - 1

/-- The cast to `BlockNumber`. -/
def blockNumber (n : ℕ) : ℕ := n % (invalidBlockNumber + 1)

/-- `PgColumnarVMClearForRow`. -/
def vmClearForRow (K : ℕ) (bits : ℕ → Bool) (rowNumber : ℕ) : ℕ → Bool :=
  Function.update bits (blockNumber (rowNumber / K)) false

/-- `PgColumnarVMClearForRowRange`.  The source does not come back from a range that ends at
the invalid block number. -/
def vmClearForRowRange (K : ℕ) (bits : ℕ → Bool) (firstRowNumber rowCount : ℕ) : ℕ → Bool :=
  if rowCount = 0 then bits
  else fun b =>
    if blockNumber (firstRowNumber / K) ≤ b ∧
      b ≤ blockNumber ((firstRowNumber + rowCount - 1) / K) then false else bits b

/-- The group has a delete, committed or in progress: what a dirty snapshot finds in
`pgcolumnar.delete_vector`. -/
def Table.hasDelete (s : Table) (g : Group) : Bool :=
  s.marks.any fun m =>
    m.flushed && decide (g.covers m.row) && decide (s.clock.status m.xid ≠ .aborted)

/-- The latest snapshot sees the row of `pgcolumnar.row_group`. -/
def Table.listed (s : Table) (g : Group) : Bool :=
  decide (s.clock.status g.inserter = .committed) &&
    match g.retirer with
    | none => true
    | some x => decide (s.clock.status x ≠ .committed)

/-- `PgColumnarComputeAllVisibleGroups`. -/
def Table.computeAllVisibleGroups (s : Table) (oldestXmin : ℕ) : List Group :=
  s.groups.filter fun g =>
    s.listed g && decide (g.inserter < oldestXmin) && decide (g.rowCount ≠ 0) && !s.hasDelete g

/-- The inner loop of `PgColumnarVMSetVisibleForRelation`: the ranges that touch the run
`[lo, hi)` extend it, the first one that does not starts the next run. -/
def mergeRuns (lo hi : ℕ) : List Group → List (ℕ × ℕ)
  | [] => [(lo, hi)]
  | g :: rest =>
    if g.firstRow ≤ hi then mergeRuns lo (max hi (g.firstRow + g.rowCount)) rest
    else (lo, hi) :: mergeRuns g.firstRow (g.firstRow + g.rowCount) rest

def visibleRuns (groups : List Group) : List (ℕ × ℕ) :=
  match groups.mergeSort fun a b => decide (a.firstRow ≤ b.firstRow) with
  | [] => []
  | g :: rest => mergeRuns g.firstRow (g.firstRow + g.rowCount) rest

/-- The blocks inside `[lo, hi)`, from `ceil (lo / K)` to `floor (hi / K) - 1`. -/
def blocksWithin (K lo hi : ℕ) : List ℕ :=
  let b := blockNumber ((lo + K - 1) / K)
  List.range' b (blockNumber (hi / K) - b)

/-- The blocks `PgColumnarVMSetVisibleForRelation` sets, in its order. -/
def visibleBlocks (K : ℕ) (groups : List Group) : List ℕ :=
  (visibleRuns groups).flatMap fun r => blocksWithin K r.1 r.2

inductive Action where
  | begin
  | commit (x : ℕ)
  | abort (x : ℕ)
  | takeSnapshot
  | dropSnapshot (i : ℕ)
  /-- Transaction `x` gives a new row its number and clears its block's bit. -/
  | writeRow (x rowNumber : ℕ)
  /-- It flushes its buffered rows as a row group. -/
  | flushRowGroup (x first count : ℕ)
  | markRowDeleted (x rowNumber : ℕ)
  /-- It flushes its marks on the rows of group `i`. -/
  | flushDeleteVector (x i : ℕ)
  | vacuumHorizon (oldestXmin : ℕ)
  | vacuumCompute
  | vacuumSet
  | vacuumEnd
  | rewriteBegin (x : ℕ)
  /-- Lock group `i` and copy its live rows to row numbers from `first` on. -/
  | rewriteCopy (x i first : ℕ)
  | rewriteClear (x i : ℕ)
  | rewriteRetire (x i : ℕ)
  deriving DecidableEq

/-- No other transaction that is still running holds the lock of group `i`. -/
def Table.lockFree (s : Table) (x i : ℕ) : Bool :=
  s.locks.all fun l =>
    decide (l.1 ≠ i) || decide (l.2 = x) || decide (s.clock.status l.2 ≠ .running)

/-- Row numbers are handed out once. -/
def Table.freshRange (s : Table) (first count : ℕ) : Bool :=
  s.groups.all fun g => !g.overlaps first count

/-- The rows of the group that no committed delete covers. -/
def Table.liveCount (s : Table) (g : Group) : ℕ :=
  (List.range g.rowCount).countP fun k => s.marks.all fun m =>
    decide (m.row ≠ g.firstRow + k) || !m.flushed || decide (s.clock.status m.xid ≠ .committed)

def Table.flushMarks (s : Table) (x : ℕ) (g : Group) : List Mark :=
  s.marks.map fun m => if m.xid = x ∧ g.covers m.row then { m with flushed := true } else m

/-- The end of transaction `x`, which releases its locks. -/
def Table.finish (s : Table) (x : ℕ) (st : Status) : Table :=
  { s with
    clock := s.clock.finish [x] st
    maint := match s.maint with
      | .rewrite y c => if y = x then .free else .rewrite y c
      | m => m }

def step (K : ℕ) (s : Table) : Action → Option Table
  | .begin => some { s with clock := s.clock.begin }
  | .commit x =>
    -- the pre-commit hook has flushed every mark
    if s.clock.status x = .running ∧ ∀ m ∈ s.marks, m.xid = x → m.flushed = true then
      some (s.finish x .committed)
    else none
  | .abort x =>
    if s.clock.status x = .running then some (s.finish x .aborted) else none
  | .takeSnapshot => some { s with clock := s.clock.takeSnapshot }
  | .dropSnapshot i => some { s with clock := s.clock.dropSnapshot i }
  | .writeRow x rowNumber =>
    if s.clock.status x = .running then
      some { s with bits := vmClearForRow K s.bits rowNumber }
    else none
  | .flushRowGroup x first count =>
    if s.clock.status x = .running ∧ s.freshRange first count = true then
      some { s with groups := s.groups ++ [⟨first, count, x, none⟩] }
    else none
  | .markRowDeleted x rowNumber =>
    -- `delete_vector_find_row_group`: a group the transaction sees covers the row
    if s.clock.status x = .running ∧ (∃ g ∈ s.groups, g.covers rowNumber ∧
        (g.inserter = x ∨ s.clock.status g.inserter = .committed)) then
      some { s with
        marks := s.marks ++ [⟨x, rowNumber, false⟩]
        bits := vmClearForRow K s.bits rowNumber }
    else none
  | .flushDeleteVector x i =>
    match s.groups[i]? with
    | none => none
    | some g =>
      -- the row_group row must still be there once the chunk-group lock is held
      if s.clock.status x = .running ∧ s.lockFree x i = true ∧
          (∀ y, g.retirer = some y → s.clock.status y ≠ .committed) then
        some { s with marks := s.flushMarks x g, locks := (i, x) :: s.locks }
      else none
  | .vacuumHorizon oldestXmin =>
    if s.maint = .free ∧ s.clock.isHorizon oldestXmin = true then
      some { s with maint := .vacuum oldestXmin }
    else none
  | .vacuumCompute =>
    match s.maint with
    | .vacuum oldestXmin =>
      some { s with maint := .setting (visibleBlocks K (s.computeAllVisibleGroups oldestXmin)) }
    | _ => none
  | .vacuumSet =>
    match s.maint with
    | .setting (b :: rest) =>
      some { s with bits := Function.update s.bits b true, maint := .setting rest }
    | _ => none
  | .vacuumEnd =>
    match s.maint with
    | .vacuum _ => some { s with maint := .free }
    | .setting _ => some { s with maint := .free }
    | _ => none
  | .rewriteBegin x =>
    if s.maint = .free ∧ s.clock.status x = .running then
      some { s with maint := .rewrite x [] }
    else none
  | .rewriteCopy x i first =>
    match s.maint, s.groups[i]? with
    | .rewrite y _, some g =>
      if y = x ∧ s.listed g = true ∧ s.lockFree x i = true ∧
          s.freshRange first (s.liveCount g) = true then
        some { s with
          -- a group without a live row leaves nothing to flush
          groups := if s.liveCount g = 0 then s.groups
            else s.groups ++ [⟨first, s.liveCount g, x, none⟩]
          locks := (i, x) :: s.locks }
      else none
    | _, _ => none
  | .rewriteClear x i =>
    match s.maint, s.groups[i]? with
    | .rewrite y cleared, some g =>
      if y = x ∧ (i, x) ∈ s.locks then
        some { s with
          bits := vmClearForRowRange K s.bits g.firstRow g.rowCount
          maint := .rewrite y (i :: cleared) }
      else none
    | _, _ => none
  | .rewriteRetire x i =>
    match s.maint, s.groups[i]? with
    | .rewrite y cleared, some g =>
      if y = x ∧ i ∈ cleared ∧ s.listed g = true then
        some { s with groups := s.groups.set i { g with retirer := some x } }
      else none
    | _, _ => none

/-! ## What a set bit promises -/

/-- The snapshot sees the row. -/
def Table.rowVisible (s : Table) (snap : Snapshot) (n : ℕ) : Prop :=
  ∃ g ∈ s.groups, g.covers n ∧ s.clock.sees snap g.inserter ∧
    (∀ x, g.retirer = some x → ¬ s.clock.sees snap x) ∧
    ∀ m ∈ s.marks, m.row = n → ¬ s.clock.sees snap m.xid

/-- The group's insert is visible to every live snapshot and its retirement has not
committed. -/
structure Table.GroupSettled (s : Table) (g : Group) : Prop where
  inserter : s.clock.Settled g.inserter
  retirer : ∀ x, g.retirer = some x → s.clock.status x ≠ .committed

/-- A block whose bit is set has only row numbers that are in a settled group, and in no
other group, and on which no delete has committed; so every live snapshot sees them.  Of the
row numbers past the last block this is said of those in a group. -/
structure Safe (K : ℕ) (s : Table) : Prop where
  covered : ∀ n < invalidBlockNumber * K, s.bits (blockNumber (n / K)) = true →
    ∃ g ∈ s.groups, g.covers n
  settled : ∀ n, s.bits (blockNumber (n / K)) = true → ∀ g ∈ s.groups, g.covers n →
    s.GroupSettled g
  notDeleted : ∀ n, s.bits (blockNumber (n / K)) = true → ∀ g ∈ s.groups, g.covers n →
    ∀ m ∈ s.marks, m.row = n → s.clock.status m.xid ≠ .committed
  indexOnly : ∀ n, s.bits (blockNumber (n / K)) = true → (∃ g ∈ s.groups, g.covers n) →
    ∀ snap ∈ s.clock.snapshots, s.rowVisible snap n

end PgColumnar.Visibility
