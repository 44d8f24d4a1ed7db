import PgColumnar.Lib.Catalog
import PgColumnar.Lib.Mvcc
import PgColumnar.Lib.Run
import Mathlib.Data.Int.Notation

/-!
# Retention

`pgcolumnar.expire` drops the row groups all of whose rows are past the table's retention.
It reads the group list, the zone maps, the delete vectors and, where the zone map is not
enough, the rows under the snapshot of its statement, which is older than the maintenance
lock it then waits for.  Retiring a group acts on the latest catalog:
`PgColumnarRetireGroup` deletes the rows it finds and is content to find none.
`PgColumnarRecordRetention` then writes a row of `pgcolumnar.retired_group`.

Other maintenance is any transaction that takes the lock and retires groups, with or
without having written their rows to new ones; writers add groups and delete rows at any
time.  A row is whatever the table stores, `ttl` is its retention column, and `zoned` says
which groups have a zone map for the column.

## Main definitions

* `World`, `step` — calls of `expire` among writers, rewrites and readers.
* `Exact` — what an expire promises.
-/

namespace PgColumnar.Retention

open Mvcc Function

structure Group (α : Type) where
  firstRow : ℕ
  rows : List α
  inserter : ℕ
  retirer : Option ℕ

/-- A row number in `pgcolumnar.delete_vector`, with the transaction that flushed it. -/
structure Mark where
  xid : ℕ
  row : ℕ
  deriving DecidableEq

/-- A row of `pgcolumnar.retired_group`. -/
structure RetiredGroup where
  xid : ℕ
  group : ℕ
  deletedCount : ℕ
  deriving DecidableEq

/-- A call of `pgcolumnar.expire`: waiting for the lock, or going through its groups. -/
structure Pass where
  snapshot : Snapshot
  locked : Bool
  cutoff : ℤ
  todo : List ℕ
  retired : ℕ

structure World (α : Type) where
  clock : Clock
  groups : List (Group α)
  marks : List Mark
  records : List RetiredGroup
  /-- Who holds the table's `ShareUpdateExclusiveLock`. -/
  holder : Option ℕ
  /-- The call of each transaction that makes one. -/
  pass : ℕ → Option Pass

variable {α : Type}

def World.init : World α := ⟨Clock.init, [], [], [], none, fun _ => none⟩

/-! ## What expire reads -/

def Group.row? (g : Group α) (n : ℕ) : Option α :=
  if g.firstRow ≤ n then g.rows[n - g.firstRow]? else none

def Group.covers (g : Group α) (n : ℕ) : Prop :=
  g.firstRow ≤ n ∧ n < g.firstRow + g.rows.length

instance (g : Group α) (n : ℕ) : Decidable (g.covers n) :=
  inferInstanceAs (Decidable (_ ∧ _))

def World.groupVisible (w : World α) (snap : Snapshot) (g : Group α) : Bool :=
  decide (w.clock.sees snap g.inserter) &&
    match g.retirer with
    | none => true
    | some x => decide (¬ w.clock.sees snap x)

def World.deleted (w : World α) (snap : Snapshot) (n : ℕ) : Bool :=
  w.marks.any fun m => decide (m.row = n) && decide (w.clock.sees snap m.xid)

/-- The zone map of the column, as written with the group: how many rows are null, and
the greatest value when there is one. -/
structure ZoneMap where
  nullCount : ℕ
  maximum : Option ℤ

def Group.zoneMap (ttl : α → Option ℤ) (g : Group α) : ZoneMap :=
  ⟨g.rows.countP fun r => (ttl r).isNone, (g.rows.filterMap ttl).max?⟩

/-- `PgColumnarStorageHasDeleteVector`. -/
def World.storageHasDeleteVector (w : World α) (snap : Snapshot) : Bool :=
  w.groups.any fun g => w.groupVisible snap g &&
    w.marks.any fun m => decide (g.covers m.row) && decide (w.clock.sees snap m.xid)

/-- `group_has_live_null`. -/
def World.groupHasLiveNull (w : World α) (ttl : α → Option ℤ) (snap : Snapshot) (g : Group α) :
    Bool :=
  g.rows.zipIdx.any fun rk => (ttl rk.1).isNone && !w.deleted snap (g.firstRow + rk.2)

/-- The group passes the tests of `pgcolumnar_expire`. -/
def World.qualifies (w : World α) (ttl : α → Option ℤ) (zoned : ℕ → Bool) (p : Pass) (i : ℕ)
    (g : Group α) : Bool :=
  zoned i &&
    match (g.zoneMap ttl).maximum with
    | none => false
    | some maxv =>
      (decide ((g.zoneMap ttl).nullCount = 0) ||
        (w.storageHasDeleteVector p.snapshot && !w.groupHasLiveNull ttl p.snapshot g)) &&
      decide (maxv < p.cutoff)

/-- The group's deleted count under the snapshot. -/
def World.deletedCount (w : World α) (snap : Snapshot) (g : Group α) : ℕ :=
  (List.range g.rows.length).countP fun k => w.deleted snap (g.firstRow + k)

/-- `PgColumnarReadRowGroupList` -/
def World.rowGroupList (w : World α) (snap : Snapshot) : List ℕ :=
  (w.groups.zipIdx.filter fun gi => w.groupVisible snap gi.1).map (·.2)

/-! ## What expire writes -/

/-- `PgColumnarRetireGroup`: delete the catalog rows that the latest snapshot finds. -/
def World.retireGroup (w : World α) (x i : ℕ) : List (Group α) :=
  match w.groups[i]? with
  | none => w.groups
  | some g =>
    if w.groupVisible w.clock.latest g then
      w.groups.set i { g with retirer := some x }
    else w.groups

/-- The unique index of `pgcolumnar.retired_group` has the group already. -/
def World.recorded (w : World α) (x i : ℕ) : Bool :=
  w.records.any fun r => decide (r.group = i) &&
    (decide (r.xid = x) || decide (w.clock.status r.xid = .committed))

inductive Action (α : Type) where
  | begin
  | commit (x : ℕ)
  | abort (x : ℕ)
  | takeSnapshot
  | dropSnapshot (i : ℕ)
  /-- A writer or a rewrite flushes rows as a row group. -/
  | flushRowGroup (x first : ℕ) (rows : List α)
  /-- A writer flushes a delete to `pgcolumnar.delete_vector`. -/
  | flushDelete (x rowNumber : ℕ)
  /-- Other maintenance takes the lock, and retires a group. -/
  | maintLock (x : ℕ)
  | maintRetire (x i : ℕ)
  /-- The statement `SELECT pgcolumnar.expire(...)` starts. -/
  | expireCall (x : ℕ)
  /-- It gets the lock and computes the cutoff; `skip` when the column's extent shows
  that no group qualifies. -/
  | expireLock (x : ℕ) (cutoff : ℤ) (skip : Bool)
  /-- It examines the next group. -/
  | expireGroup (x : ℕ)
  deriving DecidableEq

/-- The end of a transaction, which releases the lock. -/
def World.finish (w : World α) (x : ℕ) (st : Status) : World α :=
  { w with
    clock := w.clock.finish [x] st
    holder := if w.holder = some x then none else w.holder }

def stepExpireGroup (ttl : α → Option ℤ) (zoned : ℕ → Bool) (w : World α) (x : ℕ) (p : Pass)
    (i : ℕ) (rest : List ℕ) : Option (World α) :=
  match w.groups[i]? with
  | none => none
  | some g =>
    if w.qualifies ttl zoned p i g = false then
      some { w with pass := update w.pass x (some { p with todo := rest }) }
    else if w.recorded x i = true then none
    else some { w with
      groups := w.retireGroup x i
      records := w.records ++ [⟨x, i, w.deletedCount p.snapshot g⟩]
      pass := update w.pass x (some { p with todo := rest, retired := p.retired + 1 }) }

def step (ttl : α → Option ℤ) (zoned : ℕ → Bool) (w : World α) : Action α → Option (World α)
  | .begin => some { w with clock := w.clock.begin }
  | .commit x =>
    if w.clock.status x = .running ∧ (∀ p ∈ w.pass x, p.locked = true ∧ p.todo = []) then
      some (w.finish x .committed)
    else none
  | .abort x =>
    if w.clock.status x = .running then some (w.finish x .aborted) else none
  | .takeSnapshot => some { w with clock := w.clock.takeSnapshot }
  | .dropSnapshot i => some { w with clock := w.clock.dropSnapshot i }
  | .flushRowGroup x first rows =>
    if w.clock.status x = .running ∧ (w.pass x).isNone = true then
      some { w with groups := w.groups ++ [⟨first, rows, x, none⟩] }
    else none
  | .flushDelete x rowNumber =>
    if w.clock.status x = .running ∧ (w.pass x).isNone = true then
      some { w with marks := w.marks ++ [⟨x, rowNumber⟩] }
    else none
  | .maintLock x =>
    if w.clock.status x = .running ∧ (w.pass x).isNone = true ∧ w.holder = none then
      some { w with holder := some x }
    else none
  | .maintRetire x i =>
    if w.holder = some x ∧ (w.pass x).isNone = true then
      some { w with groups := w.retireGroup x i }
    else none
  | .expireCall x =>
    if w.clock.status x = .running ∧ (w.pass x).isNone = true ∧
        (∀ g ∈ w.groups, g.retirer ≠ some x) ∧ w.holder ≠ some x then
      some { w with pass := update w.pass x (some ⟨w.clock.latest, false, 0, [], 0⟩) }
    else none
  | .expireLock x cutoff skip =>
    match w.pass x with
    | none => none
    | some p =>
      if w.clock.status x = .running ∧ p.locked = false ∧ w.holder = none then
        some { w with
          holder := some x
          pass := update w.pass x (some { p with
            locked := true
            cutoff := cutoff
            todo := if skip then [] else w.rowGroupList p.snapshot }) }
      else none
  | .expireGroup x =>
    match w.pass x with
    | none => none
    | some p =>
      match p.todo with
      | [] => none
      | i :: rest =>
        if w.clock.status x = .running then stepExpireGroup ttl zoned w x p i rest else none

/-! ## What an expire should do -/

/-- No committed delete covers the row number. -/
def World.Live (w : World α) (n : ℕ) : Prop :=
  ∀ m ∈ w.marks, m.row = n → w.clock.status m.xid ≠ .committed

/-- The row is past the cutoff. -/
def Expired (ttl : α → Option ℤ) (cutoff : ℤ) (r : α) : Prop :=
  ∃ t, ttl r = some t ∧ t < cutoff

def World.removedBy (w : World α) (x : ℕ) : ℕ :=
  w.groups.countP fun g => decide (g.retirer = some x)

/-- The expire of transaction `x`, which has not aborted: the groups it retires hold no
live row within the retention, and they are the groups it records and counts. -/
structure Exact (ttl : α → Option ℤ) (w : World α) : Prop where
  dropped : ∀ x p, w.pass x = some p → ∀ g ∈ w.groups, g.retirer = some x →
    ∀ n r, g.row? n = some r → w.Live n → Expired ttl p.cutoff r
  recorded : ∀ x p, w.pass x = some p → w.clock.status x ≠ .aborted → ∀ i,
    (∃ r ∈ w.records, r.xid = x ∧ r.group = i) ↔ ∃ g, w.groups[i]? = some g ∧ g.retirer = some x
  counted : ∀ x p, w.pass x = some p → w.clock.status x ≠ .aborted → p.retired = w.removedBy x

end PgColumnar.Retention
