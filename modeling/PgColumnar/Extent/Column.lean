import PgColumnar.Lib.Mvcc
import PgColumnar.Zone.Write

/-!
# The column extent

`pgcolumnar.column_extent` holds rows of bounds on the values of a column
(`columnar_extent.c`).  A transaction folds the zone maps of the groups it flushes in
memory and inserts one row at pre-commit.  A complete row comes from a recompute, which
folds the zone maps of every group its snapshot sees and replaces the rows that snapshot
sees, or from a merge, which folds those rows.  A transaction that retired a group
recomputes and does not insert its row; every transaction that inserted one recomputes or
merges when there is no complete row or there are many.

One column of one storage is modelled; the lock and the marks are the storage's.  A
recompute takes its lock and its snapshot in one step and writes in a later one.  Groups
written before the column was added have no zone map for it.  The bounds are stored with
the codec of the column's values, which reads back what it stored.

Every subtransaction has an id of its own and `top` names the transaction it is part of;
the memory of a transaction survives the abort of a subtransaction.

The ids of lazy vacuums, which retire groups too, may be left out of a snapshot; to whoever
reads under it, what such an id has written or deleted was given up, and the row is marked so.

## Main definitions

* `State`, `step` — writers, their pre-commits, and the readers of the extent.
* `State.extentBound` — what a reader is told.
-/

namespace PgColumnar.Extent

open Mvcc Zone Function

variable {α ε : Type}

/-- The parts of a whole-chunk zone map that the extent reads. -/
structure ChunkZone (α : Type) where
  valueCount : ℕ
  minMax : Option (α × α)

/-- A row group, as far as the column is concerned. -/
structure Group (α : Type) where
  rows : List (Option α)
  zone : Option (ChunkZone α)
  writer : ℕ
  retirer : Option ℕ

/-- A row of `pgcolumnar.column_extent`. -/
structure ExtentRow (α : Type) where
  complete : Bool
  bounds : Option (α × α)
  inserter : ℕ
  deleter : Option ℕ

/-- How far the pre-commit of a transaction is. -/
inductive Phase where
  | active
  /-- Its row is set aside, since a recompute takes its groups. -/
  | recompute
  /-- Its row is written. -/
  | look
  | wantLock (complete : Bool)
  /-- It holds the lock and its snapshot, to merge or to recompute. -/
  | replace (merge : Bool) (snapshot : Snapshot)
  | done
  deriving DecidableEq

/-- What a transaction keeps in memory: `extent_pending` and `extent_recompute`. -/
structure Xact (α : Type) where
  pending : Option (α × α)
  recompute : Bool
  phase : Phase

def Xact.start : Xact α := ⟨none, false, .active⟩

structure State (α : Type) where
  /-- Which ids are those of lazy vacuums. -/
  lazy : ℕ → Bool
  clock : Clock
  top : ℕ → ℕ
  groups : List (Group α)
  extents : List (ExtentRow α)
  xact : ℕ → Xact α
  lock : Option ℕ

/-- The table when the column was added: the groups it had have no zone map. -/
def State.init (lazy : ℕ → Bool) (old : List (List (Option α))) : State α where
  lazy := lazy
  clock := ⟨1, fun x => if x = 0 then .committed else .unused, []⟩
  top := id
  groups := old.map fun rows => ⟨rows, none, 0, none⟩
  extents := []
  xact := fun _ => .start
  lock := none

/-! ## Folds -/

/-- `extent_cmp`.  It is not asked for a type without a comparison, whose zone maps have no
bounds. -/
def extentCmp (col : ColumnDef α ε) (a b : α) : ℤ :=
  match col.cmp with
  | some cmp => cmp a b
  | none => 0

/-- The zone map that the flush writes for the whole chunk. -/
def chunkZoneOf (col : ColumnDef α ε) (vectors : List (List (Option α))) : ChunkZone α where
  valueCount := ((vectors.map (bufferOf col)).map (·.valueCount)).sum
  minMax := chunkMinMax col (vectors.map (bufferOf col))

/-- `PgColumnarExtentNote`. -/
def extentNote (col : ColumnDef α ε) (pending : Option (α × α)) (z : ChunkZone α) :
    Option (α × α) :=
  foldMinMax (extentCmp col) pending z.minMax

/-- The fold of bounds, from none. -/
def foldBounds (col : ColumnDef α ε) (bounds : List (Option (α × α))) : Option (α × α) :=
  bounds.foldl (foldMinMax (extentCmp col)) none

/-- `extent_recompute_column`: the bounds to write, or nothing when the zone maps cannot
bound the column. -/
def recomputeColumn (col : ColumnDef α ε) (groups : List (Group α)) :
    Option (Option (α × α)) :=
  let zones := groups.filterMap (·.zone)
  if zones.length ≠ groups.length then none
  else if zones.any fun z => z.minMax.isNone && decide (z.valueCount ≠ 0) then none
  else some (foldBounds col (zones.map (·.minMax)))

/-- `extent_merge_column`. -/
def mergeColumn (col : ColumnDef α ε) (groups : List (Group α)) (rows : List (ExtentRow α)) :
    Option (Option (α × α)) :=
  if rows.any (·.complete) then some (foldBounds col (rows.map (·.bounds)))
  else recomputeColumn col groups

/-! ## Reading -/

def Group.visible (vis : ℕ → Bool) (g : Group α) : Bool := vis g.writer && !g.retirer.any vis

def ExtentRow.visible (vis : ℕ → Bool) (r : ExtentRow α) : Bool :=
  vis r.inserter && !r.deleter.any vis

/-- The id is of transaction `t`, and running. -/
def State.own (s : State α) (t x : ℕ) : Bool :=
  decide (s.clock.status x = .running) && decide (s.top x = t)

/-- What transaction `t` sees under a snapshot. -/
def State.vis (s : State α) (snap : Snapshot) (t x : ℕ) : Bool :=
  decide (s.clock.sees snap x) || s.own t x

def State.readRowGroupList (s : State α) (vis : ℕ → Bool) : List (Group α) :=
  s.groups.filter (Group.visible vis)

/-- `PgColumnarReadExtentRows`. -/
def State.readExtentRows (s : State α) (vis : ℕ → Bool) : List (ExtentRow α) :=
  s.extents.filter (ExtentRow.visible vis)

/-- `PgColumnarExtentBound`: nothing without a complete row, else the fold of the visible
rows and the transaction's own pending bounds. -/
def State.extentBound (col : ColumnDef α ε) (s : State α) (snap : Snapshot) (t : ℕ) :
    Option (Option (α × α)) :=
  let rows := s.readExtentRows (s.vis snap t)
  if rows.any (·.complete) then
    some (foldMinMax (extentCmp col) (foldBounds col (rows.map (·.bounds))) (s.xact t).pending)
  else none

/-! ## Steps -/

def State.setXact (s : State α) (t : ℕ) (x : Xact α) : State α :=
  { s with xact := update s.xact t x }

/-- `EXTENT_MERGE_ABOVE` -/
def extentMergeAbove : ℕ := 8

/-- `extent_replace`: one complete row for every row that is visible. -/
def replaceRows (vis : ℕ → Bool) (t : ℕ) (bounds : Option (α × α)) (rows : List (ExtentRow α)) :
    List (ExtentRow α) :=
  (rows.map fun r => if r.visible vis then { r with deleter := some t } else r) ++
    [⟨true, bounds, t, none⟩]

/-- What the recompute or merge of `t` under this snapshot writes. -/
def State.replacement (col : ColumnDef α ε) (s : State α) (t : ℕ) (merge : Bool)
    (snap : Snapshot) : Option (Option (α × α)) :=
  let groups := s.readRowGroupList (s.vis snap t)
  if merge then mergeColumn col groups (s.readExtentRows (s.vis snap t))
  else recomputeColumn col groups

/-- The end of `PgColumnarExtentPreCommit` after a recompute or merge. -/
def State.replace (col : ColumnDef α ε) (s : State α) (t : ℕ) (merge : Bool) (snap : Snapshot) :
    State α :=
  let s' := s.setXact t ⟨none, false, .done⟩
  match s.replacement col t merge snap with
  | none => s'
  | some bounds => { s' with extents := replaceRows (s.vis snap t) t bounds s.extents }

/-- The lazy vacuums but transaction `t`, which knows its own id without a snapshot. -/
def State.others (s : State α) (t x : ℕ) : Bool := s.lazy x && !s.own t x

/-- Take the lock, and a snapshot after it. -/
def State.takeLock (s : State α) (t : ℕ) (merge : Bool) : State α :=
  { s with
    clock := s.clock.takeSnapshotBut (s.others t)
    xact := update s.xact t
      { s.xact t with phase := .replace merge (s.clock.latestBut (s.others t)) }
    lock := some t }

inductive Action (α : Type) where
  | begin
  | beginSub (t : ℕ)
  | commit (t : ℕ)
  | abort (xs : List ℕ)
  | takeSnapshot
  /-- Subtransaction `x` flushes a row group made of these vectors. -/
  | append (x : ℕ) (vectors : List (List (Option α)))
  | retire (x i : ℕ)
  /-- `PgColumnarExtentPreCommit` up to the recompute. -/
  | preCommit (t : ℕ)
  | recomputeLock (t : ℕ)
  | look (t : ℕ)
  | tryLock (t : ℕ)
  | replace (t : ℕ)
  /-- Under snapshot `k` somebody reads the row of group `i`. -/
  | hintGroup (k i : ℕ)
  /-- The same, of row `i` of the extent. -/
  | hintExtent (k i : ℕ)

/-- The subtransaction can work: it is running, and its transaction is not committing. -/
def State.working (s : State α) (x : ℕ) : Bool :=
  decide (s.clock.status x = .running) && decide (s.clock.status (s.top x) = .running) &&
    decide ((s.xact (s.top x)).phase = .active)

def stepPreCommit (col : ColumnDef α ε) (s : State α) (t : ℕ) : Action α → Option (State α)
  | .preCommit _ =>
    match (s.xact t).phase with
    | .active =>
      if s.clock.status t = .running ∧ s.top t = t then
        if (s.xact t).recompute then some (s.setXact t { s.xact t with phase := .recompute })
        else
          match (s.xact t).pending with
          | none => some (s.setXact t ⟨none, false, .done⟩)
          | some p =>
            some { s.setXact t ⟨none, false, .look⟩ with
              extents := s.extents ++ [⟨false, some p, t, none⟩] }
      else none
    | _ => none
  | .recomputeLock _ =>
    match (s.xact t).phase with
    | .recompute => if s.lock.isNone then some (s.takeLock t false) else none
    | _ => none
  | .look _ =>
    match (s.xact t).phase with
    | .look =>
      let rows := s.readExtentRows (s.vis s.clock.latest t)
      let complete := rows.any (·.complete)
      if complete && decide (rows.length ≤ extentMergeAbove) then
        some (s.setXact t { s.xact t with phase := .done })
      else some (s.setXact t { s.xact t with phase := .wantLock complete })
    | _ => none
  | .tryLock _ =>
    match (s.xact t).phase with
    | .wantLock complete =>
      if s.lock.isNone then some (s.takeLock t complete)
      else some (s.setXact t { s.xact t with phase := .done })
    | _ => none
  | .replace _ =>
    match (s.xact t).phase with
    | .replace merge snap => some (s.replace col t merge snap)
    | _ => none
  | _ => none

/-- The transactions among `xs` forget what they had in memory. -/
def State.forget (s : State α) (xs : List ℕ) : State α :=
  { s with
    xact := fun t => if t ∈ xs then .start else s.xact t
    lock := s.lock.filter fun t => decide (t ∉ xs) }

/-- `HEAP_XMAX_INVALID` is set on a group, `HEAP_XMIN_INVALID` or `HEAP_XMAX_INVALID` on a
row of the extent. -/
def stepHint (s : State α) (snap : Snapshot) : Action α → Option (State α)
  | .hintGroup _ i => (s.groups[i]?).bind fun g =>
    if s.clock.sees snap g.writer ∧ ∃ y ∈ g.retirer, s.clock.Missed snap y then
      some { s with groups := s.groups.set i { g with retirer := none } }
    else none
  | .hintExtent _ i => (s.extents[i]?).bind fun r =>
    if s.clock.Missed snap r.inserter then some { s with extents := s.extents.eraseIdx i }
    else if s.clock.sees snap r.inserter ∧ ∃ y ∈ r.deleter, s.clock.Missed snap y then
      some { s with extents := s.extents.set i { r with deleter := none } }
    else none
  | _ => none

def step (col : ColumnDef α ε) (s : State α) : Action α → Option (State α)
  | .begin =>
    some { s with
      clock := s.clock.begin
      top := update s.top s.clock.next s.clock.next }
  | .beginSub t =>
    if s.working t = true ∧ s.top t = t then
      some { s with
        clock := s.clock.begin
        top := update s.top s.clock.next t }
    else none
  | .commit t =>
    if s.clock.status t = .running ∧ s.top t = t ∧ (s.xact t).phase = .done then
      let xs := s.clock.running.filter fun x => decide (s.top x = t)
      some { s.forget [t] with clock := s.clock.finish xs .committed }
    else none
  | .abort xs =>
    -- a subtransaction aborts while its transaction works, or together with it
    if (∀ x ∈ xs, s.clock.status x = .running ∧
        (s.top x ∈ xs ∨ (s.xact (s.top x)).phase = .active)) ∧
        (∀ x ∈ s.clock.running, s.top x ∈ xs → x ∈ xs) then
      some { s.forget xs with clock := s.clock.finish xs .aborted }
    else none
  | .takeSnapshot => some { s with clock := s.clock.takeSnapshotBut s.lazy }
  | .append x vectors =>
    if s.working x = true then
      let z := chunkZoneOf col vectors
      let t := s.top x
      some { s.setXact t { s.xact t with pending := extentNote col (s.xact t).pending z } with
        groups := s.groups ++ [⟨vectors.flatten, some z, x, none⟩] }
    else none
  | .retire x i =>
    match s.groups[i]? with
    | none => none
    | some g =>
      -- the row of the catalog is there, and nobody else is deleting it
      if s.working x = true ∧ g.visible (s.vis s.clock.latest (s.top x)) = true ∧
          (∀ y ∈ g.retirer, s.clock.status y = .aborted) then
        let t := s.top x
        some { s.setXact t { s.xact t with recompute := true } with
          groups := s.groups.set i { g with retirer := some x } }
      else none
  | a@(.preCommit t) => stepPreCommit col s t a
  | a@(.recomputeLock t) => stepPreCommit col s t a
  | a@(.look t) => stepPreCommit col s t a
  | a@(.tryLock t) => stepPreCommit col s t a
  | a@(.replace t) => stepPreCommit col s t a
  | a@(.hintGroup k _) | a@(.hintExtent k _) =>
    (s.clock.snapshots[k]?).bind fun snap => stepHint s snap a

end PgColumnar.Extent
