import PgColumnar.Delete.Serialize
import PgColumnar.Lib.Catalog
import PgColumnar.Lib.Mvcc

/-!
# Retiring fully deleted row groups

A lazy vacuum and `pgcolumnar.compact` retire the row groups whose rows are all deleted
for every snapshot (`PgColumnarRetireFullyDeletedGroups`).  A pass reads the oldest-xmin
horizon, lists the groups under the latest snapshot, and then deletes the catalog rows of
each.  It takes no chunk-group lock, so deletes are flushed at any moment in between.

A group has a row in `pgcolumnar.row_group` and at most one current row in
`pgcolumnar.delete_vector`; each flush replaces the latter by a new version.  Rows of the
catalog carry the ids of the subtransactions that wrote and deleted them.  A flush takes
the lock and looks for the row group, reads the delete vector, and writes it; each of the
three is a step of its own.

The frames of a transaction are its open subtransactions, innermost first; a frame holds
the id of its subtransaction and those of the subtransactions that have committed into it.

The marks of a transaction are private until they are flushed, so a flush is given the
rows it deletes.  Passes are not kept apart by the lock on the relation: no result needs it.

A lazy vacuum writes no rows, and its id holds back neither snapshots nor horizons
(`PROC_IN_VACUUM`).  Whoever reads a row that such an id has deleted, under a snapshot that
leaves it out, takes the deletion for one given up, and says so in the row for all.

## Main definitions

* `State`, `step` — flushes of delete vectors, and passes of a lazy vacuum.
* `State.hint` — a reader marks a version as not deleted after all.
* `Action.Listed` — a snapshot that leaves no running vacuum out.
-/

namespace PgColumnar.Compact

open Bytes Mvcc PgColumnar.Delete.Serialize Function

/-- A version of a row of `pgcolumnar.delete_vector`: who wrote it, who replaced it, and
the pass that deleted it. -/
structure Version where
  vector : StoredVector
  xmin : ℕ
  xmax : Option ℕ
  dropped : Option ℕ
  deriving DecidableEq

structure Group where
  rowCount : ℕ
  inserter : ℕ
  retirer : Option ℕ
  versions : List Version
  deriving DecidableEq

/-- A pass that has read its horizon, and later listed its groups. -/
structure Pass where
  oldestXmin : ℕ
  todo : Option (List ℕ)
  deriving DecidableEq

/-- A flush that holds the lock of its group: its rows, and once it has looked for it the
place of the version to replace. -/
structure Flush where
  group : ℕ
  rows : List ℕ
  found : Option (Option ℕ)
  deriving DecidableEq

structure State where
  /-- Which ids are those of lazy vacuums. -/
  lazy : ℕ → Bool
  clock : Clock
  frames : ℕ → List (List ℕ)
  groups : List Group
  /-- Chunk-group locks: the group and the subtransaction that took it. -/
  locks : List (ℕ × ℕ)
  flushing : ℕ → Option Flush
  pass : ℕ → Option Pass

def State.init (lazy : ℕ → Bool) : State :=
  ⟨lazy, Clock.init, fun _ => [], [], [], fun _ => none, fun _ => none⟩

/-! ## Reading -/

/-- The id is one of the transaction's that has not aborted. -/
def State.own (s : State) (t x : ℕ) : Bool := decide (x ∈ (s.frames t).flatten)

/-- The current subtransaction. -/
def State.current (s : State) (t : ℕ) : Option ℕ := (s.frames t).head?.bind List.head?

/-- The current subtransaction, of a transaction that may write. -/
def State.writer (s : State) (t : ℕ) : Option ℕ := (s.current t).filter fun x => !s.lazy x

/-- What has committed, and the ids of the frames. -/
def view (c : Clock) (fs : List (List ℕ)) (x : ℕ) : Bool :=
  decide (c.status x = .committed) || decide (x ∈ fs.flatten)

/-- What the transaction sees of the latest state. -/
def State.self (s : State) (t : ℕ) : ℕ → Bool := view s.clock (s.frames t)

/-- What a reader of transaction `t` sees under a snapshot. -/
def State.vis (s : State) (snap : Snapshot) (t x : ℕ) : Bool :=
  decide (s.clock.sees snap x) || s.own t x

def Version.live (vis : ℕ → Bool) (v : Version) : Bool :=
  vis v.xmin && !v.xmax.any vis && !v.dropped.any vis

def Group.visible (vis : ℕ → Bool) (g : Group) : Bool :=
  vis g.inserter && !g.retirer.any vis

def Group.deleted (vis : ℕ → Bool) (g : Group) (k : ℕ) : Bool :=
  g.versions.any fun v => v.live vis && bitAt v.vector.bitmap k

/-- The rows of the group that the reader finds. -/
def Group.reads (vis : ℕ → Bool) (g : Group) : List ℕ :=
  if g.visible vis then (List.range g.rowCount).filter fun k => !g.deleted vis k else []

/-- The rows that a reader of transaction `t` finds under the snapshot, group by group. -/
def State.reads (s : State) (snap : Snapshot) (t : ℕ) : List (List ℕ) :=
  s.groups.map fun g => g.reads (s.vis snap t)

/-! ## The pass -/

/-- `GetOldestNonRemovableTransactionId`: nothing below is undecided, lazy vacuums apart. -/
def State.isHorizon (s : State) (h : ℕ) : Bool :=
  decide (h ≤ s.clock.next) && (s.clock.running.all fun x => s.lazy x || decide (h ≤ x)) &&
    s.clock.snapshots.all fun snap =>
      decide (h ≤ snap.xmax) && snap.running.all fun x => s.lazy x || decide (h ≤ x)

/-- The deletions counted by the delete-vector rows older than the horizon. -/
def Group.deletedSeen (vis : ℕ → Bool) (oldestXmin : ℕ) (g : Group) : ℕ :=
  ((g.versions.filter fun v => v.live vis && decide (v.xmin < oldestXmin)).map
    fun v => v.vector.deletedCount).sum

/-- `PgColumnarComputeFullyDeletedGroups`. -/
def State.computeFullyDeletedGroups (s : State) (t oldestXmin : ℕ) : List ℕ :=
  (s.groups.zipIdx.filter fun gi =>
    gi.1.visible (s.self t) && decide (gi.1.inserter < oldestXmin) && decide (gi.1.rowCount ≠ 0) &&
      decide (gi.1.rowCount ≤ gi.1.deletedSeen (s.self t) oldestXmin)).map (·.2)

/-- A deletion by a transaction that is still under way, which has to be waited for. -/
def State.pending (s : State) (x : Option ℕ) : Bool :=
  x.any fun y => decide (s.clock.status y = .running)

/-- `PgColumnarRetireGroup`: delete the delete-vector row and the row group. -/
def Group.retire (vis : ℕ → Bool) (x : ℕ) (g : Group) : Group :=
  { g with
    retirer := some x
    versions := g.versions.map fun v => if v.live vis then { v with dropped := some x } else v }

/-! ## The flush -/

/-- The mask of the rows in the delete buffer. -/
def maskOf (rowCount : ℕ) (rows : List ℕ) : List Byte :=
  rows.foldl setBit (zeros ((rowCount + 7) / 8))

/-- The row `PgColumnarUpsertDeleteVector` writes: the mask merged with the version at
`found`, if there is one. -/
def Group.merged (g : Group) (x : ℕ) (rows : List ℕ) (found : Option ℕ) : Version :=
  let existing := found.bind fun j => g.versions[j]?
  ⟨mergeVector (existing.map (·.vector)) (maskOf g.rowCount rows), x, none, none⟩

/-- `CatalogTupleUpdate` of the version at `found`, else `CatalogTupleInsert`. -/
def Group.upsert (g : Group) (x : ℕ) (rows : List ℕ) (found : Option ℕ) : Group :=
  let new := g.merged x rows found
  match found with
  | none => { g with versions := g.versions ++ [new] }
  | some j =>
    { g with versions := (g.versions.modify j fun v => { v with xmax := some x }) ++ [new] }

/-- The version can be replaced: it is still there, and nobody is deleting it.  A deletion
under way is waited for. -/
def State.replaceable (s : State) (t : ℕ) (v : Version) : Bool :=
  v.live (s.self t) && !s.pending v.xmax && !s.pending v.dropped

/-- The transaction is between statements. -/
def State.idle (s : State) (t : ℕ) : Bool := (s.flushing t).isNone && (s.pass t).isNone

/-- No other transaction holds the lock. -/
def State.lockFree (s : State) (t i : ℕ) : Bool :=
  s.locks.all fun l =>
    decide (l.1 ≠ i) || decide (s.clock.status l.2 ≠ .running) || s.own t l.2

inductive Action where
  | begin
  | beginSub (t : ℕ)
  | commitSub (t : ℕ)
  | abortSub (t : ℕ)
  | commit (t : ℕ)
  | abort (t : ℕ)
  | takeSnapshot
  | dropSnapshot (i : ℕ)
  | insert (t rowCount : ℕ)
  /-- Transaction `t` starts to flush its deletes of rows of group `i`. -/
  | flushCheck (t i : ℕ) (rows : List ℕ)
  | flushRead (t : ℕ)
  | flushWrite (t : ℕ)
  | passHorizon (t oldestXmin : ℕ)
  | passList (t : ℕ)
  | passRetire (t : ℕ)
  | passEnd (t : ℕ)
  /-- Under snapshot `k` somebody reads the row of group `i`, or that of its version `j`. -/
  | hint (k i : ℕ) (j : Option ℕ)
  deriving DecidableEq

def Action.ofPass : Action → Bool
  | .passHorizon _ _ | .passList _ | .passRetire _ | .passEnd _ | .hint _ _ _ => true
  | _ => false

/-- What a transaction was doing is given up. -/
def State.reset (s : State) (t : ℕ) : State :=
  { s with
    flushing := update s.flushing t none
    pass := update s.pass t none }

def State.setFrames (s : State) (t : ℕ) (fs : List (List ℕ)) : State :=
  { s with frames := update s.frames t fs }

/-- The subtransactions `xs` end. -/
def State.finish (s : State) (xs : List ℕ) (st : Status) : State :=
  { s with clock := s.clock.finish xs st }

def stepWrite (s : State) (t : ℕ) : Action → Option State
  | .insert _ rowCount =>
    (s.writer t).bind fun x =>
      if s.idle t then some { s with groups := s.groups ++ [⟨rowCount, x, none, []⟩] } else none
  | .flushCheck _ i rows =>
    match s.writer t, s.groups[i]? with
    | some x, some g =>
      -- `row_group_exists`, asked once the lock is held
      if s.idle t = true ∧ s.lockFree t i = true ∧ (∀ k ∈ rows, k < g.rowCount) ∧
          g.visible (s.self t) = true then
        some { s with
          locks := (i, x) :: s.locks
          flushing := update s.flushing t (some ⟨i, rows, none⟩) }
      else none
    | _, _ => none
  | .flushRead _ =>
    match s.flushing t with
    | some ⟨i, rows, none⟩ =>
      (s.groups[i]?).map fun g =>
        let found := g.versions.findIdx? (Version.live (s.self t))
        { s with flushing := update s.flushing t (some ⟨i, rows, some found⟩) }
    | _ => none
  | .flushWrite _ =>
    match s.writer t, s.flushing t with
    | some x, some ⟨i, rows, some found⟩ =>
      (s.groups[i]?).bind fun g =>
        -- "tuple concurrently deleted"
        if ∀ j ∈ found, ∀ v ∈ g.versions[j]?, s.replaceable t v = true then
          some { s with
            groups := s.groups.set i (g.upsert x rows found)
            flushing := update s.flushing t none }
        else none
    | _, _ => none
  | _ => none

def stepPass (s : State) (t : ℕ) : Action → Option State
  | .passHorizon _ oldestXmin =>
    if s.idle t = true ∧ s.frames t ≠ [] ∧ s.isHorizon oldestXmin = true then
      some { s with pass := update s.pass t (some ⟨oldestXmin, none⟩) }
    else none
  | .passList _ =>
    match s.pass t with
    | some ⟨oldestXmin, none⟩ =>
      let todo := s.computeFullyDeletedGroups t oldestXmin
      some { s with pass := update s.pass t (some ⟨oldestXmin, some todo⟩) }
    | _ => none
  | .passRetire _ =>
    match s.current t, s.pass t with
    | some x, some ⟨oldestXmin, some (i :: rest)⟩ =>
      match s.groups[i]? with
      | none => none
      | some g =>
        if g.visible (s.self t) = false then
          -- the catalog rows are gone already
          some { s with pass := update s.pass t (some ⟨oldestXmin, some rest⟩) }
        else if s.pending g.retirer = true ∨ (∃ v ∈ g.versions, v.live (s.self t) = true ∧
            (s.pending v.xmax = true ∨ s.pending v.dropped = true)) then none
        else some { s with
          groups := s.groups.set i (g.retire (s.self t) x)
          pass := update s.pass t (some ⟨oldestXmin, some rest⟩) }
    | _, _ => none
  | .passEnd _ =>
    match s.pass t with
    | some ⟨_, some []⟩ => some { s with pass := update s.pass t none }
    | _ => none
  | _ => none

/-- The snapshot sees the row, and leaves out the id that has deleted it. -/
def State.missed (s : State) (snap : Snapshot) (xmin : ℕ) (xmax : Option ℕ) : Bool :=
  decide (s.clock.sees snap xmin) && xmax.any fun y => decide (s.clock.Missed snap y)

/-- `HEAP_XMAX_INVALID` is set. -/
def State.hint (s : State) (snap : Snapshot) (i : ℕ) (g : Group) : Option ℕ → Option State
  | none =>
    if s.missed snap g.inserter g.retirer then
      some { s with groups := s.groups.set i { g with retirer := none } }
    else none
  | some j => (g.versions[j]?).bind fun v =>
    if s.missed snap v.xmin v.dropped then
      some { s with
        groups := s.groups.set i
          { g with versions := g.versions.set j { v with dropped := none } } }
    else none

def step (s : State) : Action → Option State
  | .begin =>
    some (State.setFrames { s with clock := s.clock.begin } s.clock.next [[s.clock.next]])
  | .beginSub t =>
    match s.frames t with
    | [] => none
    | fs =>
      if s.idle t = true ∧ s.lazy t = false then
        some (State.setFrames { s with clock := s.clock.begin } t ([s.clock.next] :: fs))
      else none
  | .commitSub t =>
    match s.frames t with
    | f :: f' :: fs => if s.idle t then some (s.setFrames t ((f' ++ f) :: fs)) else none
    | _ => none
  | .abortSub t =>
    match s.frames t with
    | f :: f' :: fs => some (((s.finish f .aborted).setFrames t (f' :: fs)).reset t)
    | _ => none
  | .commit t =>
    match s.frames t with
    | [f] => if s.idle t then some ((s.finish f .committed).setFrames t []) else none
    | _ => none
  | .abort t =>
    match s.frames t with
    | [] => none
    | fs => some (((s.finish fs.flatten .aborted).setFrames t []).reset t)
  | .takeSnapshot => some { s with clock := s.clock.takeSnapshotBut s.lazy }
  | .dropSnapshot i => some { s with clock := s.clock.dropSnapshot i }
  | .insert t rowCount => stepWrite s t (.insert t rowCount)
  | .flushCheck t i rows => stepWrite s t (.flushCheck t i rows)
  | .flushRead t => stepWrite s t (.flushRead t)
  | .flushWrite t => stepWrite s t (.flushWrite t)
  | .passHorizon t oldestXmin => stepPass s t (.passHorizon t oldestXmin)
  | .passList t => stepPass s t (.passList t)
  | .passRetire t => stepPass s t (.passRetire t)
  | .passEnd t => stepPass s t (.passEnd t)
  | .hint k i j =>
    (s.clock.snapshots[k]?).bind fun snap => (s.groups[i]?).bind fun g => s.hint snap i g j

/-- The lazy vacuums but transaction `t`, which knows its own id without a snapshot. -/
def State.others (s : State) (t x : ℕ) : Bool := s.lazy x && !s.own t x

/-- No lazy vacuum is left out of the snapshot that is taken: for a reader, for a flush that
looks for its row group, or for a pass that reads the catalog. -/
def Action.Listed (s : State) : Action → Prop
  | .takeSnapshot => s.clock.Lists s.lazy
  | .flushCheck t _ _ | .passList t | .passRetire t => s.clock.Lists (s.others t)
  | _ => True

end PgColumnar.Compact
