import PgColumnar.Sorted.Extent

/-!
# The claimed order

The planner may take a scan to return rows in the recorded lexicographic order, and leave
out the sort (`pgcolumnar_sorted_pathkeys`).  It decides from the row groups it sees while
planning; the scan reads those its own snapshot sees.

A row group flushed outside the recorded run invalidates the relation.  The message is sent
when the transaction commits, after its rows have become visible, and a session that reuses
a cached plan takes the messages in first; a plan made for one execution is not looked at
again.  Rows that the session itself has buffered are flushed when the scan begins.

## Main definitions

* `sortedPathkeys` — the mark behind a claimed order.
* `Sys.step` — writers, and a session that plans and executes.
-/

namespace PgColumnar.Sorted

open Mvcc Write

variable {α : Type}

/-! ## Planning -/

/-- `pgcolumnar_sorted_pathkeys`: the mark behind the claim.  The claimed key is the prefix
of usable columns, those that still resolve, have an ordering and no collation. -/
def sortedPathkeys (enabled : Bool) (usable : String → Bool) (info : Option Mark)
    (groups : List (Group α)) : Option Mark :=
  match info, groups.head?, groups.getLast? with
  | some m, some first, some last =>
    if enabled = true ∧ m.order.kind = .lexicographic ∧ m.sortedFrom ≤ first.groupNumber ∧
        last.groupNumber ≤ m.sortedThrough ∧ m.order.key.takeWhile usable ≠ [] then some m
    else none
  | _, _, _ => none

/-- What transaction `t` sees under a snapshot. -/
def State.visAt (s : State α) (snap : Snapshot) (t y : ℕ) : Bool :=
  decide (s.clock.sees snap y) || (decide (s.clock.status y = .running) && decide (s.top y = t))

/-- `PgColumnarReadRowGroupList` under a snapshot. -/
def State.readRowGroupListAt (s : State α) (snap : Snapshot) (t : ℕ) : List (Group α) :=
  (s.groups.filter (Group.visible (s.visAt snap t))).insertionSort fun a b =>
    a.groupNumber ≤ b.groupNumber

/-- What a serial scan returns. -/
def State.scanRows (s : State α) (snap : Snapshot) (t : ℕ) : List α :=
  (s.readRowGroupListAt snap t).flatMap (Group.live (s.visAt snap t))

/-! ## The session -/

/-- A plan built on the claim: the mark, and the row groups that planning saw. -/
structure Plan where
  mark : Mark
  listed : List ℕ

structure Session (α : Type) where
  xid : ℕ
  snapshot : Snapshot
  plan : Option Plan
  /-- The invalidations that came in since the plan was built, and how many were taken in. -/
  accepted : List ℕ
  position : ℕ
  /-- Row groups the session will flush when a scan of it begins. -/
  buffered : List (ℕ × ℕ × ℕ × List α)
  /-- The scans run under the claim: the claimed order, and the rows returned. -/
  results : List (Order × List α)

/-- The writers, the session, and the invalidations of the relation.  A row group is named by
its position in the catalog. -/
structure Sys (α : Type) where
  table : State α
  registered : List ℕ
  sent : List ℕ
  session : Session α

def Sys.init : Sys α :=
  ⟨.init, [], [], ⟨0, ⟨0, []⟩, none, [], 0, [], []⟩⟩

/-- The test of `flush_row_group`: there is a recorded run, and the group lies outside. -/
def outside (info : Option Mark) (n : ℕ) : Bool :=
  info.any fun m => decide (m.sortedThrough < n) || decide (n < m.sortedFrom)

/-- The positions of the row groups flushed by a step that invalidate the relation. -/
def newlyRegistered (s s' : State α) : List ℕ :=
  (List.range s'.groups.length).filter fun i =>
    decide (s.groups.length ≤ i) &&
      s'.groups[i]?.any fun g => outside (s.sortedInfo g.subid) g.groupNumber

inductive Event (α : Type) where
  /-- A step of a writer, or of the session's own transaction. -/
  | table (a : Action α)
  /-- A transaction that has committed sends its invalidations. -/
  | sendInval (t : ℕ)
  /-- `AcceptInvalidationMessages` in the session. -/
  | acceptInvals
  /-- A command of the session ends, and its own invalidations take effect. -/
  | commandEnd
  | transaction (t : ℕ)
  | takeSnapshot
  | buffer (x n firstRowNumber : ℕ) (rows : List α)
  | plan
  /-- A plan is executed: a cached one if it is still valid, one made for this execution in
  any case. -/
  | execute (cached : Bool)

/-- The positions of the registered row groups that these subtransactions flushed. -/
def Sys.registeredBy (s : Sys α) (p : ℕ → Bool) : List ℕ :=
  s.registered.filter fun i => s.table.groups[i]?.any fun g => p g.subid

section Step

variable [DecidableEq α] (le : Order → α → α → Bool)

/-- A step of the table.  If the rewrite that ordered the storage aborts, the relation goes
back to its old storage and the plan is gone. -/
def Sys.stepTable (s : Sys α) (a : Action α) : Option (Sys α) :=
  (Sorted.step le s.table a).map fun table =>
    { s with
      table := table
      registered := s.registered ++ newlyRegistered s.table table
      session := { s.session with
        plan := s.session.plan.filter fun p =>
          decide (table.clock.status p.mark.xid ≠ .aborted) } }

/-- `PgColumnarFlushWriteStateForRelation` when the scan begins. -/
def Sys.flushBuffered (s : Sys α) : List (ℕ × ℕ × ℕ × List α) → Option (Sys α)
  | [] => some s
  | (x, n, firstRowNumber, rows) :: rest =>
    (s.stepTable le (.flushRowGroup x n firstRowNumber rows)).bind fun s' => s'.flushBuffered rest

def Sys.step (enabled : Bool) (usable : String → Bool) (s : Sys α) : Event α → Option (Sys α)
  | .table a => s.stepTable le a
  | .sendInval t =>
    if s.table.clock.status t = .committed then
      some { s with sent := s.sent ++ s.registeredBy fun x => decide (s.table.top x = t) }
    else none
  | .acceptInvals =>
    some { s with session := { s.session with
      accepted := s.session.accepted ++ s.sent.drop s.session.position
      position := s.sent.length } }
  | .commandEnd =>
    some { s with session := { s.session with
      accepted := s.session.accepted ++ s.registeredBy fun x =>
        decide (s.table.clock.status x = .running) && decide (s.table.top x = s.session.xid) } }
  | .transaction t =>
    if s.table.clock.status t = .running ∧ s.table.top t = t ∧ s.session.buffered = [] then
      some { s with session := { s.session with xid := t } }
    else none
  | .takeSnapshot => some { s with session := { s.session with snapshot := s.table.clock.latest } }
  | .buffer x n firstRowNumber rows =>
    if s.table.top x = s.session.xid then
      some { s with session := { s.session with
        buffered := s.session.buffered ++ [(x, n, firstRowNumber, rows)] } }
    else none
  | .plan =>
    let groups := s.table.readRowGroupListAt s.session.snapshot s.session.xid
    some { s with session := { s.session with
      plan := (sortedPathkeys enabled usable (s.table.sortedInfo s.session.xid) groups).map
        fun m => ⟨m, groups.map (·.groupNumber)⟩
      accepted := [] } }
  | .execute cached =>
    s.session.plan.bind fun p =>
      if cached = true ∧ s.session.accepted ≠ [] then none
      else (s.flushBuffered le s.session.buffered).map fun s' =>
        { s' with session := { s'.session with
          buffered := []
          results := s'.session.results ++
            [(p.mark.order, s'.table.scanRows s'.session.snapshot s'.session.xid)] } }

end Step

end PgColumnar.Sorted
