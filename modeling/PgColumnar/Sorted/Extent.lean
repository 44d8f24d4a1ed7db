import PgColumnar.Lib.Mvcc
import PgColumnar.Write.Buffer
import Mathlib.Data.List.Sort

/-!
# The recorded sorted run

An ordering rewrite records in `pgcolumnar.storage` which row groups it left in order: a
range of group numbers with the order's kind and key.  The eager rewrites order a whole
new storage under `AccessExclusiveLock` (`record_sorted_extent`).  The online recluster
runs beside other writers (`pgcolumnar_recluster_online`): the numbers of its groups, of
its projections' groups and of everybody else's come from one counter on the metapage,
so it records only the consecutive part of its own (`record_online_sorted_extent`).

Later calls read the mark back and return early when every group they list lies in the
range (`selfGate`, `vacuumSortedGateIsNoop`).

One storage is modelled.  A writer draws stripe ids (`reserve`) and writes row groups
under the ids its transaction drew, in whatever order its buffers are flushed
(`PgColumnar.Write.Buffer` has the buffers); `compact_rewrite`, expiry and the retirement
of deleted groups are made of these steps and `retire`.

Every subtransaction has an id of its own and `top` names the transaction it is part of.
Who drew a stripe id and which rewrite wrote a group is kept beside the state; no step of
the code reads it.

## Main definitions

* `recordSortedExtent`, `selfGate` — the recorded run, and when a rewrite is skipped for it.
* `Job`, `stepJob` — a rewrite, writing and recording.
-/

namespace PgColumnar.Sorted

open Mvcc Write

inductive Curve where
  | zorder
  | hilbert
  deriving DecidableEq

/-- `sorted_kind`. -/
inductive Kind where
  | lexicographic
  | curve (c : Curve)
  deriving DecidableEq

/-- What a run is ordered by: `sorted_kind` and the column names of `sorted_by`. -/
structure Order where
  kind : Kind
  key : List String
  deriving DecidableEq

/-- Who drew a stripe id. -/
inductive Owner where
  | writer (x : ℕ)
  | job (j : ℕ)
  deriving DecidableEq

/-- A row of `pgcolumnar.row_group`; `subid` inserted it.  The deletes are the rows marked
by its delete vectors, each with the subtransaction that flushed it. -/
structure Group (α : Type) extends RowGroup α where
  retirer : Option ℕ
  deletes : List (ℕ × ℕ)
  job : Option ℕ

/-- The columns `sorted_from` and `sorted_through` with the order, as one version of the
row in `pgcolumnar.storage`. -/
structure Mark where
  sortedFrom : ℕ
  sortedThrough : ℕ
  order : Order
  xid : ℕ
  job : ℕ
  deriving DecidableEq

/-- The write state a rewrite writes through: `reservedStripeIds`, and those of the inner
write state of each projection writer. -/
structure Writer (α : Type) where
  state : WriteState α
  stripeIds : List ℕ
  projIds : List (List ℕ)

/-- How far a rewrite is: it has listed its groups, or it has the sorted rows still to be
written and notes how many stripe ids were reserved before. -/
inductive Phase (α : Type) where
  | listed
  | writing (rest : List α) (w : Writer α) (stripeMark : ℕ)

/-- A rewrite under way. -/
structure Job (α : Type) where
  xid : ℕ
  number : ℕ
  order : Order
  eager : Bool
  oldGroups : List ℕ
  phase : Phase α

structure State (α : Type) where
  clock : Clock
  top : ℕ → ℕ
  metapage : Metapage
  owner : ℕ → Option Owner
  groups : List (Group α)
  marks : List Mark
  /-- The holder of `ShareUpdateExclusiveLock`, and that of `AccessExclusiveLock`. -/
  lock : Option ℕ
  exclusive : Option ℕ
  job : Option (Job α)
  jobs : ℕ

/-- The metapage of a new storage. -/
def newMetapage : Metapage := ⟨1, 1⟩

def State.init {α : Type} : State α :=
  ⟨Clock.init, id, newMetapage, fun _ => none, [], [], none, none, none, 0⟩

variable {α : Type}

/-! ## Reading -/

/-- What subtransaction `x` sees of the latest state. -/
def State.self (s : State α) (x y : ℕ) : Bool :=
  decide (s.clock.status y = .committed) ||
    (decide (s.clock.status y = .running) && decide (s.top y = s.top x))

def Group.visible (vis : ℕ → Bool) (g : Group α) : Bool := vis g.subid && !g.retirer.any vis

def Group.deleted (vis : ℕ → Bool) (g : Group α) (k : ℕ) : Bool :=
  g.deletes.any fun d => decide (d.1 = k) && vis d.2

/-- The rows of the group that are not deleted. -/
def Group.live (vis : ℕ → Bool) (g : Group α) : List α :=
  (g.rows.zipIdx.filter fun r => !g.deleted vis r.2).map (·.1)

/-- `PgColumnarReadRowGroupList`, by group number. -/
def State.readRowGroupList (s : State α) (x : ℕ) : List (Group α) :=
  (s.groups.filter (Group.visible (s.self x))).insertionSort fun a b =>
    a.groupNumber ≤ b.groupNumber

/-- `PgColumnarGetSortedInfo`: the version of the mark that is current for `x`. -/
def State.sortedInfo (s : State α) (x : ℕ) : Option Mark :=
  s.marks.reverse.find? fun m => s.self x m.xid

/-- The self-gate of the online recluster: the groups, in order of their numbers, lie in a
recorded run of this order. -/
def selfGate (order : Order) (info : Option Mark) (groups : List (Group α)) : Bool :=
  match info, groups.head?, groups.getLast? with
  | some m, some first, some last =>
    decide (m.order = order) && decide (m.sortedFrom ≤ first.groupNumber) &&
      decide (last.groupNumber ≤ m.sortedThrough)
  | _, _, _ => false

def State.selfGate (s : State α) (x : ℕ) (order : Order) : Bool :=
  Sorted.selfGate order (s.sortedInfo x) (s.readRowGroupList x)

/-- `vacuum_sorted_gate_is_noop`. -/
def State.vacuumSortedGateIsNoop (s : State α) (x : ℕ) (key : List String) : Bool :=
  match s.sortedInfo x with
  | none => false
  | some m =>
    decide (m.order = ⟨.lexicographic, key⟩) && !(s.readRowGroupList x).isEmpty &&
      (s.readRowGroupList x).all fun g =>
        decide (m.sortedFrom ≤ g.groupNumber) && decide (g.groupNumber ≤ m.sortedThrough) &&
          decide (g.rows.length ≠ 0) && g.deletes.all fun d => !s.self x d.2

/-! ## Recording the run -/

/-- The end of the consecutive run that starts at `e`. -/
def runEnd (e : ℕ) : List ℕ → ℕ
  | [] => e
  | i :: is => if i ≠ e + 1 then e else runEnd i is

/-- `qsort` with `uint64_cmp`. -/
def sortIds (ids : List ℕ) : List ℕ := ids.insertionSort (· ≤ ·)

/-- `record_online_sorted_extent`: the consecutive run of the ids the rewrite reserved,
those of its projections included. -/
def recordOnlineSortedExtent (w : Writer α) (stripeMark : ℕ) : Option (ℕ × ℕ) :=
  match sortIds (w.stripeIds.drop stripeMark) with
  | [] => none
  | lo :: ours =>
    let proj := w.projIds.flatten.filter fun i => decide (lo ≤ i)
    match sortIds (lo :: ours ++ proj) with
    | [] => none
    | first :: rest => some (first, runEnd first rest)

/-- `record_sorted_extent`: from the lowest group to the highest. -/
def recordSortedExtent (groups : List (Group α)) : Option (ℕ × ℕ) :=
  match groups.map (·.groupNumber) with
  | [] => none
  | n :: ns => some (ns.foldl min n, ns.foldl max n)

def Job.extent (job : Job α) (w : Writer α) (stripeMark : ℕ) (groups : List (Group α)) :
    Option (ℕ × ℕ) :=
  if job.eager then recordSortedExtent groups else recordOnlineSortedExtent w stripeMark

/-! ## Writing -/

/-- `PgColumnarReserveRowNumbers`. -/
def State.reserve (s : State α) (o : Owner) (rowCount : ℕ) : State α :=
  { s with
    metapage := s.metapage.reserveRowNumbers rowCount
    owner := Function.update s.owner s.metapage.reservedStripeId (some o) }

/-- Row groups inserted into the catalog. -/
def State.addGroups (s : State α) (job : Option ℕ) (gs : List (RowGroup α)) : State α :=
  { s with groups := s.groups ++ gs.map fun g => ⟨g, none, [], job⟩ }

/-- `PgColumnarRetireGroup` of the groups with these numbers. -/
def State.retire (s : State α) (x : ℕ) (numbers : List ℕ) : State α :=
  { s with
    groups := s.groups.map fun g =>
      if g.groupNumber ∈ numbers ∧ g.visible (s.self x) = true then { g with retirer := some x }
      else g }

/-- The delete vectors of group `n` get the row `k`. -/
def State.delete (s : State α) (x n k : ℕ) : State α :=
  { s with
    groups := s.groups.map fun g =>
      if g.groupNumber = n then { g with deletes := (k, x) :: g.deletes } else g }

/-- A lock is free for `x` when its holder has ended or is of the same transaction. -/
def State.lockFree (s : State α) (holder : Option ℕ) (x : ℕ) : Bool :=
  holder.all fun y => decide (s.clock.status y ≠ .running) || decide (s.top y = s.top x)

/-- The subtransaction can work on the relation: it is running, nobody holds the relation
exclusively, and no rewrite of the same transaction is under way. -/
def State.allowed (s : State α) (x : ℕ) : Bool :=
  decide (s.clock.status x = .running) && s.lockFree s.exclusive x &&
    s.job.all fun job => decide (s.top job.xid ≠ s.top x)

/-- The id was drawn by a writer of this transaction. -/
def State.drewId (s : State α) (x n : ℕ) : Bool :=
  match s.owner n with
  | some (.writer y) => decide (s.top y = s.top x)
  | _ => false

/-- A write state `PgColumnarGetWriteState` can return after a flush: its stripe, if it
has one, is empty, and what it has reserved was drawn by this transaction. -/
def State.ownWriter (s : State α) (x : ℕ) (w : Writer α) : Bool :=
  decide (w.state.subid = x) && w.state.flushedUnder.isNone && (match w.state.stripe with
    | none => true
    | some st => st.rows.isEmpty && s.drewId x st.stripeId) &&
    w.stripeIds.all (s.drewId x) && w.projIds.flatten.all (s.drewId x)

/-- The write state of a storage nobody has written to. -/
def newWriter (x natts : ℕ) (limit : RowLimit) (projections : ℕ) : Writer α :=
  ⟨newWriteState x natts limit, [], List.replicate projections []⟩

/-- `PgColumnarWriteRow` by the rewrite, which notes the stripe id it reserved. -/
def State.jobWriteRow (s : State α) (job : Job α) (row : α) (rest : List α) (w : Writer α)
    (stripeMark : ℕ) : State α :=
  let r := writeRow job.xid w.state s.metapage row
  let fresh := w.state.stripe.isNone
  let w' : Writer α :=
    { w with
      state := r.state
      stripeIds := if fresh then w.stripeIds ++ [s.metapage.reservedStripeId] else w.stripeIds }
  let s' : State α :=
    { s with
      metapage := r.metapage
      owner := if fresh then
        Function.update s.owner s.metapage.reservedStripeId (some (.job job.number)) else s.owner
      job := some { job with phase := .writing rest w' stripeMark } }
  s'.addGroups (some job.number) r.groups

/-- The last flush of the rewrite. -/
def State.jobFlush (s : State α) (job : Job α) (w : Writer α) : State α :=
  s.addGroups (some job.number) (flushWriteState job.xid w.state).2

/-- `PgColumnarSetSortedExtent`. -/
def State.setSortedExtent (s : State α) (job : Job α) : Option (ℕ × ℕ) → State α
  | none => s
  | some (first, last) =>
    { s with marks := s.marks ++ [⟨first, last, job.order, job.xid, job.number⟩] }

/-- The end of the rewrite: flush, retire the old groups, record the run. -/
def State.jobFinish (s : State α) (job : Job α) (w : Writer α) (stripeMark : ℕ) : State α :=
  let s₁ := (s.jobFlush job w).retire job.xid job.oldGroups
  { s₁.setSortedExtent job (job.extent w stripeMark (s₁.readRowGroupList job.xid)) with
    job := none }

/-- `RECLUSTER_MAX_GROUPS` -/
def reclusterMaxGroups : ℕ := 8192

/-- The rows are written in the order of the sort, whichever way it places rows that
compare equal. -/
def sortsTo [DecidableEq α] (le : Order → α → α → Bool) (order : Order) (live sorted : List α) :
    Bool :=
  decide (sorted.Perm live) && decide (sorted.Pairwise fun a b => le order a b = true)

/-- The live rows of the listed groups under the latest snapshot. -/
def State.liveRows (s : State α) (x : ℕ) (numbers : List ℕ) : List α :=
  ((s.readRowGroupList x).filter fun g => decide (g.groupNumber ∈ numbers)).flatMap
    (Group.live (s.self x))

inductive Action (α : Type) where
  | begin
  | beginSub (t : ℕ)
  | commit (t : ℕ)
  /-- Subtransactions of one transaction abort. -/
  | abort (xs : List ℕ)
  /-- A writer draws a stripe id, for the base or for a projection. -/
  | reserve (x rowCount : ℕ)
  /-- It writes a row group of the base under an id of its transaction. -/
  | flushRowGroup (x n firstRowNumber : ℕ) (rows : List α)
  | delete (x n k : ℕ)
  | retire (x : ℕ) (numbers : List ℕ)
  | recluster (x : ℕ) (curve : Curve) (key : List String)
  /-- An eager rewrite starts to write the rows it has read from the old storage. -/
  | rewrite (x : ℕ) (order : Order) (rows sorted : List α) (natts : ℕ) (limit : RowLimit)
      (projections : ℕ)
  | jobRead (sorted : List α) (w : Writer α)
  | jobWrite
  /-- Projection `p` of the rewrite draws a stripe id. -/
  | jobReserve (p rowCount : ℕ)
  | jobFinish

/-- A step of the rewrite under way. -/
def stepJob [DecidableEq α] (le : Order → α → α → Bool) (s : State α) (job : Job α) :
    Action α → Option (State α)
  | .jobRead sorted w =>
    match job.phase with
    | .listed =>
      if sortsTo le job.order (s.liveRows job.xid job.oldGroups) sorted = true ∧
          s.ownWriter job.xid w = true then
        some { s with
          job := some { job with phase := .writing sorted w w.stripeIds.length } }
      else none
    | _ => none
  | .jobWrite =>
    match job.phase with
    | .writing (row :: rest) w stripeMark => some (s.jobWriteRow job row rest w stripeMark)
    | _ => none
  | .jobReserve p rowCount =>
    match job.phase with
    | .writing rest w stripeMark =>
      let w' : Writer α :=
        { w with projIds := w.projIds.modify p fun ids => ids ++ [s.metapage.reservedStripeId] }
      some { s.reserve (.job job.number) rowCount with
        job := some { job with phase := .writing rest w' stripeMark } }
    | _ => none
  | .jobFinish =>
    match job.phase with
    | .writing [] w stripeMark => some (s.jobFinish job w stripeMark)
    | _ => none
  | _ => none

/-- The online recluster up to its self-gate: it takes the lock and lists the groups. -/
def State.reclusterBegin (s : State α) (x : ℕ) (order : Order) : Option (State α) :=
  let groups := s.readRowGroupList x
  let s₁ := { s with lock := some x }
  if groups.isEmpty then some s₁
  else if reclusterMaxGroups < groups.length then none
  else if Sorted.selfGate order (s.sortedInfo x) groups then some s₁
  else
    some { s₁ with
      job := some ⟨x, s.jobs, order, false, groups.map (·.groupNumber), .listed⟩
      jobs := s.jobs + 1 }

def step [DecidableEq α] (le : Order → α → α → Bool) (s : State α) :
    Action α → Option (State α)
  | .begin => some { s with clock := s.clock.begin }
  | .beginSub t =>
    if s.clock.status t = .running ∧ s.top t = t then
      some { s with clock := s.clock.begin, top := Function.update s.top s.clock.next t }
    else none
  | .commit t =>
    -- a rewrite runs to its end
    if s.clock.status t = .running ∧ s.top t = t ∧ (∀ job ∈ s.job, s.top job.xid ≠ t) then
      let xs := s.clock.running.filter fun x => decide (s.top x = t)
      some { s with clock := s.clock.finish xs .committed }
    else none
  | .abort xs =>
    if ∀ x ∈ xs, s.clock.status x = .running then
      some { s with
        clock := s.clock.finish xs .aborted
        job := s.job.filter fun job => decide (job.xid ∉ xs) }
    else none
  | .reserve x rowCount =>
    if s.allowed x = true then some (s.reserve (.writer x) rowCount) else none
  | .flushRowGroup x n firstRowNumber rows =>
    if s.allowed x = true ∧ s.drewId x n = true then
      some (s.addGroups none [⟨n, firstRowNumber, rows, x⟩])
    else none
  | .delete x n k => if s.allowed x = true then some (s.delete x n k) else none
  | .retire x numbers => if s.allowed x = true then some (s.retire x numbers) else none
  | .recluster x curve key =>
    if s.allowed x = true ∧ s.lockFree s.lock x = true ∧ s.job.isNone = true then
      s.reclusterBegin x ⟨.curve curve, key⟩
    else none
  | .rewrite x order rows sorted natts limit projections =>
    -- the storage is new and the relation locked exclusively
    if s.allowed x = true ∧ s.lockFree s.lock x = true ∧ s.job.isNone = true ∧
        s.metapage.reservedStripeId = newMetapage.reservedStripeId ∧
        sortsTo le order rows sorted = true then
      some { s with
        lock := some x
        exclusive := some x
        job := some ⟨x, s.jobs, order, true, [], .writing sorted
          (newWriter x natts limit projections) 0⟩
        jobs := s.jobs + 1 }
    else none
  | a => s.job.bind fun job => stepJob le s job a

end PgColumnar.Sorted
