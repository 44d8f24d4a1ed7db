import Mathlib.Algebra.GroupWithZero.Nat
import Mathlib.Data.List.AList
import PgColumnar.Lib.Run

/-!
# Parallel export into one destination

`columnar_parallel_export.c`: the SQL function lays out contiguous ranges of row groups, or of
leaf partitions, registers one worker for each and waits until they have all stopped.  A worker
adopts the function's exported snapshot and publishes `part-NNNN.parquet` objects, each whole
at once.  When every worker is done the function deletes the parts that a larger run before it
left at a remote prefix, and writes the `_SUCCESS` marker.  When anything fails it terminates
the workers, waits for them up to five seconds, and deletes its parts and any marker.

The exported snapshot shows what others had committed.  What the calling transaction itself
has changed is in the function's own list of row groups alone.  Each worker reads the catalog
itself, and a lazy VACUUM, whose id no snapshot lists, may retire a group between two of these
reads, so what one worker finds need not be what another one does.

A destination is a remote prefix or a local directory, and one run follows another.  The
workers of a run that has ended can still be there.  The steps of all of them come in any
order.  Requests of the clean-up are taken to succeed.

## Main definitions

* `Plan`, `slice` — the tasks of each worker.
* `State`, `step` — runs on one destination, with workers that publish parts and fail.
* `MarkerTrue` — what a completion marker promises.
-/

namespace PgColumnar.Export

/-- The row groups of a leaf partition as the function's snapshot shows them, and as its worker
finds them under the snapshot that it imports. -/
structure Leaf where
  visible : List ℕ
  imported : List ℕ
  deriving DecidableEq, Repr

inductive Target where
  /-- `imported` is what each worker finds. -/
  | table (visible : List ℕ) (imported : List (List ℕ))
  | partitioned (leaves : List Leaf)
  deriving DecidableEq, Repr

/-- The number of row groups, or of leaf partitions. -/
def Target.ntasks : Target → ℕ
  | .table visible _ => visible.length
  | .partitioned leaves => leaves.length

/-- The row groups to export. -/
def Target.visible : Target → List ℕ
  | .table visible _ => visible
  | .partitioned leaves => leaves.flatMap Leaf.visible

/-- `workers` is the number of workers after every cap. -/
structure Plan where
  target : Target
  workers : ℕ
  deriving DecidableEq, Repr

/-- `PEXPORT_MAX_WORKERS` -/
def maxWorkers : ℕ := 32

/-- No more workers than there are tasks for, and at least one. -/
def Plan.make (target : Target) (requested : ℕ) : Plan :=
  ⟨target, min (min requested maxWorkers) (max target.ntasks 1)⟩

namespace Plan

variable (p : Plan)

/-- One part for each worker, or for each leaf partition. -/
def nkeys : ℕ :=
  match p.target with
  | .table _ _ => p.workers
  | .partitioned leaves => leaves.length

/-- The number of tasks in range `i`. -/
def take (i : ℕ) : ℕ :=
  p.target.ntasks / p.workers + if i < p.target.ntasks % p.workers then 1 else 0

/-- Where range `i` starts; it ends where the next one does. -/
def startIdx : ℕ → ℕ
  | 0 => 0
  | i + 1 => startIdx i + p.take i

/-- Range `i` of a list of row groups. -/
def slice (groups : List ℕ) (i : ℕ) : List ℕ := (groups.drop (p.startIdx i)).take (p.take i)

/-- The row groups that the workers put into the parts. -/
def contents : List (List ℕ) :=
  match p.target with
  | .table _ imported => (List.range p.workers).map fun i => p.slice (imported.getD i []) i
  | .partitioned leaves => leaves.map Leaf.imported

/-- The first part of worker `w`. -/
def firstKey (w : ℕ) : ℕ :=
  match p.target with
  | .table _ _ => w
  | .partitioned _ => p.startIdx w

/-- The parts of worker `w` end before this one. -/
def endKey (w : ℕ) : ℕ :=
  match p.target with
  | .table _ _ => w + 1
  | .partitioned _ => p.startIdx (w + 1)

end Plan

/-- A published part: the run that it is of, and the row groups in it. -/
structure Part where
  run : ℕ
  groups : List ℕ
  deriving DecidableEq, Repr

/-- `PEXPORT_PENDING`, `PEXPORT_DONE` and `PEXPORT_FAILED` -/
inductive Slot where
  | pending
  | done
  | failed
  deriving DecidableEq, Repr

/-- A worker and its slot of the shared segment; `next` is the part that it publishes next. -/
structure Worker where
  registered : Bool
  stopped : Bool
  next : ℕ
  slot : Slot
  rows : ℕ
  deriving DecidableEq, Repr

/-- What the SQL function tells its caller; `worker` is the one that it names. -/
inductive Outcome where
  | running
  | completed (total : ℕ)
  | failed (worker : Option ℕ)
  deriving DecidableEq, Repr

def Outcome.isFailed : Outcome → Bool
  | .failed _ => true
  | _ => false

def Outcome.isCompleted : Outcome → Bool
  | .completed _ => true
  | _ => false

/-- A run of the export and its workers. -/
structure Job where
  plan : Plan
  workers : ℕ → Worker
  outcome : Outcome

/-- Where the SQL function is. -/
inductive Phase where
  /-- No run is going on. -/
  | ready
  | registering (i : ℕ)
  | waiting
  /-- Listing the prefix. -/
  | listing
  /-- Deleting the parts that a larger run left. -/
  | reconciling (todo : List ℕ)
  /-- Writing the marker. -/
  | marking
  /-- Before it removes what the run has written. -/
  | cleanup (worker : Option ℕ)
  | removing (worker : Option ℕ) (todo : List ℕ)
  deriving DecidableEq, Repr

/-- The destination and the runs; `cur` is the run that is going on, or the next one. -/
structure State where
  parts : AList fun _ : ℕ => Part
  marker : Bool
  jobs : ℕ → Job
  cur : ℕ
  phase : Phase

inductive WorkerEvent where
  /-- The next part appears whole at the destination. -/
  | publish
  | finish (rows : ℕ)
  | fail
  | exit
  deriving DecidableEq, Repr

inductive Action where
  | start (target : Target) (requested : ℕ)
  | worker (r w : ℕ) (event : WorkerEvent)
  /-- The next statement of the function. -/
  | next
  /-- A registration fails, or the function is cancelled or terminated while the workers run. -/
  | interrupt
  /-- The listing of the prefix answers. -/
  | list (keys : List ℕ)
  /-- The listing or a delete of the reconcile raises an error, or the function is cancelled. -/
  | reconcileFails
  /-- The write of the marker raises an error; the store may have applied it. -/
  | markerFails (applied : Bool)
  /-- The wait for the workers ends, and the removal finds these parts to delete. -/
  | remove (keys : List ℕ)
  /-- The function is terminated once its workers are done. -/
  | terminate
  /-- Whoever owns the destination deletes the marker. -/
  | dropMarker
  deriving DecidableEq, Repr

namespace Job

variable (j : Job)

def setWorker (w : ℕ) (worker : Worker) : Job :=
  { j with workers := Function.update j.workers w worker }

/-- Every worker that was registered has stopped. -/
def allStopped : Bool :=
  (List.range j.plan.workers).all fun w => !(j.workers w).registered || (j.workers w).stopped

/-- The first worker that is not done. -/
def firstNotDone : Option ℕ :=
  (List.range j.plan.workers).find? fun w => decide ((j.workers w).slot ≠ .done)

def totalRows : ℕ := ((List.range j.plan.workers).map fun w => (j.workers w).rows).sum

/-- The part with index `k` of run `r`. -/
def part (r k : ℕ) : Part := ⟨r, j.plan.contents.getD k []⟩

end Job

/-- The run as it is laid out, before any worker is registered. -/
def Job.fresh (plan : Plan) : Job where
  plan := plan
  workers w := ⟨false, false, plan.firstKey w, .pending, 0⟩
  outcome := .running

namespace State

variable (s : State)

def job : Job := s.jobs s.cur

def setJob (r : ℕ) (j : Job) : State := { s with jobs := Function.update s.jobs r j }

/-- The run ends. -/
def finish (outcome : Outcome) : State :=
  { s.setJob s.cur { s.job with outcome := outcome } with cur := s.cur + 1, phase := .ready }

end State

/-- `pgcolumnar_parallel_export_worker` -/
def workerStep (s : State) (r w : ℕ) (event : WorkerEvent) : Option State :=
  let j := s.jobs r
  let me := j.workers w
  if w < j.plan.workers ∧ me.registered ∧ ¬ me.stopped then
    match event with
    | .publish =>
      if me.slot = .pending ∧ me.next < j.plan.endKey w then
        some { s.setJob r (j.setWorker w { me with next := me.next + 1 }) with
          parts := s.parts.insert me.next (j.part r me.next) }
      else none
    | .finish rows =>
      if me.slot = .pending ∧ me.next = j.plan.endKey w then
        some (s.setJob r (j.setWorker w { me with slot := .done, rows := rows }))
      else none
    | .fail =>
      if me.slot = .pending then some (s.setJob r (j.setWorker w { me with slot := .failed }))
      else none
    | .exit => some (s.setJob r (j.setWorker w { me with stopped := true }))
  else none

variable (remote : Bool)

/-- The next statement of `pgcolumnar_parallel_export_parquet`. -/
def next (s : State) : Option State :=
  let j := s.job
  match s.phase with
  | .registering i =>
    if i < j.plan.workers then
      some { s.setJob s.cur (j.setWorker i { j.workers i with registered := true }) with
        phase := .registering (i + 1) }
    else some { s with phase := .waiting }
  | .waiting =>
    if j.allStopped then
      match j.firstNotDone with
      | some w => some { s with phase := .cleanup (some w) }
      | none => some { s with phase := if remote then .listing else .marking }
    else none
  | .reconciling (k :: todo) =>
    some { s with parts := s.parts.erase k, phase := .reconciling todo }
  | .reconciling [] => some { s with phase := .marking }
  | .marking => some { s.finish (.completed j.totalRows) with marker := true }
  | .removing worker (k :: todo) =>
    some { s with parts := s.parts.erase k, phase := .removing worker todo }
  | .removing worker [] =>
    -- the marker is the last thing to go
    some { s.finish (.failed worker) with marker := false }
  | .ready | .listing | .cleanup _ => none

/-- What the removal deletes: remotely the parts of this run, whether they are there or not, and
in a directory what it finds. -/
def removes (s : State) (keys : List ℕ) : Bool :=
  if remote then decide (keys = List.range s.job.plan.nkeys) else decide (keys.Perm s.parts.keys)

/-- A remote prefix may hold anything; a local directory must be empty. -/
def startable (s : State) : Bool := remote || (s.parts.keys.isEmpty && !s.marker)

def step (s : State) : Action → Option State
  | .start target requested =>
    if s.phase = .ready ∧ startable remote s ∧ 1 ≤ requested ∧ target ≠ .partitioned [] then
      some { s.setJob s.cur (.fresh (Plan.make target requested)) with phase := .registering 0 }
    else none
  | .worker r w event => workerStep s r w event
  | .next => next remote s
  | .interrupt =>
    match s.phase with
    | .registering _ | .waiting => some { s with phase := .cleanup none }
    | _ => none
  | .list keys =>
    if s.phase = .listing ∧ keys.Perm s.parts.keys then
      some { s with phase := .reconciling (keys.filter (s.job.plan.nkeys ≤ ·)) }
    else none
  | .reconcileFails =>
    match s.phase with
    | .listing | .reconciling _ => some { s with phase := .cleanup none }
    | _ => none
  | .markerFails applied =>
    if s.phase = .marking then
      some { s with marker := s.marker || applied, phase := .cleanup none }
    else none
  | .remove keys =>
    match s.phase with
    | .cleanup worker =>
      if removes remote s keys then some { s with phase := .removing worker keys } else none
    | _ => none
  | .terminate =>
    match s.phase with
    | .listing | .reconciling _ | .marking => some (s.finish (.failed none))
    | _ => none
  | .dropMarker => some { s with marker := false }

/-- A destination nothing has been written to. -/
def State.start : State where
  parts := ∅
  marker := false
  jobs _ := .fresh ⟨.table [] [], 0⟩
  cur := 0
  phase := .ready

/-- The parts at the destination are those of run `r`, which is complete, and they hold the row
groups that its snapshot shows, in order and each once. -/
structure Certifies (s : State) (r : ℕ) : Prop where
  completed : (s.jobs r).outcome.isCompleted = true
  parts : ∀ k, s.parts.lookup k = (s.jobs r).plan.contents[k]?.map (Part.mk r)
  whole : (s.jobs r).plan.contents.flatten = (s.jobs r).plan.target.visible

/-- What the marker promises, and what a failed run leaves. -/
structure MarkerTrue (s : State) : Prop where
  present : s.marker = true → ∃ r, Certifies s r
  noParts : ∀ r, (s.jobs r).outcome.isFailed = true →
    ∀ k part, s.parts.lookup k = some part → part.run ≠ r
  noMarker : ∀ r, (s.jobs r).outcome.isFailed = true → s.cur = r + 1 → s.marker = false

/-- Each worker finds in its range what the function has found there. -/
def Plan.Unchanged (p : Plan) : Prop :=
  match p.target with
  | .table visible imported => ∀ i < p.workers, p.slice (imported.getD i []) i = p.slice visible i
  | .partitioned leaves => ∀ leaf ∈ leaves, leaf.imported = leaf.visible

/-- The run has not come to delete part `k` yet. -/
def Phase.spares : Phase → ℕ → Prop
  | .registering _, _ | .waiting, _ | .cleanup _, _ => True
  | .removing _ todo, k => k ∈ todo
  | _, _ => False

/-- The steps after which the promise is kept: a run starts where there is no marker, and its
workers find the row groups that the function has found; a worker publishes nothing that the
clean-up of its run has already deleted; a marker whose write fails is not there; and nobody
terminates the function once its workers are done. -/
def Benign (s : State) : Action → Prop
  | .start target requested => s.marker = false ∧ (Plan.make target requested).Unchanged
  | .worker r w .publish => r = s.cur ∧ s.phase.spares ((s.jobs r).workers w).next
  | .markerFails applied => applied = false
  | .terminate => False
  | _ => True

instance (p : Plan) : Decidable p.Unchanged := by
  unfold Plan.Unchanged
  split <;> infer_instance

instance (phase : Phase) (k : ℕ) : Decidable (phase.spares k) := by
  cases phase <;> unfold Phase.spares <;> infer_instance

instance (s : State) (a : Action) : Decidable (Benign s a) := by
  cases a with
  | worker r w event => cases event <;> unfold Benign <;> infer_instance
  | _ => unfold Benign; infer_instance

end PgColumnar.Export
