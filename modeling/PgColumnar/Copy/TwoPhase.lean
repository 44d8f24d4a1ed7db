import Mathlib.Algebra.GroupWithZero.Nat
import Mathlib.Logic.Function.Basic
import PgColumnar.Lib.Run

/-!
# Parallel COPY as a two-phase commit

`columnar_parallel_copy.c`: the SQL function starts a coordinator and waits for it.  The
coordinator registers one loader for each range of the file and waits until they have all
exited.  A loader prepares its transaction and then stores its outcome in its slot of the
shared segment.  The coordinator then commits every prepared transaction or rolls all of them
back, and stores its own outcome for the function to report.

The processes take their steps in any order.  A loader may fail or be terminated before its
transaction is prepared; between the durable prepare and the store it cannot be interrupted.
Any statement of the coordinator may raise an error, and a `ROLLBACK PREPARED` that raises one
is passed over.  The function may be cancelled while it waits: it then signals the coordinator
and fails without waiting for it.  No process is killed.

## Main definitions

* `State`, `step` — coordinator and loaders, with the shared segment between them.
* `AllOrNothing` — the promise, and `Benign` the steps that keep it.
-/

namespace PgColumnar.Copy

/-- A transaction by its gid. -/
inductive Gid where
  | absent
  | prepared
  | committed
  | rolledBack
  deriving DecidableEq, Repr

/-- `PCOPY_PENDING`, `PCOPY_PREPARED` and `PCOPY_FAILED` -/
inductive Slot where
  | pending
  | prepared
  | failed
  deriving DecidableEq, Repr

/-- A loader, its transaction, and its slot of the shared segment.  `loaded` is the number of
rows in its transaction, `rows` the number in its slot. -/
structure Loader where
  registered : Bool
  stopped : Bool
  gid : Gid
  loaded : ℕ
  slot : Slot
  rows : ℕ
  deriving DecidableEq, Repr

/-- Why the prepared transactions are rolled back. -/
inductive Reason where
  | cancelled
  | duplicate
  | loaderFailed
  | caught
  deriving DecidableEq, Repr

/-- Where the coordinator is. -/
inductive Pc where
  | notStarted
  /-- Before its `PG_TRY`. -/
  | starting
  | registering (i : ℕ)
  | waiting
  /-- Terminating the loaders and waiting for them to exit. -/
  | stopping (why : Reason)
  | rollingBack (why : Reason) (i : ℕ)
  /-- Reading the slots. -/
  | checking
  | dedupCheck
  /-- Before the `COMMIT PREPARED` of loader `i`. -/
  | committing (i : ℕ)
  /-- The transaction of loader `i` is committed, and the command ends. -/
  | finishing (i : ℕ)
  | recording
  | exited
  deriving DecidableEq, Repr

/-- `PCOPY_COORD_PENDING`, `PCOPY_COORD_DONE` and `PCOPY_COORD_FAILED` -/
inductive CoordState where
  | pending
  | done
  | failed
  deriving DecidableEq, Repr

/-- What the SQL function tells its caller; `worker` is the loader that it names. -/
inductive Report where
  | none
  | rows (total : ℕ)
  | skippedDuplicate
  | failure (worker : Option ℕ)
  deriving DecidableEq, Repr

structure State where
  loaders : ℕ → Loader
  pc : Pc
  gotSigterm : Bool
  total : ℕ
  totalRows : ℕ
  skippedDuplicate : Bool
  failedWorker : Option ℕ
  coordState : CoordState
  report : Report

inductive LoaderEvent where
  | prepare (rows : ℕ)
  | publish
  | fail
  | exit
  deriving DecidableEq, Repr

inductive Action where
  | loader (i : ℕ) (event : LoaderEvent)
  /-- The coordinator is registered, or it cannot be. -/
  | launch (ok : Bool)
  /-- The next statement of the coordinator. -/
  | next
  /-- The duplicate check, and what it finds. -/
  | lookup (seen : Bool)
  /-- The next statement of the coordinator raises an error. -/
  | error
  /-- A `ROLLBACK PREPARED` raises an error. -/
  | rollbackFails
  /-- Something else sends the coordinator a `SIGTERM`. -/
  | terminate
  /-- The SQL function is cancelled. -/
  | cancel
  /-- The SQL function returns. -/
  | returns
  deriving DecidableEq, Repr

/-- `pgcolumnar_parallel_copy_worker` -/
def loaderStep (l : Loader) (event : LoaderEvent) : Option Loader :=
  if l.registered && !l.stopped then
    match event with
    | .prepare rows =>
      if l.gid = .absent ∧ l.slot = .pending then
        some { l with gid := .prepared, loaded := rows }
      else none
    | .publish =>
      if l.gid ≠ .absent ∧ l.slot = .pending then
        some { l with slot := .prepared, rows := l.loaded }
      else none
    | .fail =>
      if l.gid = .absent ∧ l.slot = .pending then some { l with slot := .failed } else none
    | .exit =>
      -- nothing interrupts a loader between the prepare and the store
      if l.gid = .absent ∨ l.slot ≠ .pending then some { l with stopped := true } else none
  else none

variable (nworkers : ℕ) (dedup : Bool)

/-- Every loader that was registered has exited. -/
def State.allStopped (s : State) : Bool :=
  (List.range nworkers).all fun i => !(s.loaders i).registered || (s.loaders i).stopped

/-- The first loader that did not prepare. -/
def State.firstUnprepared (s : State) : Option ℕ :=
  (List.range nworkers).find? fun i => decide ((s.loaders i).slot ≠ .prepared)

/-- `ROLLBACK PREPARED`; a gid that is not prepared is passed over. -/
def Loader.rollback (l : Loader) : Loader :=
  if l.gid = .prepared then { l with gid := .rolledBack } else l

def State.setLoader (s : State) (i : ℕ) (l : Loader) : State :=
  { s with loaders := Function.update s.loaders i l }

/-- A duplicate is rolled back whatever the slots say. -/
def mustRollBack (why : Reason) (l : Loader) : Bool :=
  decide (why = .duplicate) || decide (l.slot = .prepared)

/-- What the coordinator stores when everything is rolled back. -/
def State.storeOutcome (s : State) (why : Reason) : State :=
  match why with
  | .duplicate =>
    { s with totalRows := 0, skippedDuplicate := true, coordState := .done, pc := .exited }
  | .loaderFailed =>
    { s with failedWorker := s.firstUnprepared nworkers, coordState := .failed, pc := .exited }
  | .cancelled | .caught => { s with coordState := .failed, pc := .exited }

/-- The next statement of `pgcolumnar_parallel_copy_coordinator`. -/
def coordNext (s : State) : Option State :=
  match s.pc with
  | .starting => some { s with pc := .registering 0 }
  | .registering i =>
    if i < nworkers then
      some { s.setLoader i { s.loaders i with registered := true } with pc := .registering (i + 1) }
    else some { s with pc := .waiting }
  | .waiting =>
    if s.gotSigterm then some { s with pc := .stopping .cancelled }
    else if s.allStopped nworkers then some { s with pc := .checking }
    else none
  | .stopping why =>
    if s.allStopped nworkers then some { s with pc := .rollingBack why 0 } else none
  | .rollingBack why i =>
    if i < nworkers then
      let l := s.loaders i
      some { s.setLoader i (if mustRollBack why l then l.rollback else l) with
        pc := .rollingBack why (i + 1) }
    else some (s.storeOutcome nworkers why)
  | .checking =>
    match s.firstUnprepared nworkers with
    | some _ => some { s with pc := .rollingBack .loaderFailed 0 }
    | none => some { s with pc := if dedup then .dedupCheck else .committing 0 }
  | .committing i =>
    if i < nworkers then
      if (s.loaders i).gid = .prepared then
        some { s.setLoader i { s.loaders i with gid := .committed } with pc := .finishing i }
      else none
    else
      some { s with
        totalRows := s.total
        coordState := if dedup then s.coordState else .done
        pc := if dedup then .recording else .exited }
  | .finishing i =>
    some { s with total := s.total + (s.loaders i).rows, pc := .committing (i + 1) }
  | .recording => some { s with coordState := .done, pc := .exited }
  | .notStarted | .dedupCheck | .exited => none

/-- Where an error in the coordinator leads; outside its `PG_TRY` it ends the process. -/
def errorPc : Pc → Option Pc
  | .starting | .stopping .caught => some .exited
  | .registering _ | .waiting | .stopping _ | .checking | .dedupCheck | .committing _ |
    .finishing _ | .recording => some (.stopping .caught)
  | .notStarted | .rollingBack _ _ | .exited => none

/-- What the SQL function reads in the shared segment. -/
def State.outcome (s : State) : Report :=
  match s.coordState with
  | .done => if s.skippedDuplicate then .skippedDuplicate else .rows s.totalRows
  | .pending | .failed => .failure s.failedWorker

def step (s : State) : Action → Option State
  | .loader i event =>
    if i < nworkers then (loaderStep (s.loaders i) event).map (s.setLoader i) else none
  | .launch ok =>
    if s.pc = .notStarted ∧ s.report = .none then
      if ok then some { s with pc := .starting }
      else some { s with pc := .exited, report := .failure none }
    else none
  | .next => coordNext nworkers dedup s
  | .lookup seen =>
    if s.pc = .dedupCheck then
      some { s with pc := if seen then .rollingBack .duplicate 0 else .committing 0 }
    else none
  | .error => (errorPc s.pc).map fun pc => { s with pc := pc }
  | .rollbackFails =>
    match s.pc with
    | .rollingBack why i =>
      if i < nworkers ∧ mustRollBack why (s.loaders i) ∧ (s.loaders i).gid = .prepared then
        some { s with pc := .rollingBack why (i + 1) }
      else none
    | _ => none
  | .terminate => some { s with gotSigterm := true }
  | .cancel =>
    if s.pc ≠ .notStarted ∧ s.report = .none then
      some { s with gotSigterm := true, report := .failure none }
    else none
  | .returns =>
    if s.pc = .exited ∧ s.report = .none then some { s with report := s.outcome } else none

/-- The SQL function before it starts anything. -/
def State.start : State where
  loaders _ := ⟨false, false, .absent, 0, .pending, 0⟩
  pc := .notStarted
  gotSigterm := false
  total := 0
  totalRows := 0
  skippedDuplicate := false
  failedWorker := none
  coordState := .pending
  report := .none

/-- Every process has come to its end. -/
def Final (s : State) : Prop :=
  s.pc = .exited ∧ s.report ≠ .none ∧ s.allStopped nworkers = true

def NoneCommitted (s : State) : Prop := ∀ i, (s.loaders i).gid ≠ .committed

def Report.isFailure : Report → Bool
  | .failure _ => true
  | _ => false

/-- What a load promises at its end. -/
structure AllOrNothing (s : State) : Prop where
  /-- Every range and a total, or no range and the caller knows. -/
  outcome : ((∀ i < nworkers, (s.loaders i).gid = .committed) ∧ s.coordState = .done ∧
      s.report = .rows (((List.range nworkers).map fun i => (s.loaders i).loaded).sum)) ∨
    (NoneCommitted s ∧ (s.report.isFailure = true ∨ s.report = .skippedDuplicate))
  /-- No prepared transaction is left. -/
  settled : ∀ i, (s.loaders i).gid ≠ .prepared
  /-- A failure leaves no rows. -/
  failure : s.report.isFailure = true → NoneCommitted s

/-- The steps after which the promise is kept: no `ROLLBACK PREPARED` fails, the coordinator
meets no error once a range is committed and none in its error handler, and the function is
not cancelled once a range is committed, nor a range committed once it is cancelled. -/
def Benign (s : State) : Action → Prop
  | .next => ∀ i < nworkers, s.pc = .committing i → s.report.isFailure = false
  | .error => (∀ i < nworkers, (s.loaders i).gid ≠ .committed) ∧ s.pc ≠ .stopping .caught
  | .cancel => ∀ i < nworkers, (s.loaders i).gid ≠ .committed
  | .rollbackFails => False
  | _ => True

instance (s : State) (a : Action) : Decidable (Benign nworkers s a) := by
  cases a <;> unfold Benign <;> infer_instance

end PgColumnar.Copy
