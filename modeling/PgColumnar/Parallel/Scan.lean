import PgColumnar.Lib.Mvcc
import PgColumnar.Lib.Version
import Mathlib.Data.List.Sort

/-!
# Parallel scans

The participants of a parallel scan agree on row groups only by position.  Each of them
opens the relation for itself, reads the list of row groups from the catalog under its own
copy of the scan's snapshot, and takes the next index from a counter they share.

The scanning transaction may have rows and delete marks buffered.  A custom scan writes
them out and opens its reader in `PgColumnarBeginCustomScan`, before the workers are told
the transaction's command id; an aggregate or a scan through the table access method does
so in parallel mode, when the shared memory is set up.  Meanwhile other transactions add
and retire groups, mark rows, add and drop projections, and the catalogs are pruned.

A snapshot may leave out a lazy vacuum that is under way.  What the vacuum has deleted is
there under this snapshot until it commits, unless a hint has it there for good.

## Main definitions

* `ScanSnapshot`, `readRowGroupList` — what a participant reads.
* `State`, `stepScan` — the participants, the counter and the writers.
-/

namespace PgColumnar.Parallel

open Mvcc Function

/-! ## Catalogs -/

variable {α : Type}

/-- A row of `row_group`, with the rows of its group.  In the storage of a projection each
row carries the row number of the base relation. -/
structure RowGroup (α : Type) where
  storage : ℕ
  groupNumber : ℕ
  firstRowNumber : ℕ
  rows : List (ℕ × α)
  deriving DecidableEq

/-- A row of `delete_vector`: the rows of a group that are marked, by position. -/
structure Mask where
  storage : ℕ
  groupNumber : ℕ
  bits : List ℕ
  deriving DecidableEq

/-- A row of `projection`, the base projection left out. -/
structure Projection where
  name : ℕ
  projStorage : ℕ
  deriving DecidableEq

/-- The snapshot of a scan: an MVCC snapshot with a command id, or `SnapshotAny`, under
which a parallel index build scans. -/
inductive ScanSnapshot where
  | mvcc (snap : Snapshot) (curcid : ℕ)
  | any
  deriving DecidableEq

/-- `PgColumnarCatalogSnapshot`, with the current command id. -/
def catalogSnapshot (now : ℕ) : ScanSnapshot → ScanSnapshot
  | .mvcc snap curcid => .mvcc snap (if curcid ≤ now then now + 1 else curcid)
  | .any => .any

/-- `PgColumnarReadRowGroupList`, from the visible rows. -/
def readRowGroupList (groups : List (RowGroup α)) (storage : ℕ) : List (RowGroup α) :=
  (groups.filter fun g => decide (g.storage = storage)).insertionSort
    fun a b => a.groupNumber ≤ b.groupNumber

/-- The merged delete mask of a group, from the visible rows. -/
def deleteMask (masks : List Mask) (storage groupNumber : ℕ) : List ℕ :=
  (masks.filter fun m => decide (m.storage = storage ∧ m.groupNumber = groupNumber)).flatMap
    (·.bits)

/-- An entry of the liveness cache: a row group of the base. -/
structure LiveStripe where
  firstRowNumber : ℕ
  rowCount : ℕ
  mask : List ℕ
  deriving DecidableEq

/-- `PgColumnarBuildLivenessCache`, from the visible rows. -/
def buildLivenessCache (groups : List (RowGroup α)) (masks : List Mask) (base : ℕ) :
    List LiveStripe :=
  ((readRowGroupList groups base).map fun g =>
    ⟨g.firstRowNumber, g.rows.length, deleteMask masks base g.groupNumber⟩).insertionSort
      fun a b => a.firstRowNumber ≤ b.firstRowNumber

/-- `PgColumnarLivenessCacheIsLive`: the entry that covers the row decides.  The source
finds it by binary search. -/
def livenessCacheIsLive (cache : List LiveStripe) (rowNumber : ℕ) : Bool :=
  match cache.find? fun e =>
      decide (e.firstRowNumber ≤ rowNumber ∧ rowNumber < e.firstRowNumber + e.rowCount) with
  | none => false
  | some e => decide (rowNumber - e.firstRowNumber ∉ e.mask)

/-- The rows the reader returns from a group, with the row number of each. -/
def readerRows (masks : List Mask) (g : RowGroup α) : List (ℕ × (ℕ × α)) :=
  g.rows.zipIdx.filterMap fun r =>
    if r.2 ∈ deleteMask masks g.storage g.groupNumber then none
    else some (g.firstRowNumber + r.2, r.1)

/-- The rows a scan returns from a group.  A projection has no marks of its own, and its
rows are tested against the base. -/
def groupRows (masks : List Mask) (cache : Option (List LiveStripe)) (g : RowGroup α) :
    List (ℕ × α) :=
  match cache with
  | none => (readerRows masks g).map fun r => (r.1, r.2.2)
  | some cache => ((readerRows masks g).map (·.2)).filter fun r => livenessCacheIsLive cache r.1

/-! ## The scan -/

/-- Which code scans: the custom scan node, a partial aggregate, or the table access
method. -/
inductive Kind where
  | custom
  | aggregate
  | tableAm
  deriving DecidableEq

/-- A reader, with the indexes it has claimed and the rows it has returned. -/
structure Participant (α : Type) where
  /-- The storage of a projection, or nothing for the relation itself. -/
  projStorage : Option ℕ
  livenessCache : Option (List LiveStripe)
  metaSnapshot : ScanSnapshot
  rowGroupList : Option (List (RowGroup α))
  loading : Option (RowGroup α)
  exhausted : Bool
  claimed : List ℕ
  produced : List (ℕ × α)

structure Scan (α : Type) where
  top : ℕ
  kind : Kind
  projName : Option ℕ
  snapshot : ScanSnapshot
  /-- What the leader's `Begin` opened. -/
  projStorage : Option ℕ
  /-- The command id that the workers are given, in parallel mode. -/
  dsm : Option ℕ
  parallelCounter : ℕ
  leader : Option (Participant α)
  workers : List (Participant α)

def Scan.participants (sc : Scan α) : List (Participant α) := sc.leader.toList ++ sc.workers

structure State (α : Type) where
  /-- Which ids are those of lazy vacuums. -/
  lazy : ℕ → Bool
  clock : Clock
  top : ℕ → ℕ
  /-- The current command id of each transaction. -/
  now : ℕ → ℕ
  /-- What each transaction has buffered. -/
  buffered : ℕ → List (RowGroup α)
  marks : ℕ → List Mask
  groups : List (Version (RowGroup α))
  masks : List (Version Mask)
  projections : List (Version Projection)
  scan : Option (Scan α)

def State.init (lazy : ℕ → Bool) : State α where
  lazy := lazy
  clock := .init
  top := id
  now := fun _ => 0
  buffered := fun _ => []
  marks := fun _ => []
  groups := []
  masks := []
  projections := []
  scan := none

/-! ## Reading the catalogs -/

/-- The id is the transaction's own. -/
def State.own (s : State α) (t x : ℕ) : Bool :=
  decide (s.clock.status x = .running) && decide (s.top x = t)

/-- What transaction `t` sees under an MVCC snapshot: of its own writes, those of earlier
commands. -/
def State.seen (s : State α) (t : ℕ) (snap : Snapshot) (curcid x c : ℕ) : Bool :=
  if s.own t x then decide (c < curcid) else decide (s.clock.sees snap x)

def State.read {β : Type} (s : State α) (t : ℕ) (snapshot : ScanSnapshot)
    (tab : List (Version β)) : List β :=
  match snapshot with
  | .mvcc snap curcid => Version.read (s.seen t snap curcid) tab
  | .any => tab.map (·.val)

/-- The projection of that name in the catalog as it is now, by `PgColumnarListProjections`. -/
def State.findProjection (s : State α) (t now : ℕ) (name : Option ℕ) : Option ℕ :=
  name.bind fun n =>
    ((s.read t (.mvcc s.clock.latest now) s.projections).find? fun p =>
      decide (p.name = n)).map (·.projStorage)

/-- The list of row groups that a reader of this storage builds. -/
def State.groupList (s : State α) (base t : ℕ) (projStorage : Option ℕ)
    (snapshot : ScanSnapshot) : List (RowGroup α) :=
  readRowGroupList (s.read t snapshot s.groups) (projStorage.getD base)

/-- The liveness cache that a scan of a projection builds. -/
def State.livenessCache (s : State α) (base t : ℕ) (projStorage : Option ℕ)
    (snapshot : ScanSnapshot) : Option (List LiveStripe) :=
  projStorage.map fun _ =>
    buildLivenessCache (s.read t snapshot s.groups) (s.read t snapshot s.masks) base

/-- Open a reader: `PgColumnarBeginRead`, or `pgcolumnar_setup_projection_scan`. -/
def State.openReader (s : State α) (base t now : ℕ) (name : Option ℕ) (snapshot : ScanSnapshot) :
    Participant α :=
  let projStorage := s.findProjection t now name
  let metaSnapshot := catalogSnapshot now snapshot
  { projStorage := projStorage
    livenessCache := s.livenessCache base t projStorage metaSnapshot
    metaSnapshot := metaSnapshot
    rowGroupList := none
    loading := none
    exhausted := false
    claimed := []
    produced := [] }

/-- The row groups of a serial scan that opens its reader now. -/
def State.serialList (s : State α) (base : ℕ) (sc : Scan α) : List (RowGroup α) :=
  s.groupList base sc.top sc.projStorage (catalogSnapshot (s.now sc.top) sc.snapshot)

/-- The rows of a serial scan that opens its reader now: it walks the list, passing over
what the zone maps exclude. -/
def State.serialRows (s : State α) (base : ℕ) (canMatch : RowGroup α → Bool) (sc : Scan α) :
    List (ℕ × α) :=
  let snapshot := catalogSnapshot (s.now sc.top) sc.snapshot
  ((s.serialList base sc).filter canMatch).flatMap
    (groupRows (s.read sc.top snapshot s.masks)
      (s.livenessCache base sc.top sc.projStorage snapshot))

/-! ## Writing the catalogs -/

def State.writeGroup (s : State α) (x : ℕ) (g : RowGroup α) : State α :=
  { s with groups := s.groups ++ [⟨g, x, s.now (s.top x), none⟩] }

/-- The version is visible to `SnapshotSelf`. -/
def State.selfVisible {β : Type} (s : State α) (t : ℕ) (v : Version β) : Bool :=
  (s.own t v.xmin || decide (s.clock.status v.xmin = .committed)) &&
    !v.xmax.any fun d => s.own t d.1 || decide (s.clock.status d.1 = .committed)

/-- Nobody else is changing the version. -/
def State.unclaimed {β : Type} (s : State α) (v : Version β) : Bool :=
  v.xmax.all fun d => decide (s.clock.status d.1 = .aborted)

/-- `PgColumnarUpsertDeleteVector`.  A version written by the same command cannot be
updated, so the command is ended first, which a parallel operation does not allow. -/
def State.writeMark (s : State α) (x : ℕ) (parallel : Bool) (m : Mask) : Option (State α) :=
  let t := s.top x
  match s.masks.findIdx? fun v =>
      s.selfVisible t v && decide (v.val.storage = m.storage ∧
        v.val.groupNumber = m.groupNumber) with
  | none => some { s with masks := s.masks ++ [⟨m, x, s.now t, none⟩] }
  | some i =>
    match s.masks[i]? with
    | none => none
    | some v =>
      let again := s.own t v.xmin && decide (s.now t ≤ v.cmin)
      let now := if again then s.now t + 1 else s.now t
      if s.unclaimed v = true ∧ ¬ (again = true ∧ parallel = true) then
        some { s with
          now := update s.now t now
          masks := s.masks.set i { v with xmax := some (x, now) } ++
            [⟨{ m with bits := m.bits ++ v.val.bits }, x, now, none⟩] }
      else none

def State.writeMarks (s : State α) (x : ℕ) (parallel : Bool) : List Mask → Option (State α)
  | [] => some s
  | m :: ms => (s.writeMark x parallel m).bind fun s' => s'.writeMarks x parallel ms

/-- `PgColumnarFlushWriteStateForRelation` and `PgColumnarFlushDeleteVectorForRelation` in
subtransaction `x`. -/
def State.flush (s : State α) (x : ℕ) (parallel : Bool) : Option (State α) :=
  let t := s.top x
  let written := (s.buffered t).foldl (fun s g => s.writeGroup x g)
    { s with buffered := update s.buffered t [] }
  State.writeMarks { written with marks := update written.marks t [] } x parallel
    (s.marks t)

/-! ## Steps -/

inductive Action (α : Type) where
  | begin
  | beginSub (t : ℕ)
  | commit (t : ℕ)
  | abort (xs : List ℕ)
  | takeSnapshot
  | dropSnapshot (i : ℕ)
  | commandEnd (t : ℕ)
  | buffer (x : ℕ) (g : RowGroup α)
  | bufferMark (x : ℕ) (m : Mask)
  | flush (x : ℕ)
  | retire (x i : ℕ)
  /-- Under snapshot `k` somebody reads version `i` of `row_group`. -/
  | hint (k i : ℕ)
  | addProjection (x : ℕ) (p : Projection)
  | dropProjection (x i : ℕ)
  | pruneGroup (i : ℕ)
  | pruneMask (i : ℕ)
  | pruneProjection (i : ℕ)
  /-- The executor starts a scan in subtransaction `x`. -/
  | beginScan (x : ℕ) (kind : Kind) (projName : Option ℕ) (snapshot : ScanSnapshot)
  /-- The shared memory is set up, in parallel mode. -/
  | initializeDSM (x : ℕ)
  /-- The leader opens its reader, where `Begin` has not done so. -/
  | openLeader
  | startWorker
  /-- `pgcolumnar_read_start` in the leader, or in worker `i`. -/
  | readStart (p : Option ℕ)
  | nextGroupIndex (p : Option ℕ)
  | loadGroup (p : Option ℕ)
  | rescan
  | endScan

/-- The subtransaction runs a statement: its transaction is not scanning. -/
def State.working (s : State α) (x : ℕ) : Bool :=
  decide (s.clock.status x = .running) && s.scan.all fun sc => decide (sc.top ≠ s.top x)

/-- No snapshot, now or later, reads the version. -/
def State.dead {β : Type} (s : State α) (v : Version β) : Bool :=
  decide (s.clock.status v.xmin = .aborted) ||
    v.xmax.any fun d => decide (s.clock.status d.1 = .committed) &&
      s.clock.snapshots.all fun snap => decide (s.clock.sees snap d.1)

/-- Delete version `i` of a table. -/
def State.deleteVersion {β : Type} (s : State α) (x i : ℕ) (tab : List (Version β)) :
    Option (List (Version β)) :=
  match tab[i]? with
  | none => none
  | some v =>
    if s.selfVisible (s.top x) v = true ∧ s.unclaimed v = true then
      some (tab.set i { v with xmax := some (x, s.now (s.top x)) })
    else none

def State.pruneVersion {β : Type} (s : State α) (i : ℕ) (tab : List (Version β)) :
    Option (List (Version β)) :=
  match tab[i]? with
  | none => none
  | some v => if s.dead v = true then some (tab.eraseIdx i) else none

/-- Change one participant. -/
def Scan.modifyM (sc : Scan α) (f : Participant α → Option (Participant α)) :
    Option ℕ → Option (Scan α)
  | none => sc.leader.bind fun p => (f p).map fun p' => { sc with leader := some p' }
  | some i => sc.workers[i]?.bind fun p =>
      (f p).map fun p' => { sc with workers := sc.workers.set i p' }

/-- `pgcolumnar_read_start` -/
def State.readStart (s : State α) (base t : ℕ) (p : Participant α) : Option (Participant α) :=
  if p.rowGroupList.isNone then
    some { p with rowGroupList := some (s.groupList base t p.projStorage p.metaSnapshot) }
  else none

/-- `pgcolumnar_next_group_index` and the tests on the group, for index `gi`. -/
def Participant.nextGroupIndex (canMatch : RowGroup α → Bool) (gi : ℕ) (p : Participant α) :
    Option (Participant α) :=
  match p.rowGroupList with
  | none => none
  | some groups =>
    if p.exhausted = true ∨ p.loading.isSome = true then none
    else match groups[gi]? with
      | none => some { p with exhausted := true, claimed := p.claimed ++ [gi] }
      | some g => some { p with loading := if canMatch g then some g else none,
                                claimed := p.claimed ++ [gi] }

/-- The rest of `pgcolumnar_native_load_group`, and the rows of the group. -/
def State.loadGroup (s : State α) (t : ℕ) (p : Participant α) : Option (Participant α) :=
  p.loading.map fun g =>
    { p with
      loading := none
      produced := p.produced ++
        groupRows (s.read t p.metaSnapshot s.masks) p.livenessCache g }

/-- `PgColumnarRescanRead` -/
def Participant.rescan (p : Participant α) : Participant α :=
  { p with rowGroupList := none, loading := none, exhausted :=
    false, claimed := [], produced := [] }

/-- The snapshot a scan may be given: one that is held, and `SnapshotAny` only through the
table access method. -/
def State.canScan (s : State α) (kind : Kind) : ScanSnapshot → Bool
  | .mvcc snap _ => decide (snap ∈ s.clock.snapshots)
  | .any => decide (kind = .tableAm)

def stepScan (base : ℕ) (canMatch : RowGroup α → Bool) (s : State α) :
    Action α → Option (State α)
  | .beginScan x kind projName snapshot =>
    if s.scan.isNone = true ∧ s.clock.status x = .running ∧ s.clock.status (s.top x) = .running ∧
        s.canScan kind snapshot = true ∧ (projName.isNone = true ∨ kind = .custom) then
      let t := s.top x
      match kind with
      | .custom => (s.flush x false).map fun s' =>
          let leader := s'.openReader base t (s'.now t) projName snapshot
          { s' with scan := some ⟨t, kind, projName, snapshot, leader.projStorage, none, 0,
                                  some leader, []⟩ }
      | _ => some { s with scan := some ⟨t, kind, projName, snapshot, none, none, 0, none, []⟩ }
    else none
  | .initializeDSM x => s.scan.bind fun sc =>
      if sc.dsm.isNone = true ∧ s.clock.status x = .running ∧ s.top x = sc.top then
        match sc.kind with
        | .custom => some { s with scan := some { sc with dsm := some (s.now sc.top) } }
        | _ => (s.flush x true).map fun s' =>
            { s' with scan := some { sc with dsm := some (s.now sc.top) } }
      else none
  | .openLeader => s.scan.bind fun sc =>
      if sc.dsm.isSome = true ∧ sc.leader.isNone = true then
        some { s with scan := some { sc with
          leader := some (s.openReader base sc.top (s.now sc.top) none sc.snapshot) } }
      else none
  | .startWorker => s.scan.bind fun sc => sc.dsm.map fun now =>
      { s with scan := some { sc with
          workers := sc.workers ++ [s.openReader base sc.top now sc.projName sc.snapshot] } }
  | .readStart p => s.scan.bind fun sc =>
      if sc.dsm.isSome = true then
        (sc.modifyM (s.readStart base sc.top) p).map fun sc' => { s with scan := some sc' }
      else none
  | .nextGroupIndex p => s.scan.bind fun sc =>
      (sc.modifyM (Participant.nextGroupIndex canMatch sc.parallelCounter) p).map fun sc' =>
        { s with scan := some { sc' with parallelCounter := sc.parallelCounter + 1 } }
  | .loadGroup p => s.scan.bind fun sc =>
      (sc.modifyM (s.loadGroup sc.top) p).map fun sc' => { s with scan := some sc' }
  | .rescan => s.scan.bind fun sc =>
      if sc.dsm.isSome = true then
        some { s with scan := some { sc with
          parallelCounter := 0
          leader := if sc.kind = .aggregate then none else sc.leader.map (·.rescan)
          workers := [] } }
      else none
  | .endScan => s.scan.map fun _ => { s with scan := none }
  | _ => none

def step (base : ℕ) (canMatch : RowGroup α → Bool) (s : State α) : Action α → Option (State α)
  | .begin =>
    some { s with
      clock := s.clock.begin
      top := update s.top s.clock.next s.clock.next }
  | .beginSub t =>
    if s.working t = true ∧ s.top t = t then
      some { s with
        clock := s.clock.begin
        top := update s.top s.clock.next t }
    else none
  | .commit t =>
    -- what is still buffered is flushed before the commit
    if s.working t = true ∧ s.top t = t ∧ s.buffered t = [] ∧ s.marks t = [] then
      let xs := s.clock.running.filter fun x => decide (s.top x = t)
      some { s with clock := s.clock.finish xs .committed }
    else none
  | .abort xs =>
    if (∀ x ∈ xs, s.working x = true) ∧ (∀ x ∈ s.clock.running, s.top x ∈ xs → x ∈ xs) then
      some { s with clock := s.clock.finish xs .aborted }
    else none
  | .takeSnapshot => some { s with clock := s.clock.takeSnapshotBut s.lazy }
  | .dropSnapshot i =>
    let snapshots := s.clock.snapshots.eraseIdx i
    if s.scan.all (fun sc => match sc.snapshot with
        | .mvcc snap _ => decide (snap ∈ snapshots)
        | .any => true) = true then
      some { s with clock := s.clock.dropSnapshot i }
    else none
  | .commandEnd t =>
    -- between the start of the executor and parallel mode other relations may be flushed
    if s.clock.status t = .running ∧ s.top t = t ∧
        s.scan.all (fun sc => decide (sc.top ≠ t) || sc.dsm.isNone) = true then
      some { s with now := update s.now t (s.now t + 1) }
    else none
  | .buffer x g =>
    if s.working x = true then
      some { s with buffered := update s.buffered (s.top x) (s.buffered (s.top x) ++ [g]) }
    else none
  | .bufferMark x m =>
    if s.working x = true then
      some { s with marks := update s.marks (s.top x) (s.marks (s.top x) ++ [m]) }
    else none
  | .flush x => if s.working x = true then s.flush x false else none
  | .retire x i =>
    if s.working x = true then
      (s.deleteVersion x i s.groups).map fun groups => { s with groups := groups }
    else none
  | .hint k i => (s.clock.snapshots[k]?).bind fun snap => (s.groups[i]?).bind fun v =>
    -- `HEAP_XMAX_INVALID`
    if s.clock.sees snap v.xmin ∧ ∃ d ∈ v.xmax, s.clock.Missed snap d.1 then
      some { s with groups := s.groups.set i { v with xmax := none } }
    else none
  | .addProjection x p =>
    if s.working x = true then
      some { s with projections := s.projections ++ [⟨p, x, s.now (s.top x), none⟩] }
    else none
  | .dropProjection x i =>
    if s.working x = true then
      (s.deleteVersion x i s.projections).map fun projections =>
        { s with projections := projections }
    else none
  | .pruneGroup i => (s.pruneVersion i s.groups).map fun groups => { s with groups := groups }
  | .pruneMask i => (s.pruneVersion i s.masks).map fun masks => { s with masks := masks }
  | .pruneProjection i =>
    (s.pruneVersion i s.projections).map fun projections => { s with projections := projections }
  | a => stepScan base canMatch s a

end PgColumnar.Parallel
