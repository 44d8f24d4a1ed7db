import PgColumnar.Lib.Dirty
import PgColumnar.Lib.Run

/-!
# The probe of a uniqueness check

The check of a unique index asks for the row of an index entry with a dirty snapshot
(`pgcolumnar_index_fetch_tuple`).  The answer is made from separate reads: the row groups of the
storage, the delete vector of the group that covers the row, and the buffers of the transaction
itself.  Every read sees the catalog of its own moment, and leaves the names of the transaction
that is writing the last version it examined, or nobody's.  The caller waits for a transaction
that is named, and takes a row that is present without a name for a duplicate.

Between the reads other transactions write row groups and delete vectors, retire groups (a
compaction also writes the rows again, in a new group), commit and roll back.  A delete vector is
given by its set bits.

## Main definitions

* `State`, `step` — probes that read under dirty snapshots, among writers, deletes and
  retirements.
* `Benign` — the steps after which an answer is right.
-/

namespace PgColumnar.Unique

open Dirty

/-- A transaction id: the transaction, and the subtransaction within it. -/
structure Xid where
  top : ℕ
  sub : ℕ
  deriving DecidableEq

/-- A row of `row_group`. -/
structure Group where
  number : ℕ
  firstRowNumber : ℕ
  rowCount : ℕ
  deriving DecidableEq

/-- A row of `delete_vector`. -/
structure DeleteVector where
  groupNumber : ℕ
  bits : List ℕ
  deriving DecidableEq

inductive Stage where
  | start
  /-- The group that covers the row, as the first read saw it. -/
  | found (group : Version Xid Group)

/-- A probe under way.  `wasLive` says whether the row has been live since it began, which nothing
reads. -/
structure Probe where
  row : ℕ
  stage : Stage
  names : Names Xid
  wasLive : Bool

/-- The group that a probe has found. -/
def Stage.group : Stage → Option (Version Xid Group)
  | .start => none
  | .found group => some group

structure Answer where
  row : ℕ
  present : Bool
  names : Names Xid
  wasLive : Bool

/-- The versions of a catalog are in the order in which a scan examines them.  `buffered` and
`marked` are the rows in write buffers and in delete buffers, with the subtransactions that own
them. -/
structure State where
  ended : ℕ → Option Bool
  rolledBack : List Xid
  rowGroup : List (Version Xid Group)
  deleteVector : List (Version Xid DeleteVector)
  buffered : List (Xid × ℕ)
  marked : List (Xid × ℕ)
  probes : List (ℕ × Probe)
  answers : List Answer

def Group.covers (row : ℕ) (g : Group) : Bool :=
  decide (g.firstRowNumber ≤ row ∧ row < g.firstRowNumber + g.rowCount)

namespace State

variable (s : State)

def fate (x : Xid) : Fate :=
  if x ∈ s.rolledBack then .aborted
  else
    match s.ended x.top with
    | none => .running
    | some true => .committed
    | some false => .aborted

/-- `TransactionIdIsCurrentTransactionId` -/
def mine (top : ℕ) (x : Xid) : Bool := decide (x.top = top) && decide (s.fate x = .running)

/-- `PgColumnarBufferedRowByNumber` -/
def isBuffered (top row : ℕ) : Bool := s.buffered.any fun b => decide (b.1.top = top ∧ b.2 = row)

/-- `PgColumnarDeleteVectorBufferedDeleted` -/
def isMarked (top row : ℕ) : Bool := s.marked.any fun b => decide (b.1.top = top ∧ b.2 = row)

/-! ### Live rows -/

/-- A group that the reader sees covers the row. -/
def covered (mine : Xid → Bool) (row : ℕ) : Bool :=
  s.rowGroup.any fun v => v.seen mine s.fate && v.val.covers row

/-- A delete vector that the reader sees marks the row. -/
def deleted (mine : Xid → Bool) (row : ℕ) : Bool :=
  s.rowGroup.any fun v => v.seen mine s.fate && v.val.covers row &&
    s.deleteVector.any fun d => d.seen mine s.fate && decide (d.val.groupNumber = v.val.number) &&
      d.val.bits.contains (row - v.val.firstRowNumber)

def liveCommitted (row : ℕ) : Bool :=
  s.covered (fun _ => false) row && !s.deleted (fun _ => false) row

/-- The transaction has deleted the row, or sees it deleted. -/
def deletedFor (top row : ℕ) : Bool := s.isMarked top row || s.deleted (s.mine top) row

def liveTo (top row : ℕ) : Bool :=
  (s.covered (s.mine top) row || s.isBuffered top row) && !s.deletedFor top row

def live (top row : ℕ) : Bool := s.liveCommitted row || s.liveTo top row

/-! ### The reads -/

/-- The answer where `PgColumnarRowIsLive` is false: a row of the own write buffer, or a row that
a transaction which was named may have deleted. -/
def answerNotLive (top : ℕ) (p : Probe) (names : Names Xid) : Answer where
  row := p.row
  present := s.isBuffered top p.row || (!names.isNone && s.rowGroup.any fun v => v.val.covers p.row)
  names := names
  wasLive := p.wasLive

def putProbe (top : ℕ) (p : Probe) : State :=
  { s with probes := (top, p) :: s.probes.filter fun q => q.1 ≠ top }

def answer (top : ℕ) (a : Answer) : State :=
  { s with probes := s.probes.filter fun q => q.1 ≠ top, answers := s.answers ++ [a] }

/-- `pgcolumnar_lookup_row_group`, under a dirty snapshot. -/
def readGroups (top : ℕ) (p : Probe) : State :=
  let read := scan (s.mine top) s.fate s.rowGroup p.names
  match read.1.find? fun v => v.val.covers p.row with
  | some v => s.putProbe top { p with stage := .found v, names := read.2 }
  | none => s.answer top (s.answerNotLive top p read.2)

/-- The versions that a read of the delete vectors of a group examines. -/
def deleteVectorsOf (n : ℕ) : List (Version Xid DeleteVector) :=
  s.deleteVector.filter fun d => d.val.groupNumber = n

/-- The row is in the delete buffer, or in a delete vector that is read. -/
def readsDeleted (top : ℕ) (p : Probe) (g : Group) : Bool :=
  s.isMarked top p.row || (scan (s.mine top) s.fate (s.deleteVectorsOf g.number) p.names).1.any
    fun d =>
    d.val.bits.contains (p.row - g.firstRowNumber)

/-- The rest of `PgColumnarRowIsLive`, and the answer. -/
def readDeletes (top : ℕ) (p : Probe) (g : Group) : State :=
  let names := (scan (s.mine top) s.fate (s.deleteVectorsOf g.number) p.names).2
  s.answer top (if s.readsDeleted top p g then s.answerNotLive top p names
    else ⟨p.row, true, names, p.wasLive⟩)

end State

/-! ### Steps -/

inductive Action where
  | append (x : Xid) (row : ℕ)
  /-- A row group is written at some place of the scan order; a buffer of an enclosing
  subtransaction is kept. -/
  | flush (x : Xid) (g : Group) (pos : ℕ) (keep : Bool)
  | mark (x : Xid) (row : ℕ)
  | flushMarks (x : Xid) (n : ℕ) (bits : List ℕ) (pos : ℕ) (keep : Bool)
  | retire (x : Xid) (n : ℕ)
  | release (x parent : Xid)
  | rollback (xs : List Xid)
  | finish (top : ℕ) (commits : Bool)
  | pruneGroup (i : ℕ)
  | pruneDeleteVector (i : ℕ)
  | probe (top row : ℕ)
  | readGroups (top : ℕ)
  | readDeletes (top : ℕ)

namespace State

variable (s : State)

/-- The transaction is not in the middle of a probe. -/
def idle (top : ℕ) : Bool := (s.probes.lookup top).isNone

def canStep (x : Xid) : Bool := decide (s.fate x = .running) && s.idle x.top

/-- Nobody else is writing or deleting the rows of the group: its lock can be taken. -/
def unlocked (x : Xid) (n : ℕ) : Bool :=
  let free := fun y : Xid => decide (s.fate y = .running → y.top = x.top)
  (s.rowGroup.all fun v => decide (v.val.number ≠ n) || (free v.xmin && v.xmax.all free)) &&
    s.deleteVector.all fun d => decide (d.val.groupNumber ≠ n) || (free d.xmin && d.xmax.all free)

/-- The version of a group that the transaction sees. -/
def ownView (x : Xid) (n : ℕ) : Option (Version Xid Group) :=
  s.rowGroup.find? fun v => v.seen (s.mine x.top) s.fate && decide (v.val.number = n)

/-- Delete the versions that the transaction sees. -/
def deleteSeen {α : Type} (x : Xid) (p : α → Bool) (tab : List (Version Xid α)) :
    List (Version Xid α) :=
  tab.map fun v => if v.seen (s.mine x.top) s.fate && p v.val then { v with xmax := some x } else v

/-- `PgColumnarUpsertDeleteVector` -/
def upsertDeleteVector (x : Xid) (n : ℕ) (bits : List ℕ) (pos : ℕ) :
    List (Version Xid DeleteVector) :=
  let old := (s.deleteVectorsOf n).find? fun d => d.seen (s.mine x.top) s.fate
  insertAt pos ⟨⟨n, bits ++ (old.map fun d => d.val.bits).getD []⟩, x, none⟩
    (s.deleteSeen x (fun d => decide (d.groupNumber = n)) s.deleteVector)

/-- What happens in a step, before the probes look whether their rows are live. -/
def act : Action → Option State
  | .append x row =>
    if s.canStep x then some { s with buffered := s.buffered ++ [(x, row)] } else none
  | .flush x g pos keep =>
    if s.canStep x ∧ ∀ v ∈ s.rowGroup, s.fate v.xmin ≠ .aborted →
        v.val.firstRowNumber + v.val.rowCount ≤ g.firstRowNumber ∨
          g.firstRowNumber + g.rowCount ≤ v.val.firstRowNumber then
      some { s with
        rowGroup := insertAt pos ⟨g, x, none⟩ s.rowGroup
        buffered := if keep then s.buffered
          else s.buffered.filter fun b => decide (b.1.top ≠ x.top) || !g.covers b.2 }
    else none
  | .mark x row =>
    if s.canStep x ∧ s.covered (s.mine x.top) row then
      some { s with marked := s.marked ++ [(x, row)] }
    else none
  | .flushMarks x n bits pos keep =>
    match s.ownView x n with
    | some v =>
      if s.canStep x ∧ s.unlocked x n ∧
          bits.all fun i => s.isMarked x.top (v.val.firstRowNumber + i) then
        some { s with
          deleteVector := s.upsertDeleteVector x n bits pos
          marked := if keep then s.marked
            else s.marked.filter fun b => decide (b.1.top ≠ x.top) || !v.val.covers b.2 }
      else none
    | none => none
  | .retire x n =>
    if s.canStep x ∧ s.unlocked x n then
      some { s with
        deleteVector := s.deleteSeen x (fun d => decide (d.groupNumber = n)) s.deleteVector
        rowGroup := s.deleteSeen x (fun g => decide (g.number = n)) s.rowGroup }
    else none
  | .release x parent =>
    if s.canStep x ∧ parent.top = x.top then
      let move := fun b : Xid × ℕ => if b.1 = x then (parent, b.2) else b
      some { s with buffered := s.buffered.map move, marked := s.marked.map move }
    else none
  | .rollback xs =>
    if xs.all s.canStep then
      some { s with
        rolledBack := s.rolledBack ++ xs
        buffered := s.buffered.filter fun b => b.1 ∉ xs
        marked := s.marked.filter fun b => b.1 ∉ xs }
    else none
  | .finish top commits =>
    if (s.ended top).isNone ∧ s.idle top then
      some { s with
        ended := fun t => if t = top then some commits else s.ended t
        buffered := s.buffered.filter fun b => b.1.top ≠ top
        marked := s.marked.filter fun b => b.1.top ≠ top }
    else none
  | .pruneGroup i =>
    if (s.rowGroup[i]?).any fun v => v.dead s.fate then
      some { s with rowGroup := s.rowGroup.eraseIdx i }
    else none
  | .pruneDeleteVector i =>
    if (s.deleteVector[i]?).any fun d => d.dead s.fate then
      some { s with deleteVector := s.deleteVector.eraseIdx i }
    else none
  | .probe top row =>
    if (s.ended top).isNone ∧ s.idle top then
      some (s.putProbe top ⟨row, .start, .none, false⟩)
    else none
  | .readGroups top =>
    match s.probes.lookup top with
    | some ⟨row, .start, names, wasLive⟩ => some (s.readGroups top ⟨row, .start, names, wasLive⟩)
    | _ => none
  | .readDeletes top =>
    match s.probes.lookup top with
    | some ⟨row, .found v, names, wasLive⟩ =>
      some (s.readDeletes top ⟨row, .found v, names, wasLive⟩ v.val)
    | _ => none

/-- Every probe under way looks whether its row is live now. -/
def observe : State :=
  { s with probes := s.probes.map fun q =>
    (q.1, { q.2 with wasLive := q.2.wasLive || s.live q.1 q.2.row }) }

end State

def step (s : State) (a : Action) : Option State := (s.act a).map State.observe

def initial : State := ⟨fun _ => none, [], [], [], [], [], [], []⟩

/-- The steps after which an answer is right.  A transaction that retires the group a probe has
found does not commit before the delete vectors are read, unless the row has been live since the
probe began.  Where the group was found while another transaction was inserting it, and that one has
not committed when the delete vectors are read, the row is deleted or the last version that the
probe examines is one that another transaction is writing or deleting.  A row that the transaction
has deleted is in none of its write buffers. -/
def Benign (s : State) : Action → Prop
  | .finish top commits => commits = true → ∀ q ∈ s.probes, ∀ v ∈ q.2.stage.group,
    (∃ w ∈ s.rowGroup, w.val = v.val ∧
      (w.xmax.any fun d => decide (d.top = top ∧ s.fate d = .running)) = true) → q.2.wasLive = true
  | .readGroups top => ∀ p ∈ s.probes.lookup top, s.isBuffered top p.row = true →
    s.deletedFor top p.row = false
  | .readDeletes top => ∀ p ∈ s.probes.lookup top,
    (s.isBuffered top p.row = true → s.deletedFor top p.row = false) ∧
    ∀ v ∈ p.stage.group, s.readsDeleted top p v.val = false →
      sees (s.mine top) s.fate v.xmin = false →
      ((s.deleteVectorsOf v.val.number).getLast?.map fun d =>
        !(dirty (s.mine top) s.fate d).2.isNone).getD (!p.names.isNone) = true
  | _ => True

instance (s : State) (a : Action) : Decidable (Benign s a) := by
  cases a <;> unfold Benign <;> infer_instance

end PgColumnar.Unique
