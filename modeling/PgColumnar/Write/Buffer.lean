import PgColumnar.Lib.Nested
import PgColumnar.Lib.Run

/-!
# The write buffers of one relation

A transaction buffers the rows it appends to a relation in write states, one for
each subtransaction that writes (`columnar_write_state.c`).  A stripe takes its
id and a whole `stripe_row_limit` of row numbers from the metapage when its first
row is buffered; a flush writes it as a row group, whose catalog rows belong to
the subtransaction that is current at that moment, not to the one that buffered
the rows.  A read below the owner therefore writes the buffer out and keeps it,
and `flushedUnder` remembers which subtransaction has to be waited for.

The projections of the relation share the life of its write states: only how many
rows their writers hold is modelled, since that is all the base table's code asks.
Their stripes, like those of other backends, draw from the same counters
(`Action.reserve`).

## Main definitions

* `WriteState`, `flushRowGroup` — the buffer of one owner, and its flush.
* `Session`, `History`, `step` — a transaction with its subtransactions, and what it has appended.
-/

namespace PgColumnar.Write

open Nested

variable {ρ : Type*}

/-- A setting of `stripe_row_limit`: the variable has the minimum 1000 and
`set_options` refuses less. -/
structure RowLimit where
  rows : ℕ
  le_rows : 1000 ≤ rows

def RowLimit.least : RowLimit := ⟨1000, Nat.le_refl _⟩

/-- A stripe being buffered, with its reservation. -/
structure Stripe (ρ : Type*) where
  stripeId : ℕ
  firstRowNumber : ℕ
  rows : List ρ

/-- `PgColumnarWriteState`: `stripe` is absent while `haveReservation` is false,
`projWriters` until `projInited`; a writer is the number of rows it holds. -/
structure WriteState (ρ : Type*) where
  subid : ℕ
  natts : ℕ
  stripeRowLimit : RowLimit
  stripe : Option (Stripe ρ)
  projWriters : Option (List ℕ)
  flushedUnder : Option ℕ
  eagerFlush : Bool

/-- A row of `pgcolumnar.row_group` with the rows it describes, and the
subtransaction that inserted it. -/
structure RowGroup (ρ : Type*) where
  groupNumber : ℕ
  firstRowNumber : ℕ
  rows : List ρ
  subid : ℕ

/-- The counters of the metapage. -/
structure Metapage where
  reservedStripeId : ℕ
  reservedRowNumber : ℕ

/-- `PgColumnarReserveRowNumbers`. -/
def Metapage.reserveRowNumbers (m : Metapage) (rowCount : ℕ) : Metapage where
  reservedStripeId := m.reservedStripeId + 1
  reservedRowNumber := m.reservedRowNumber + rowCount

namespace WriteState

def stripeRowCount (ws : WriteState ρ) : ℕ :=
  match ws.stripe with
  | none => 0
  | some st => st.rows.length

/-- `reset_stripe`. -/
def resetStripe (ws : WriteState ρ) : WriteState ρ := { ws with stripe := none }

/-- `ws_has_projection_rows`. -/
def hasProjectionRows (ws : WriteState ρ) : Bool := (ws.projWriters.getD []).any (0 < ·)

/-- `reset_ws_projections`. -/
def resetProjections (ws : WriteState ρ) : WriteState ρ :=
  { ws with projWriters := ws.projWriters.map (·.map fun _ => 0) }

/-- `flush_ws_projections_ext`: what is written goes to the projections' own storage. -/
def flushProjections (ws : WriteState ρ) (keep : Bool) : WriteState ρ :=
  if keep then ws else ws.resetProjections

end WriteState

/-! ### Flushing -/

/-- `flush_row_group` while `current` is the current subtransaction: the write
state afterwards and the row groups written.  With nothing buffered it is a no-op. -/
def flushRowGroup (current : ℕ) (keep : Bool) (ws : WriteState ρ) :
    WriteState ρ × List (RowGroup ρ) :=
  match ws.stripe with
  | none => (ws, [])
  | some st =>
    if st.rows.length = 0 then (ws, [])
    else
      (if keep then ws else ws.resetStripe, [⟨st.stripeId, st.firstRowNumber, st.rows, current⟩])

/-- A write state with its projections written out under the current subtransaction. -/
def flushWithProjections (current : ℕ) (keep : Bool) (ws : WriteState ρ) :
    WriteState ρ × List (RowGroup ρ) :=
  let r := flushRowGroup current keep ws
  (r.1.flushProjections keep, r.2)

/-- One write state in `PgColumnarFlushWriteStateForRelation`. -/
def flushWriteState (current : ℕ) (ws : WriteState ρ) : WriteState ρ × List (RowGroup ρ) :=
  let keep : Bool := ws.subid ≠ current
  if ws.flushedUnder.isSome then (ws, [])
  else if keep && ws.stripeRowCount == 0 && !ws.hasProjectionRows then (ws, [])
  else
    let r := flushWithProjections current keep ws
    if keep then ({ r.1 with flushedUnder := some current, eagerFlush := true }, r.2) else r

/-- One write state in `PgColumnarFlushPendingWritesOfSubXact`. -/
def flushPendingWrites (subid : ℕ) (ws : WriteState ρ) : WriteState ρ × List (RowGroup ρ) :=
  if ws.subid ≠ subid then (ws, [])
  else
    let r := flushWithProjections subid false ws
    ({ r.1 with eagerFlush := false }, r.2)

/-- `PgColumnarWriteStateAfterAppend`. -/
def afterAppend (current : ℕ) (ws : WriteState ρ) : WriteState ρ × List (RowGroup ρ) :=
  if !ws.eagerFlush || ws.subid ≠ current || ws.flushedUnder.isSome then (ws, [])
  else
    let r := flushWithProjections current false ws
    ({ r.1 with eagerFlush := false }, r.2)

/-! ### Appending a row -/

/-- A write state picked out of the list, with its neighbours. -/
structure Focus (ρ : Type*) where
  before : List (WriteState ρ)
  state : WriteState ρ
  after : List (WriteState ρ)

def Focus.states (f : Focus ρ) : List (WriteState ρ) := f.before ++ f.state :: f.after

/-- The first write state of a subtransaction. -/
def findState (subid : ℕ) : List (WriteState ρ) → Option (Focus ρ)
  | [] => none
  | ws :: l =>
    if ws.subid = subid then some ⟨[], ws, l⟩
    else (findState subid l).map fun f => { f with before := ws :: f.before }

/-- A fresh write state. -/
def newWriteState (subid natts : ℕ) (limit : RowLimit) : WriteState ρ where
  subid := subid
  natts := natts
  stripeRowLimit := limit
  stripe := none
  projWriters := none
  flushedUnder := none
  eagerFlush := false

/-- `PgColumnarGetWriteState`.  A buffer opened under another column count is
written out and dropped, and a new one is opened at the end of the list. -/
def getWriteState (current natts : ℕ) (limit : RowLimit) (states : List (WriteState ρ)) :
    Focus ρ × List (RowGroup ρ) :=
  match findState current states with
  | none => (⟨states, newWriteState current natts limit, []⟩, [])
  | some f =>
    if f.state.natts = natts then (f, [])
    else
      (⟨f.before ++ f.after, newWriteState current natts limit, []⟩,
        (flushWithProjections current false f.state).2)

/-- The reservation a row is buffered under: the stripe's own, or a fresh one of
`stripe_row_limit` row numbers. -/
def reserveStripe (ws : WriteState ρ) (m : Metapage) : Stripe ρ × Metapage :=
  match ws.stripe with
  | some st => (st, m)
  | none =>
    (⟨m.reservedStripeId, m.reservedRowNumber, []⟩, m.reserveRowNumbers ws.stripeRowLimit.rows)

/-- The write state with one more row in its stripe. -/
def bufferRow (ws : WriteState ρ) (st : Stripe ρ) (row : ρ) : WriteState ρ :=
  { ws with stripe := some { st with rows := st.rows ++ [row] } }

/-- The flush of `PgColumnarWriteRow` at the stripe row limit. -/
def flushAtLimit (current : ℕ) (ws : WriteState ρ) : WriteState ρ × List (RowGroup ρ) :=
  if ws.stripeRowLimit.rows ≤ ws.stripeRowCount then flushRowGroup current false ws else (ws, [])

/-- What `PgColumnarWriteRow` returns and leaves behind. -/
structure Written (ρ : Type*) where
  state : WriteState ρ
  metapage : Metapage
  groups : List (RowGroup ρ)
  rowNumber : ℕ

/-- `PgColumnarWriteRow`. -/
def writeRow (current : ℕ) (ws : WriteState ρ) (m : Metapage) (row : ρ) : Written ρ :=
  let r := reserveStripe ws m
  let flushed := flushAtLimit current (bufferRow ws r.1 row)
  ⟨flushed.1, r.2, flushed.2, r.1.firstRowNumber + r.1.rows.length⟩

/-- `PgColumnarProjectionFanoutRow` with the given number of additional projections. -/
def fanoutRow (projections : ℕ) (ws : WriteState ρ) : WriteState ρ :=
  let writers := ws.projWriters.getD (List.replicate projections 0)
  let filled := writers.map fun n => if ws.stripeRowLimit.rows ≤ n + 1 then 0 else n + 1
  { ws with projWriters := some filled }

/-! ### Subtransaction ends -/

/-- One write state in `PgColumnarWriteStatePromoteSubXact`. -/
def promoteWriteState (subid parent : ℕ) (ws : WriteState ρ) : WriteState ρ :=
  let ws := { ws with subid := promote subid parent ws.subid }
  if ws.flushedUnder = some subid then
    if parent = ws.subid then { ws.resetStripe.resetProjections with flushedUnder := none }
    else { ws with flushedUnder := some parent }
  else ws

/-- One write state in `PgColumnarWriteStateDiscardSubXact`, dropped when the
aborting subtransaction owns it. -/
def discardWriteState (subid : ℕ) (ws : WriteState ρ) : Option (WriteState ρ) :=
  if ws.subid = subid then none
  else if ws.flushedUnder = some subid then some { ws with flushedUnder := none }
  else some ws

/-! ### The transaction -/

/-- One transaction's view of the relation: the catalog holds the row groups of
subtransactions that have not aborted. -/
structure Session (ρ : Type*) where
  metapage : Metapage
  stack : Stack
  states : List (WriteState ρ)
  rowGroups : List (RowGroup ρ)

namespace Session

/-- A loop over the write states that may write row groups. -/
def forEach (s : Session ρ) (f : WriteState ρ → WriteState ρ × List (RowGroup ρ)) : Session ρ :=
  { s with
    states := s.states.map fun ws => (f ws).1
    rowGroups := s.rowGroups ++ s.states.flatMap fun ws => (f ws).2 }

/-- The write state `PgColumnarGetWriteState` returns, and the list it is in. -/
def openState (s : Session ρ) (natts : ℕ) (limit : RowLimit) : Focus ρ × List (RowGroup ρ) :=
  getWriteState s.stack.current natts limit s.states

/-- A row appended by `pgcolumnar_tuple_insert`, and the row number it got. -/
def append (s : Session ρ) (natts : ℕ) (limit : RowLimit) (projections : ℕ) (row : ρ) :
    Session ρ × ℕ :=
  let o := s.openState natts limit
  let w := writeRow s.stack.current o.1.state s.metapage row
  let a := afterAppend s.stack.current (fanoutRow projections w.state)
  ({ s with
      metapage := w.metapage
      states := { o.1 with state := a.1 }.states
      rowGroups := s.rowGroups ++ o.2 ++ w.groups ++ a.2 }, w.rowNumber)

/-- `PgColumnarFlushWriteStateForRelation`. -/
def readFlush (s : Session ρ) : Session ρ := s.forEach (flushWriteState s.stack.current)

/-- `PgColumnarFlushPendingWritesOfSubXact` for the current subtransaction, as the
executor-end hook calls it. -/
def statementEnd (s : Session ρ) : Session ρ := s.forEach (flushPendingWrites s.stack.current)

/-- Commit of the current subtransaction: its catalog rows become the parent's. -/
def commitSubXact (s : Session ρ) : Option (Session ρ) :=
  s.stack.pop.map fun t =>
    { s with
      stack := t
      states := s.states.map (promoteWriteState s.stack.current t.current)
      rowGroups := s.rowGroups.map fun g =>
        { g with subid := promote s.stack.current t.current g.subid } }

/-- Abort of the current subtransaction: its catalog rows are no longer there. -/
def abortSubXact (s : Session ρ) : Option (Session ρ) :=
  s.stack.pop.map fun t =>
    { s with
      stack := t
      states := s.states.filterMap (discardWriteState s.stack.current)
      rowGroups := s.rowGroups.filter (·.subid ≠ s.stack.current) }

/-- The pre-commit call of `PgColumnarFlushAllPendingWrites`. -/
def flushAllPendingWrites (s : Session ρ) : Session ρ :=
  s.forEach (flushWithProjections s.stack.current false)

end Session

/-- What a transaction can do to the relation.  `reserve` is a reservation from the
same counters by a projection writer or by another backend. -/
inductive Action (ρ : Type*) where
  | openState (natts : ℕ) (limit : RowLimit)
  | append (natts : ℕ) (limit : RowLimit) (projections : ℕ) (row : ρ)
  | readFlush
  | statementEnd
  | startSubXact
  | commitSubXact
  | abortSubXact
  | reserve (rowCount : ℕ)

/-- A transaction together with the journal of the rows it appended, each with the
number `PgColumnarWriteRow` returned for it. -/
structure History (ρ : Type*) where
  session : Session ρ
  journal : Journal (ρ × ℕ)

namespace History

/-- The start of a transaction on a relation with this metapage. -/
def start (m : Metapage) : History ρ := ⟨⟨m, Stack.start, [], []⟩, Journal.empty⟩

/-- One action; a subtransaction end is refused when only the top level is open. -/
def step (h : History ρ) : Action ρ → Option (History ρ)
  | .openState natts limit =>
    let o := h.session.openState natts limit
    some { h with session := { h.session with
      states := o.1.states, rowGroups := h.session.rowGroups ++ o.2 } }
  | .append natts limit projections row =>
    let r := h.session.append natts limit projections row
    some ⟨r.1, h.journal.record h.session.stack.current (row, r.2)⟩
  | .readFlush => some { h with session := h.session.readFlush }
  | .statementEnd => some { h with session := h.session.statementEnd }
  | .startSubXact =>
    some { h with session := { h.session with stack := h.session.stack.push } }
  | .commitSubXact =>
    h.session.commitSubXact.map fun s =>
      ⟨s, h.journal.commit h.session.stack.current s.stack.current⟩
  | .abortSubXact =>
    h.session.abortSubXact.map fun s => ⟨s, h.journal.abort h.session.stack.current⟩
  | .reserve rowCount =>
    some { h with session := { h.session with
      metapage := h.session.metapage.reserveRowNumbers rowCount } }

end History

/-- The rows of a list of row groups, each with its row number. -/
def numberedRows (gs : List (RowGroup ρ)) : List (ρ × ℕ) :=
  gs.flatMap fun g => g.rows.zipIdx g.firstRowNumber

end PgColumnar.Write
