import PgColumnar.Fold.Group

/-!
# The batch folds

An aggregate scan whose gate holds is folded without making rows: the fold keeps for every
needed column the number of values it has passed, fetches a value where the row is read, and
tests the scan keys instead of the filter (`pgcolumnar_native_batch_fold`,
`pgcolumnar_groupagg_batch_fold`).  The fold without groups leaves the columns that are not
in a key for after that test, group by group, as long as few rows pass.

## Main definitions

* `nativeBatchFold`, `groupaggBatchFold` — the folds.
* `nativeRowPath`, `groupaggRowPath` — what the executor does row by row.

## Main results

* `foldRow_spec`, `foldRows_calls` — one row, and the rows of a group.
* `batchFold_eq_rowPath` — the folds are the row path.
-/

namespace PgColumnar.Fold

open Bytes List Function

/-! ### One row -/

/-- What the fold keeps of a column: `cpresent`, `cval` and `cisnull`. -/
structure Slot where
  present : ℕ
  val : Datum
  isnull : Bool

def Slot.read (s : Slot) : Option Datum := if s.isnull then none else some s.val

/-- The value of a row; of a skipped vector it is passed over, for it was not decoded. -/
def Slot.gather (col : Column) (attlen row : ℕ) (skipped : Bool) (s : Slot) : Slot :=
  if bitAt col.validity row then
    if skipped then { s with present := s.present + 1 }
    else ⟨s.present + 1, fetchAtt (col.packed.drop (s.present * attlen)) attlen, false⟩
  else { s with isnull := true }

/-- The value of a row is passed over. -/
def Slot.consume (col : Column) (row : ℕ) (s : Slot) : Slot :=
  if bitAt col.validity row then { s with present := s.present + 1 } else s

variable (sc : Scan) (rd : Reader) (g : LoadedGroup rd.tupdesc)

/-- The columns of a group that a list names, one after the other. -/
def overColumns (f : ℕ → Column → Slot → Slot) (cols : List ℕ) (slots : ℕ → Slot) : ℕ → Slot :=
  cols.foldl (fun s c =>
    match g.column c with
    | none => s
    | some col => update s c (f c col (s c))) slots

def gatherColumns (cols : List ℕ) (row : ℕ) (skipped : Bool) (slots : ℕ → Slot) : ℕ → Slot :=
  overColumns rd g (fun c col => Slot.gather col (rd.tupdesc.getD c default).attlen row skipped)
    cols slots

def consumeColumns (cols : List ℕ) (row : ℕ) (slots : ℕ → Slot) : ℕ → Slot :=
  overColumns rd g (fun _ col => Slot.consume col row) cols slots

def slotEnv (slots : ℕ → Slot) : Env := fun attno =>
  if attno < 1 then none else (slots (attno - 1).toNat).read

/-- The fold between two rows: `calls` are the values it has passed on. -/
structure FoldState (ε : Type) where
  slots : ℕ → Slot
  curVec : ℕ
  candRows : ℕ
  survRows : ℕ
  calls : List ε

/-- One row of a fold.  The columns of `deferred` are fetched for a row that passes the keys,
and passed over for any other. -/
def foldRow {ε : Type} (keys : List ScanKey) (phase1 deferred : List ℕ) (emit : (ℕ → Slot) → ε)
    (s : FoldState ε) (row : ℕ) : FoldState ε :=
  let curVec := walkVec rd g row s.curVec
  let skipped := vecSkipped rd g curVec
  let slots := gatherColumns rd g phase1 row skipped s.slots
  if skipped then { s with slots := consumeColumns rd g deferred row slots, curVec := curVec }
  else if dvRowDeleted g.deleteMask row then
    { s with slots := consumeColumns rd g deferred row slots, curVec := curVec }
  else if keysPass sc keys (slotEnv slots) then
    let full := gatherColumns rd g deferred row false slots
    ⟨full, curVec, s.candRows + 1, s.survRows + 1, s.calls ++ [emit full]⟩
  else
    ⟨consumeColumns rd g deferred row slots, curVec, s.candRows + 1, s.survRows, s.calls⟩

/-- The rows of a group, from the first one. -/
def foldRows {ε : Type} (keys : List ScanKey) (phase1 deferred : List ℕ) (emit : (ℕ → Slot) → ε)
    (s : FoldState ε) : FoldState ε :=
  (List.range g.rowCount).foldl (foldRow sc rd g keys phase1 deferred emit)
    { s with slots := fun c => { s.slots c with present := 0 }, curVec := 0 }

variable {sc rd g} {cols : List ℕ}

theorem overColumns_apply {f : ℕ → Column → Slot → Slot} (hnodup : cols.Nodup)
    (slots : ℕ → Slot) (c : ℕ) :
    overColumns rd g f cols slots c =
      if c ∈ cols then (g.column c).elim (slots c) fun col => f c col (slots c) else slots c := by
  unfold overColumns
  induction cols generalizing slots with
  | nil => rfl
  | cons d cols ih =>
    obtain ⟨hd, hcols⟩ := nodup_cons.mp hnodup
    rw [foldl_cons, ih hcols]
    by_cases hcd : c = d
    · rw [hcd, if_neg hd, if_pos mem_cons_self]
      cases g.column d with
      | none => rfl
      | some col => exact update_self ..
    · have hmem : c ∈ d :: cols ↔ c ∈ cols := by simp [hcd]
      have hother : (match g.column d with
          | none => slots
          | some col => update slots d (f d col (slots d))) c = slots c := by
        cases g.column d with
        | none => rfl
        | some col => exact update_of_ne hcd ..
      simp only [hmem, hother]

/-- The slot of a column before a row: the values of the rows before it are passed. -/
def Slot.At (s : Slot) (col : Column) (row : ℕ) : Prop := s.present = col.rank row

variable {col : Column} {row : ℕ} {s : Slot}

theorem Slot.At.gather (h : s.At col row) (attlen : ℕ)
    (skipped : Bool) : (s.gather col attlen row skipped).At col (row + 1) := by
  unfold Slot.At Slot.gather at *
  rw [rank_succ, ← h]
  cases bitAt col.validity row <;> cases skipped <;> rfl

theorem Slot.At.consume (h : s.At col row) : (s.consume col row).At col (row + 1) := by
  unfold Slot.At Slot.consume at *
  rw [rank_succ, ← h]
  cases bitAt col.validity row <;> rfl

/-- The value that is fetched is that of the row. -/
theorem Slot.At.read_gather (h : s.At col row)
    (att : Attribute) : (s.gather col att.attlen row false).read = col.cell att row := by
  unfold Slot.At at h
  unfold Slot.gather Slot.read Column.cell
  cases bitAt col.validity row with
  | false => rfl
  | true => rw [← h]; rfl

/-- Between two rows: every needed column is at the row, and the walk may go on. -/
structure FoldInv {ε : Type} (needed : List ℕ) (row : ℕ) (s : FoldState ε) : Prop where
  at_row : ∀ c ∈ needed, ∀ col, g.column c = some col → (s.slots c).At col row
  from_vector : ∀ m ∈ g.skip, m.From row s.curVec

/-- The needed columns are returned by the reader and the group has them. -/
def Complete (g : LoadedGroup rd.tupdesc) (needed : List ℕ) : Prop :=
  ∀ c ∈ needed, rd.colWanted c = true ∧ (g.column c).isSome = true

variable {slots : ℕ → Slot} {c : ℕ}

theorem gatherColumns_at (hnodup : cols.Nodup)
    (skipped : Bool) (hc : c ∈ cols) (hcol : g.column c = some col)
    (hat : (slots c).At col row) : (gatherColumns rd g cols row skipped slots c).At col
      (row + 1) := by
  unfold gatherColumns
  rw [overColumns_apply hnodup, if_pos hc, hcol]
  exact hat.gather _ skipped

theorem consumeColumns_at (hnodup : cols.Nodup)
    (hc : c ∈ cols) (hcol : g.column c = some col) (hat : (slots c).At col row) :
    (consumeColumns rd g cols row slots c).At col (row + 1) := by
  unfold consumeColumns
  rw [overColumns_apply hnodup, if_pos hc, hcol]
  exact hat.consume

theorem gatherColumns_read (hnodup : cols.Nodup) (hc : c ∈ cols) (hwanted : rd.colWanted c = true)
    (hcol : g.column c = some col) (hat : (slots c).At col row) :
    (gatherColumns rd g cols row false slots c).read = cell rd g c row := by
  unfold gatherColumns
  rw [overColumns_apply hnodup, if_pos hc, hcol, cell, if_neg (by rw [hwanted]; decide), hcol]
  exact hat.read_gather _

theorem gatherColumns_other (hnodup : cols.Nodup) (slots : ℕ → Slot) (row : ℕ)
    (skipped : Bool) (hc : c ∉ cols) : gatherColumns rd g cols row skipped slots c = slots c := by
  unfold gatherColumns
  rw [overColumns_apply hnodup, if_neg hc]

theorem consumeColumns_other (hnodup : cols.Nodup) (slots : ℕ → Slot) (row : ℕ) (hc : c ∉ cols) :
    consumeColumns rd g cols row slots c = slots c := by
  unfold consumeColumns
  rw [overColumns_apply hnodup, if_neg hc]

variable {phase1 deferred : List ℕ}

/-- **One row**: it is passed on if it is read and passes the keys, with the values it holds,
and every column is at the next row, whether it was fetched or not. -/
theorem foldRow_spec {ε : Type} {keys : List ScanKey}
    {emit : (ℕ → Slot) → ε} {out : ε} {pass : Bool}
    (hnodup : (phase1 ++ deferred).Nodup) (hcomplete : Complete g (phase1 ++ deferred))
    (hkeys : ∀ slots : ℕ → Slot, (∀ c ∈ phase1, (slots c).read = cell rd g c row) →
      keysPass sc keys (slotEnv slots) = pass)
    (hemit : ∀ slots : ℕ → Slot, (∀ c ∈ phase1 ++ deferred, (slots c).read = cell rd g c row) →
      emit slots = out)
    {s : FoldState ε} (hs : FoldInv (g := g) (phase1 ++ deferred) row s) :
    FoldInv (g := g) (phase1 ++ deferred) (row + 1)
        (foldRow sc rd g keys phase1 deferred emit s row) ∧
      (foldRow sc rd g keys phase1 deferred emit s row).calls =
        s.calls ++ if live rd g row && pass then [out] else [] := by
  obtain ⟨hn1, hn2, hdisj⟩ := nodup_append.mp hnodup
  have hdis1 : ∀ c ∈ phase1, c ∉ deferred := fun c h1 h2 => hdisj c h1 c h2 rfl
  have hdis2 : ∀ c ∈ deferred, c ∉ phase1 := fun c h2 h1 => hdisj c h1 c h2 rfl
  have hwalk : ∀ m ∈ g.skip, m.From row (walkVec rd g row s.curVec) := by
    intro m hm
    unfold walkVec
    rw [show g.skip = some m from hm]
    exact (hs.from_vector m hm).walk
  have hsame : vecSkipped rd g (walkVec rd g row s.curVec) =
      vecSkipped rd g (walkVec rd g row 0) := by
    cases hm : g.skip with
    | none => simp [vecSkipped, hm]
    | some m =>
      unfold walkVec
      simp only [hm]
      rw [walk_eq (hs.from_vector m hm) (SkipMap.From.zero m row)]
  -- after the gathering of a row that is not passed on
  have hconsumed : ∀ skipped, ∀ c ∈ phase1 ++ deferred, ∀ col, g.column c = some col →
      (consumeColumns rd g deferred row (gatherColumns rd g phase1 row skipped s.slots) c).At col
        (row + 1) := by
    intro skipped c hc col hcol
    have hat := hs.at_row c hc col hcol
    rcases mem_append.mp hc with h1 | h2
    · rw [consumeColumns_other hn2 _ _ (hdis1 c h1)]
      exact gatherColumns_at hn1 skipped h1 hcol hat
    · apply consumeColumns_at hn2 h2 hcol
      rw [gatherColumns_other hn1 _ _ _ (hdis2 c h2)]
      exact hat
  have hnext : ∀ m ∈ g.skip, m.From (row + 1) (walkVec rd g row s.curVec) :=
    fun m hm => (hwalk m hm).mono (Nat.le_succ row)
  unfold foldRow live
  dsimp only
  rw [hsame]
  cases hskip : vecSkipped rd g (walkVec rd g row 0) with
  | true =>
    rw [if_pos rfl]
    exact ⟨⟨hconsumed true, hnext⟩, by simp⟩
  | false =>
    rw [if_neg (by simp)]
    cases hdel : dvRowDeleted g.deleteMask row with
    | true =>
      rw [if_pos rfl]
      exact ⟨⟨hconsumed false, hnext⟩, by simp⟩
    | false =>
      rw [if_neg (by simp)]
      have hread1 : ∀ c ∈ phase1,
          (gatherColumns rd g phase1 row false s.slots c).read = cell rd g c row := by
        intro c h1
        have hc := mem_append_left deferred h1
        obtain ⟨hwanted, hsome⟩ := hcomplete c hc
        obtain ⟨col, hcol⟩ := Option.isSome_iff_exists.mp hsome
        exact gatherColumns_read hn1 h1 hwanted hcol (hs.at_row c hc col hcol)
      rw [hkeys _ hread1]
      cases pass with
      | false =>
        rw [if_neg (by simp)]
        exact ⟨⟨hconsumed false, hnext⟩, by simp⟩
      | true =>
        -- the deferred columns are fetched now
        have hread : ∀ c ∈ phase1 ++ deferred, (gatherColumns rd g deferred row false
              (gatherColumns rd g phase1 row false s.slots) c).read = cell rd g c row := by
          intro c hc
          rcases mem_append.mp hc with h1 | h2
          · rw [gatherColumns_other hn2 _ _ _ (hdis1 c h1)]
            exact hread1 c h1
          · obtain ⟨hwanted, hsome⟩ := hcomplete c hc
            obtain ⟨col, hcol⟩ := Option.isSome_iff_exists.mp hsome
            apply gatherColumns_read hn2 h2 hwanted hcol
            rw [gatherColumns_other hn1 _ _ _ (hdis2 c h2)]
            exact hs.at_row c hc col hcol
        rw [if_pos rfl, hemit _ hread]
        refine ⟨⟨?_, hnext⟩, by simp⟩
        intro c hc col hcol
        have hat := hs.at_row c hc col hcol
        dsimp only
        rcases mem_append.mp hc with h1 | h2
        · rw [gatherColumns_other hn2 _ _ _ (hdis1 c h1)]
          exact gatherColumns_at hn1 false h1 hcol hat
        · apply gatherColumns_at hn2 false h2 hcol
          rw [gatherColumns_other hn1 _ _ _ (hdis2 c h2)]
          exact hat

/-- **A group**: the rows that are read and pass the keys are passed on, in order. -/
theorem foldRows_calls {ε : Type} {keys : List ScanKey}
    {emit : (ℕ → Slot) → ε} {out : ℕ → ε} {pass : ℕ → Bool}
    (hnodup : (phase1 ++ deferred).Nodup) (hcomplete : Complete g (phase1 ++ deferred))
    (hkeys : ∀ row, ∀ slots : ℕ → Slot, (∀ c ∈ phase1, (slots c).read = cell rd g c row) →
      keysPass sc keys (slotEnv slots) = pass row)
    (hemit : ∀ row, ∀ slots : ℕ → Slot,
      (∀ c ∈ phase1 ++ deferred, (slots c).read = cell rd g c row) → emit slots = out row)
    (s : FoldState ε) :
    (foldRows sc rd g keys phase1 deferred emit s).calls =
      s.calls ++ ((List.range g.rowCount).filter fun row => live rd g row && pass row).map out := by
  have hrun : ∀ n, FoldInv (g := g) (phase1 ++ deferred) n
      ((List.range n).foldl (foldRow sc rd g keys phase1 deferred emit)
        { s with slots := fun c => { s.slots c with present := 0 }, curVec := 0 }) ∧
      ((List.range n).foldl (foldRow sc rd g keys phase1 deferred emit)
        { s with slots := fun c => { s.slots c with present := 0 }, curVec := 0 }).calls =
        s.calls ++ ((List.range n).filter fun row => live rd g row && pass row).map out := by
    intro n
    induction n with
    | zero =>
      refine ⟨⟨?_, fun m _ => SkipMap.From.zero m 0⟩, by simp⟩
      intro c _ col _
      simp [Slot.At, Column.rank]
    | succ n ih =>
      obtain ⟨hinv, hcalls⟩ := ih
      obtain ⟨hinv', hcalls'⟩ := foldRow_spec hnodup hcomplete (hkeys n) (hemit n) hinv
      rw [range_succ, foldl_append, foldl_cons, foldl_nil]
      refine ⟨hinv', ?_⟩
      rw [hcalls', hcalls, filter_append, map_append, append_assoc]
      congr 2
      cases hp : live rd g n && pass n <;> simp [hp]
  exact (hrun g.rowCount).2

/-! ### The nodes -/

/-- The columns an expression reads, by attribute number. -/
def Node.attnos (scanrelid : ℕ) : Node → List ℤ
  | .var v => if v.varno = scanrelid then [v.varattno] else []
  | .const _ => []
  | .relabel arg _ => arg.attnos scanrelid
  | .other _ attnos _ => attnos

def Clause.attnos (scanrelid : ℕ) : Clause → List ℤ
  | .opExpr e => e.args.flatMap (Node.attnos scanrelid)
  | .scalarArrayOp e => e.args.flatMap (Node.attnos scanrelid)
  | .other attnos _ => attnos

/-- An aggregate scan: its aggregates, its filter, the expressions it groups by, if any, and
the join that it folds, if any. -/
structure AggScan where
  scan : Scan
  haveInt128 : Bool
  specs : List AggSpec
  quals : List Clause
  groupKeys : List Node
  joinFactAttno : ℤ
  joinLookup : Datum → Bool
  missing : ℕ → Option Datum
  decodeValue : Attribute → List Byte → Option (Datum × ℕ)
  isPartial : Bool
  parallelAware : Bool
  parallelCounter : Bool
  spec_attidx : ∀ spec ∈ specs, ∀ c ∈ spec.attidx, c < scan.tupdesc.length

namespace AggScan

/-- The set of columns that the node projects, built when it begins. -/
def projected (a : AggScan) : List ℕ :=
  let attnos := a.groupKeys.flatMap (Node.attnos a.scan.scanrelid) ++
    a.quals.flatMap (Clause.attnos a.scan.scanrelid)
  let cols : List ℕ := (List.range a.scan.tupdesc.length).filter fun c =>
    decide ((c : ℤ) + 1 ∈ attnos) || a.specs.any (fun spec => decide (spec.attidx = some c)) ||
      decide (a.joinFactAttno = c + 1)
  if cols = [] then [0] else cols

abbrev reader (a : AggScan) : Reader :=
  { a with
    tupdesc := a.scan.tupdesc
    colWanted c := decide (c ∈ a.projected) }

/-- The row groups that the reader loads, given the scan keys: it leaves out the groups that
the zone maps rule out, and those that another worker has claimed. -/
structure Storage (a : AggScan) where
  load : List ScanKey → List (LoadedGroup a.scan.tupdesc)
  projected : ∀ keys, ∀ g ∈ load keys, ∀ c, c ∉ a.projected → g.column c = none

variable (a : AggScan) (st : Storage a)

/-- The filter and the group keys see the projected columns. -/
def baseEnv (row : Row) : Env := fun attno =>
  if attno < 1 then none
  else if (attno - 1).toNat ∈ a.projected then row.getD (attno - 1).toNat none else none

/-- The values of a row for `pgcolumnar_apply_one`, of each aggregate. -/
def applied (value : ℕ → Option Datum) : List (Option Datum) :=
  a.specs.map fun spec => spec.attidx.bind value

/-- The rows that `PgColumnarReadNextRow` returns. -/
def scanRows : Option (List Row) :=
  ((st.load (buildScanKeys a.scan a.quals)).mapM fun g =>
    groupRows a.reader g (RowState.start a.reader)).map List.flatten

/-- A row has a partner in the join that is folded. -/
def joins (row : Row) : Bool :=
  if 0 < a.joinFactAttno
    then ((row.getD (a.joinFactAttno - 1).toNat none).map a.joinLookup).getD false
  else true

/-- The row loop of `pgcolumnar_native_scan_agg`. -/
def nativeRowPath : Option (List (List (Option Datum))) :=
  (scanRows a st).map fun rows =>
    (rows.filter fun row => execQual a.scan a.quals (a.baseEnv row) && a.joins row).map fun row =>
      a.applied fun c => row.getD c none

/-- The row loop of `pgcolumnar_groupagg_build`: with every row the keys of its group. -/
def groupaggRowPath : Option (List (List (Option Datum) × List (Option Datum))) :=
  (scanRows a st).map fun rows =>
    (rows.filter fun row => execQual a.scan a.quals (a.baseEnv row)).map fun row =>
      (a.groupKeys.map (Node.value a.scan (a.baseEnv row)), a.applied fun c => row.getD c none)

/-- Why a fold does not finish: it leaves the scan to the row path, or raises an error. -/
inductive Stop where
  | decline
  | error
  deriving DecidableEq

def neededCols : List ℕ := (List.range a.scan.tupdesc.length).filter (· ∈ a.projected)

/-- The column is read by a scan key. -/
def isKey (keys : List ScanKey) (c : ℕ) : Bool := keys.any fun key => decide (key.attno = c + 1)

def keyCols (keys : List ScanKey) : List ℕ := a.neededCols.filter (isKey keys)

def payloadCols (keys : List ScanKey) : List ℕ := a.neededCols.filter fun c => !isKey keys c

def startState {ε : Type} : FoldState ε := ⟨fun _ => ⟨0, 0, false⟩, 0, 0, 0, []⟩

/-- The tests before the rows of a group: that a skip can be honoured, and that the group has
every column. -/
def groupStop (g : LoadedGroup a.scan.tupdesc) (partialScan : Bool) : Option Stop :=
  if g.decodeSkipped && g.skip.isNone then some .error
  else if a.neededCols.any fun c => (g.column c).isNone then
    some (if partialScan then .error else .decline)
  else none

/-- The payload of a group is deferred until half of the rows so far have passed. -/
def deferOn {ε : Type} (keys : List ScanKey) (s : FoldState ε) : Bool :=
  decide (a.payloadCols keys ≠ [] ∧ (s.candRows = 0 ∨ s.survRows * 2 ≤ s.candRows))

/-- One group of `pgcolumnar_native_batch_fold`. -/
def nativeFoldGroup (keys : List ScanKey) (s : FoldState (List (Option Datum)))
    (g : LoadedGroup a.scan.tupdesc) : Except Stop (FoldState (List (Option Datum))) :=
  match groupStop a g a.isPartial with
  | some stop => .error stop
  | none =>
    let phase1 := if a.deferOn keys s then a.keyCols keys else a.keyCols keys ++ a.payloadCols keys
    let deferred := if a.deferOn keys s then a.payloadCols keys else []
    .ok (foldRows a.scan a.reader g keys phase1 deferred
      (fun slots => a.applied fun c => (slots c).read) s)

/-- `pgcolumnar_native_batch_fold` -/
def nativeBatchFold : Except Stop (List (List (Option Datum))) :=
  if 0 < a.joinFactAttno then .error .decline
  else
    match batchGatesOk a.scan a.haveInt128 a.specs a.quals a.projected with
    | none => .error .decline
    | some keys =>
      if a.isPartial && !a.parallelCounter then .error .error
      else ((st.load keys).foldlM (nativeFoldGroup a keys) startState).map (·.calls)

/-- The column of a group key that is a plain column. -/
def keyAttidx (n : Node) : Option ℕ :=
  match n with
  | .var v =>
    if v.varno = a.scan.scanrelid ∧ 1 ≤ v.varattno ∧ v.varattno ≤ a.scan.tupdesc.length then
      some (v.varattno - 1).toNat
    else none
  | _ => none

/-- `pgcolumnar_groupagg_batch_eligible` -/
def groupaggBatchEligible : Option (List ScanKey) :=
  if a.groupKeys ≠ [] ∧ ∀ n ∈ a.groupKeys, (a.keyAttidx n).any (· ∈ a.projected) = true then
    batchGatesOk a.scan a.haveInt128 a.specs a.quals a.projected
  else none

/-- One group of `pgcolumnar_groupagg_batch_fold`. -/
def groupaggFoldGroup (keys : List ScanKey)
    (s : FoldState (List (Option Datum) × List (Option Datum))) (g : LoadedGroup a.scan.tupdesc) :
    Except Stop (FoldState (List (Option Datum) × List (Option Datum))) :=
  match groupStop a g (a.isPartial && a.parallelAware) with
  | some stop => .error stop
  | none =>
    .ok (foldRows a.scan a.reader g keys a.neededCols []
      (fun slots => (a.groupKeys.map fun n => (a.keyAttidx n).bind fun c => (slots c).read,
        a.applied fun c => (slots c).read)) s)

/-- `pgcolumnar_groupagg_batch_fold` -/
def groupaggBatchFold : Except Stop (List (List (Option Datum) × List (Option Datum))) :=
  match a.groupaggBatchEligible with
  | none => .error .decline
  | some keys =>
    if (a.isPartial && a.parallelAware) && !a.parallelCounter then .error .error
    else ((st.load keys).foldlM (groupaggFoldGroup a keys) startState).map (·.calls)

variable {a st}

/-! ### The needed columns -/

variable {c : ℕ}

theorem mem_projected (hc : c < a.scan.tupdesc.length)
    (h : (c : ℤ) + 1 ∈ a.groupKeys.flatMap (Node.attnos a.scan.scanrelid) ++
        a.quals.flatMap (Clause.attnos a.scan.scanrelid) ∨ ∃ spec ∈ a.specs, spec.attidx = some c) :
    c ∈ a.projected := by
  have htest : (decide ((c : ℤ) + 1 ∈ a.groupKeys.flatMap (Node.attnos a.scan.scanrelid) ++
      a.quals.flatMap (Clause.attnos a.scan.scanrelid)) ||
      a.specs.any (fun spec => decide (spec.attidx = some c)) ||
      decide (a.joinFactAttno = c + 1)) = true := by
    rcases h with h | ⟨spec, hspec, hatt⟩
    · rw [decide_eq_true h]
      rfl
    · rw [any_eq_true.mpr ⟨spec, hspec, decide_eq_true hatt⟩, Bool.or_true, Bool.true_or]
  unfold projected
  dsimp only
  split
  · next hnil => exact absurd htest (filter_eq_nil_iff.mp hnil c (mem_range.mpr hc))
  · exact mem_filter.mpr ⟨mem_range.mpr hc, htest⟩

theorem mem_neededCols : c ∈ a.neededCols ↔ c < a.scan.tupdesc.length ∧ c ∈ a.projected := by
  simp [neededCols]

theorem nodup_neededCols : a.neededCols.Nodup := nodup_range.filter _

theorem spec_mem_neededCols {spec : AggSpec} (hspec : spec ∈ a.specs)
    (hc : spec.attidx = some c) : c ∈ a.neededCols := by
  have hlt := a.spec_attidx spec hspec c hc
  exact mem_neededCols.mpr ⟨hlt, mem_projected hlt (.inr ⟨spec, hspec, hc⟩)⟩

theorem attOf_eq_some {sc : Scan} {attno : ℤ} {att : Attribute} (h : attOf sc attno = some att) :
    attno = ((attno - 1).toNat : ℤ) + 1 ∧ (attno - 1).toNat < sc.tupdesc.length := by
  unfold attOf at h
  split_ifs at h
  exact ⟨by omega, (List.getElem?_eq_some_iff.mp h).1⟩

theorem attnos_stripRelabel (scanrelid : ℕ) (n : Node) :
    n.stripRelabel.attnos scanrelid = n.attnos scanrelid := by
  cases n <;> rfl

variable {keys : List ScanKey}

/-- Every key is about a column that the fold gathers. -/
theorem key_mem_neededCols
    (hgate : batchGatesOk a.scan a.haveInt128 a.specs a.quals a.projected = some keys)
    {key : ScanKey} (hkey : key ∈ keys) : ∃ c ∈ a.neededCols, key.attno = (c : ℤ) + 1 := by
  obtain ⟨rfl, hquals, -, -⟩ := batchGatesOk_eq_some hgate
  obtain ⟨clause, hclause, hmem⟩ := mem_flatMap.mp hkey
  obtain ⟨e, l, r, v, k, varOnLeft, att, key', rfl, hargs, hops, hbtree, hkeys⟩ :=
    clauseToScankey_exact (hquals clause hclause).2
  obtain ⟨hvc, hvarno, hatt, -⟩ := scanOperands_eq_some hops
  obtain ⟨-, rfl⟩ := btreeScankey_eq_some hbtree
  rw [hkeys, mem_singleton] at hmem
  obtain ⟨hattno, hlt⟩ := attOf_eq_some hatt
  refine ⟨(v.varattno - 1).toNat, mem_neededCols.mpr ⟨hlt, mem_projected hlt (.inl ?_)⟩, ?_⟩
  · -- the column stands in the clause
    have hvar : v.varattno ∈ (Node.var v).attnos a.scan.scanrelid := by
      rw [Node.attnos, if_pos hvarno]
      exact mem_singleton_self _
    apply mem_append_right
    rw [← hattno]
    refine mem_flatMap.mpr ⟨_, hclause, mem_flatMap.mpr ?_⟩
    rcases varConst_eq_some hvc with ⟨hl, -, -⟩ | ⟨-, hr, -⟩
    · exact ⟨l, by rw [hargs]; simp, by rw [← attnos_stripRelabel, hl]; exact hvar⟩
    · exact ⟨r, by rw [hargs]; simp, by rw [← attnos_stripRelabel, hr]; exact hvar⟩
  · rw [hmem]
    exact hattno

/-- What the row holds, by attribute number. -/
def cellEnv (a : AggScan) (g : LoadedGroup a.scan.tupdesc) (row : ℕ) : Env := fun attno =>
  if attno < 1 then none else cell a.reader g (attno - 1).toNat row

theorem keysPass_congr {sc : Scan} {env env' : Env}
    (h : ∀ key ∈ keys, env key.attno = env' key.attno) :
    keysPass sc keys env = keysPass sc keys env' := by
  unfold keysPass
  rw [Bool.eq_iff_iff, all_eq_true, all_eq_true]
  constructor
  · intro hall key hkey
    rw [← h key hkey]
    exact hall key hkey
  · intro hall key hkey
    rw [h key hkey]
    exact hall key hkey

variable {g : LoadedGroup a.scan.tupdesc}

theorem getD_rowAt (hc : c < a.scan.tupdesc.length) (row : ℕ) :
    (rowAt a.reader g row).getD c none = cell a.reader g c row := by
  unfold rowAt
  rw [getD_eq_getElem?_getD, getElem?_map]
  rw [show (List.range a.reader.tupdesc.length)[c]? = some c from getElem?_range hc]
  rfl

theorem baseEnv_rowAt (hc : c ∈ a.neededCols) (row : ℕ) :
    a.baseEnv (rowAt a.reader g row) ((c : ℤ) + 1) = cellEnv a g row ((c : ℤ) + 1) := by
  obtain ⟨hlt, hproj⟩ := mem_neededCols.mp hc
  have hpos : ¬((c : ℤ) + 1 < 1) := by omega
  have hidx : ((c : ℤ) + 1 - 1).toNat = c := by omega
  unfold baseEnv cellEnv
  simp only [hpos, if_false, hidx, if_pos hproj]
  exact getD_rowAt hlt row

theorem slotEnv_read {slots : ℕ → Slot} {row : ℕ} (h : (slots c).read = cell a.reader g c row) :
    slotEnv slots ((c : ℤ) + 1) = cellEnv a g row ((c : ℤ) + 1) := by
  have hpos : ¬((c : ℤ) + 1 < 1) := by omega
  have hidx : ((c : ℤ) + 1 - 1).toNat = c := by omega
  unfold slotEnv cellEnv
  simp only [hpos, if_false, hidx]
  exact h

/-- The values that the aggregates are given, of a row of the row path and of a fold. -/
theorem applied_congr {value value' : ℕ → Option Datum}
    (h : ∀ c ∈ a.neededCols, value c = value' c) : a.applied value = a.applied value' := by
  unfold applied
  apply map_congr_left
  intro spec hspec
  cases hatt : spec.attidx with
  | none => rfl
  | some c => exact h c (spec_mem_neededCols hspec hatt)

/-! ### Groups and scans -/

theorem groupStop_eq_none {partialScan : Bool} (h : groupStop a g partialScan = none) :
    @Complete a.reader g a.neededCols := by
  unfold groupStop at h
  split at h
  · cases h
  split at h
  · cases h
  next hany =>
  intro c hc
  refine ⟨decide_eq_true (mem_neededCols.mp hc).2, ?_⟩
  by_contra hnone
  exact hany (any_eq_true.mpr ⟨c, hc, by simpa using hnone⟩)

theorem foldlM_calls {ε γ : Type} {step : FoldState ε → γ → Except Stop (FoldState ε)}
    {calls : γ → List ε} (hstep : ∀ s x s', step s x = .ok s' → s'.calls = s.calls ++ calls x)
    {xs : List γ} {s s' : FoldState ε} (h : xs.foldlM step s = .ok s') :
    s'.calls = s.calls ++ xs.flatMap calls := by
  induction xs generalizing s with
  | nil =>
    cases h
    simp
  | cons x xs ih =>
    rw [foldlM_cons] at h
    cases hx : step s x with
    | error stop =>
      rw [hx] at h
      cases h
    | ok t =>
      rw [hx] at h
      rw [ih h, hstep s x t hx, flatMap_cons, append_assoc]

/-- The rows of a group that are read and pass the keys. -/
def passingRows (a : AggScan) (keys : List ScanKey) (g : LoadedGroup a.scan.tupdesc) : List ℕ :=
  (List.range g.rowCount).filter fun row =>
    live a.reader g row && keysPass a.scan keys (cellEnv a g row)

/-- A group of the fold without groups, whether it defers its payload or not. -/
theorem nativeFoldGroup_calls
    (hgate : batchGatesOk a.scan a.haveInt128 a.specs a.quals a.projected = some keys)
    {s s' : FoldState (List (Option Datum))} (h : nativeFoldGroup a keys s g = .ok s') :
    s'.calls = s.calls ++ (passingRows a keys g).map fun row =>
      a.applied fun c => cell a.reader g c row := by
  unfold nativeFoldGroup at h
  split at h
  · cases h
  next hstop =>
  cases h
  have hcomplete := groupStop_eq_none hstop
  have hperm : (a.keyCols keys ++ a.payloadCols keys).Perm a.neededCols := by
    unfold keyCols payloadCols
    exact filter_append_perm _ _
  -- the two lists of columns make up the needed ones in either case
  have hcols : ∀ defer : Bool, ((if defer then a.keyCols keys else
      a.keyCols keys ++ a.payloadCols keys) ++
      (if defer then a.payloadCols keys else [])).Perm a.neededCols := by
    intro defer
    cases defer
    · simpa using hperm
    · exact hperm
  have hphase1 : ∀ defer : Bool, ∀ c ∈ a.keyCols keys,
      c ∈ if defer then a.keyCols keys else a.keyCols keys ++ a.payloadCols keys := by
    intro defer c hc
    cases defer
    · exact mem_append_left _ hc
    · exact hc
  apply foldRows_calls ((hcols _).nodup_iff.mpr nodup_neededCols)
  · intro c hc
    exact hcomplete c ((hcols _).mem_iff.mp hc)
  · intro row slots hread
    apply keysPass_congr
    intro key hkey
    obtain ⟨c, hc, hattno⟩ := key_mem_neededCols hgate hkey
    have hkeyCol : c ∈ a.keyCols keys := mem_filter.mpr
      ⟨hc, any_eq_true.mpr ⟨key, hkey, decide_eq_true hattno⟩⟩
    rw [hattno]
    exact slotEnv_read (hread c (hphase1 _ c hkeyCol))
  · intro row slots hread
    exact applied_congr fun c hc => hread c ((hcols _).mem_iff.mpr hc)

/-- A group key that is a plain column has the value of the column. -/
theorem keyAttidx_value {n : Node} (hkey : a.keyAttidx n = some c)
    (hproj : c ∈ a.projected) (row : ℕ) :
    c ∈ a.neededCols ∧
      n.value a.scan (a.baseEnv (rowAt a.reader g row)) = cell a.reader g c row := by
  unfold keyAttidx at hkey
  split at hkey
  swap
  · cases hkey
  next v =>
  split at hkey
  swap
  · cases hkey
  next hvar =>
  obtain ⟨hvarno, hpos, hle⟩ := hvar
  have hc : c = (v.varattno - 1).toNat := (Option.some.inj hkey).symm
  have hattno : v.varattno = (c : ℤ) + 1 := by omega
  have hneeded : c ∈ a.neededCols := mem_neededCols.mpr ⟨by omega, hproj⟩
  refine ⟨hneeded, ?_⟩
  rw [Node.value, if_pos hvarno, hattno, baseEnv_rowAt hneeded]
  have hone : ¬((c : ℤ) + 1 < 1) := by omega
  have hidx : ((c : ℤ) + 1 - 1).toNat = c := by omega
  unfold cellEnv
  simp only [hone, if_false, hidx]

/-- The keys of the group of a row and the values of the aggregates. -/
def groupOut (a : AggScan) (g : LoadedGroup a.scan.tupdesc) (row : ℕ) :
    List (Option Datum) × List (Option Datum) :=
  (a.groupKeys.map (Node.value a.scan (a.baseEnv (rowAt a.reader g row))),
    a.applied fun c => cell a.reader g c row)

theorem groupaggFoldGroup_calls (helig : a.groupaggBatchEligible = some keys)
    {s s' : FoldState (List (Option Datum) × List (Option Datum))}
    (h : groupaggFoldGroup a keys s g = .ok s') :
    s'.calls = s.calls ++ (passingRows a keys g).map (groupOut a g) := by
  unfold groupaggBatchEligible at helig
  split at helig
  swap
  · cases helig
  next hplain =>
  unfold groupaggFoldGroup at h
  split at h
  · cases h
  next hstop =>
  cases h
  have hcomplete := groupStop_eq_none hstop
  rw [← append_nil a.neededCols] at hcomplete
  apply foldRows_calls (by rw [append_nil]; exact nodup_neededCols) hcomplete
  · intro row slots hread
    apply keysPass_congr
    intro key hkey
    obtain ⟨c, hc, hattno⟩ := key_mem_neededCols helig hkey
    rw [hattno]
    exact slotEnv_read (hread c hc)
  · intro row slots hread
    rw [append_nil] at hread
    refine Prod.ext ?_ (applied_congr hread)
    apply map_congr_left
    intro n hn
    obtain ⟨c, hkey, hproj⟩ := (Option.any_eq_true _ _).mp (hplain.2 n hn)
    obtain ⟨hneeded, hvalue⟩ := keyAttidx_value (g := g) hkey (of_decide_eq_true hproj) row
    rw [hkey, Option.bind_some, hread c hneeded, hvalue]

/-! ### The row path -/

theorem scanRows_eq
    (hgate : batchGatesOk a.scan a.haveInt128 a.specs a.quals a.projected = some keys) :
    scanRows a st = some ((st.load keys).flatMap fun g =>
      ((List.range g.rowCount).filter (live a.reader g)).map (rowAt a.reader g)) := by
  obtain ⟨rfl, -, -, hbyval⟩ := batchGatesOk_eq_some hgate
  have hgroup : ∀ g ∈ st.load (buildScanKeys a.scan a.quals),
      groupRows a.reader g (RowState.start a.reader) =
        some (((List.range g.rowCount).filter (live a.reader g)).map (rowAt a.reader g)) := by
    intro g hg
    have hval : a.reader.ByValue := fun c att hc hatt =>
      hbyval c (of_decide_eq_true hc) att hatt
    have hproj : @LoadedGroup.Projected a.reader g := fun c hc =>
      st.projected _ g hg c (of_decide_eq_false hc)
    rw [groupRows_eq hval hproj _ RowInv.start, range_eq_range']
    rfl
  unfold scanRows
  rw [mapM_eq_some_map hgroup, Option.map_some, flatMap_def]

/-- The filter of the row path keeps the rows that pass the keys. -/
theorem filter_rows (hcat : a.scan.cat.NumericFamilies) (hwt : ∀ c ∈ a.quals, c.WellTyped a.scan)
    (hgate : batchGatesOk a.scan a.haveInt128 a.specs a.quals a.projected = some keys) :
    (((List.range g.rowCount).filter (live a.reader g)).map (rowAt a.reader g)).filter
        (fun row => execQual a.scan a.quals (a.baseEnv row)) =
      (passingRows a keys g).map (rowAt a.reader g) := by
  rw [filter_map, filter_filter]
  unfold passingRows
  congr 2
  funext row
  rw [comp_apply, execQual_eq_keysPass hcat hwt hgate, Bool.and_comm]
  congr 1
  apply keysPass_congr
  intro key hkey
  obtain ⟨c, hc, hattno⟩ := key_mem_neededCols hgate hkey
  rw [hattno]
  exact baseEnv_rowAt hc row

theorem applied_rowAt (row : ℕ) : (a.applied fun c => (rowAt a.reader g row).getD c none) =
      a.applied fun c => cell a.reader g c row :=
  applied_congr fun _ hc => getD_rowAt (mem_neededCols.mp hc).1 row

/-! ### The fold and the row path -/

theorem map_eq_ok {ε β γ : Type} {f : β → γ} {x : Except ε β} {y : γ} (h : x.map f = .ok y) :
    ∃ s, x = .ok s ∧ f s = y := by
  cases x with
  | error e => cases h
  | ok s => exact ⟨s, rfl, Except.ok.inj h⟩

theorem nativeBatchFold_eq (hcat : a.scan.cat.NumericFamilies)
    (hwt : ∀ c ∈ a.quals, c.WellTyped a.scan) {calls : List (List (Option Datum))}
    (h : nativeBatchFold a st = .ok calls) : nativeRowPath a st = some calls := by
  unfold nativeBatchFold at h
  split at h
  · cases h
  next hjoin =>
  split at h
  · cases h
  next keys hgate =>
  split at h
  · cases h
  obtain ⟨s, hs, rfl⟩ := map_eq_ok h
  have hcalls := foldlM_calls (fun s g s' hstep => nativeFoldGroup_calls hgate hstep) hs
  unfold nativeRowPath
  rw [scanRows_eq hgate, Option.map_some, hcalls]
  have hjoins : ∀ row, a.joins row = true := fun row => if_neg hjoin
  simp only [hjoins, Bool.and_true]
  rw [filter_flatMap, map_flatMap]
  simp only [filter_rows hcat hwt hgate, map_map, comp_def, applied_rowAt]
  rfl

theorem groupaggBatchFold_eq (hcat : a.scan.cat.NumericFamilies)
    (hwt : ∀ c ∈ a.quals, c.WellTyped a.scan)
    {calls : List (List (Option Datum) × List (Option Datum))}
    (h : groupaggBatchFold a st = .ok calls) : groupaggRowPath a st = some calls := by
  unfold groupaggBatchFold at h
  split at h
  · cases h
  next keys helig =>
  split at h
  · cases h
  have hgate := helig
  unfold groupaggBatchEligible at hgate
  split at hgate
  swap
  · cases hgate
  obtain ⟨s, hs, rfl⟩ := map_eq_ok h
  have hcalls := foldlM_calls (fun s g s' hstep => groupaggFoldGroup_calls helig hstep) hs
  unfold groupaggRowPath
  rw [scanRows_eq hgate, Option.map_some, hcalls, filter_flatMap, map_flatMap]
  simp only [filter_rows hcat hwt hgate, map_map, comp_def, applied_rowAt]
  rfl

/-- Every group has every needed column. -/
def StorageComplete (st : Storage a) (keys : List ScanKey) : Prop :=
  ∀ g ∈ st.load keys, ∀ c ∈ a.neededCols, (g.column c).isSome = true

theorem groupStop_of_complete (hcols : ∀ c ∈ a.neededCols, (g.column c).isSome = true)
    (partialScan : Bool) : groupStop a g partialScan = none := by
  have hskip : (g.decodeSkipped && g.skip.isNone) = false := by
    cases hdec : g.decodeSkipped with
    | false => rfl
    | true =>
      have hsome := g.skip_of_decodeSkipped hdec
      rw [Bool.true_and, ← Option.not_isSome, hsome]
      rfl
  have hany : (a.neededCols.any fun c => (g.column c).isNone) = false := by
    rw [any_eq_false]
    intro c hc hnone
    have hsome := hcols c hc
    rw [Option.isNone_iff_eq_none.mp hnone] at hsome
    cases hsome
  unfold groupStop
  rw [hskip, hany]
  rfl

theorem foldlM_ok {ε γ : Type} {step : FoldState ε → γ → Except Stop (FoldState ε)} {xs : List γ}
    (hstep : ∀ x ∈ xs, ∀ s, ∃ s', step s x = .ok s') (s : FoldState ε) :
    ∃ s', xs.foldlM step s = .ok s' := by
  induction xs generalizing s with
  | nil => exact ⟨s, rfl⟩
  | cons x xs ih =>
    obtain ⟨t, ht⟩ := hstep x mem_cons_self s
    obtain ⟨s', hs'⟩ := ih (fun y hy => hstep y (mem_cons_of_mem _ hy)) t
    exact ⟨s', by rw [foldlM_cons, ht]; exact hs'⟩

/-- The fold is only left for a column that a group does not have. -/
theorem nativeBatchFold_ok
    (hgate : batchGatesOk a.scan a.haveInt128 a.specs a.quals a.projected = some keys)
    (hjoin : a.joinFactAttno ≤ 0) (hcounter : a.isPartial = true → a.parallelCounter = true)
    (hcols : StorageComplete st keys) : ∃ calls, nativeBatchFold a st = .ok calls := by
  obtain ⟨s, hs⟩ : ∃ s, (st.load keys).foldlM (nativeFoldGroup a keys) startState = .ok s := by
    apply foldlM_ok
    intro g hg s
    unfold nativeFoldGroup
    rw [groupStop_of_complete (hcols g hg)]
    exact ⟨_, rfl⟩
  have hcount : (a.isPartial && !a.parallelCounter) = false := by
    cases hp : a.isPartial with
    | false => rfl
    | true => rw [hcounter hp]; rfl
  refine ⟨s.calls, ?_⟩
  unfold nativeBatchFold
  rw [if_neg (not_lt.mpr hjoin), hgate]
  simp only [hcount, Bool.false_eq_true, if_false, hs]
  rfl

theorem groupaggBatchFold_ok (helig : a.groupaggBatchEligible = some keys)
    (hcounter : a.isPartial = true → a.parallelCounter = true) (hcols : StorageComplete st keys) :
    ∃ calls, groupaggBatchFold a st = .ok calls := by
  obtain ⟨s, hs⟩ : ∃ s, (st.load keys).foldlM (groupaggFoldGroup a keys) startState = .ok s := by
    apply foldlM_ok
    intro g hg s
    unfold groupaggFoldGroup
    rw [groupStop_of_complete (hcols g hg)]
    exact ⟨_, rfl⟩
  have hcount : ((a.isPartial && a.parallelAware) && !a.parallelCounter) = false := by
    cases hp : a.isPartial with
    | false => rfl
    | true => rw [hcounter hp, Bool.not_true, Bool.and_false]
  refine ⟨s.calls, ?_⟩
  unfold groupaggBatchFold
  rw [helig]
  simp only [hcount, Bool.false_eq_true, if_false, hs]
  rfl

/-- **The batch folds and the row path.**  Behind the gate a row satisfies the filter if and
only if it passes every scan key, and a fold that finishes has folded the rows of the row
path, in order and with their values.  It finishes if the groups have the columns. -/
theorem batchFold_eq_rowPath (a : AggScan) (st : Storage a) (hcat : a.scan.cat.NumericFamilies)
    (hwt : ∀ c ∈ a.quals, c.WellTyped a.scan) {keys : List ScanKey}
    (hgate : batchGatesOk a.scan a.haveInt128 a.specs a.quals a.projected = some keys) :
    (∀ env, execQual a.scan a.quals env = keysPass a.scan keys env) ∧
      (∀ calls, nativeBatchFold a st = .ok calls → nativeRowPath a st = some calls) ∧
      (∀ calls, groupaggBatchFold a st = .ok calls → groupaggRowPath a st = some calls) ∧
      ((a.isPartial = true → a.parallelCounter = true) → StorageComplete st keys →
        (a.joinFactAttno ≤ 0 → ∃ calls, nativeBatchFold a st = .ok calls) ∧
        (a.groupaggBatchEligible = some keys → ∃ calls, groupaggBatchFold a st = .ok calls)) := by
  refine ⟨execQual_eq_keysPass hcat hwt hgate, fun calls => nativeBatchFold_eq hcat hwt,
    fun calls => groupaggBatchFold_eq hcat hwt, ?_⟩
  intro hcounter hcols
  exact ⟨fun hjoin => nativeBatchFold_ok hgate hjoin hcounter hcols,
    fun helig => groupaggBatchFold_ok helig hcounter hcols⟩

/-- A catalog in which `<` of the four-byte integers is the one operator. -/
def int4Catalog : Catalog where
  opcode op := if op = 97 then 66 else 0
  funcStrict _ := true
  call _ _
    | [some x, some y] => some (if intOf 32 x < intOf 32 y then 1 else 0)
    | _ => none
  scalarArray _ _ := none
  btreeOpfamily typ := if typ = INT4OID then 1976 else 0
  gistOpfamily _ := 0
  opFamilyStrategy op family := if op = 97 ∧ family = 1976 then 1 else 0
  typeIsRange _ := false
  rngelemtype _ := 0
  opInputTypes _ := (INT4OID, INT4OID)
  binaryCoercible s t := decide (s = t)

theorem numericFamilies_int4Catalog : int4Catalog.NumericFamilies where
  compares typ op _ hstrat htypes coll x y := by
    obtain ⟨rfl, -⟩ : op = 97 ∧ int4Catalog.btreeOpfamily typ = 1976 := by
      by_contra hno
      exact hstrat (if_neg hno)
    obtain rfl : INT4OID = typ := congrArg Prod.fst htypes
    show passes (some (if intOf 32 x < intOf 32 y then 1 else 0)) =
      decide (intOf 32 x - intOf 32 y < 0)
    by_cases hlt : intOf 32 x < intOf 32 y
    · rw [if_pos hlt, decide_eq_true (sub_neg.mpr hlt)]
      rfl
    · rw [if_neg hlt, decide_eq_false (fun h => hlt (sub_neg.mp h))]
      rfl
  relabel_eq typ result op _ _ hcoerce _ := (of_decide_eq_true hcoerce).symm

/-- The sum of the second column over the rows with the first one less than five. -/
def sumBelowFive : AggScan where
  scan := ⟨int4Catalog, ⟨fun _ => [], fun _ => [], fun _ => []⟩, 1,
    [⟨INT4OID, 0, true, 4⟩, ⟨INT4OID, 0, true, 4⟩]⟩
  haveInt128 := true
  specs := [⟨.countStar, none⟩, ⟨.sumInt, some 1⟩]
  quals := [.opExpr ⟨97, BOOLOID, 0, [.var ⟨1, 1, INT4OID⟩, .const ⟨INT4OID, 0, 5, false⟩]⟩]
  groupKeys := []
  joinFactAttno := 0
  joinLookup _ := false
  missing _ := none
  decodeValue _ _ := none
  isPartial := false
  parallelAware := false
  parallelCounter := false
  spec_attidx := by decide

/-- Of five rows the first is in a vector that was ruled out, the second has no key, the fourth is
deleted and the last has the key nine. -/
def skippingGroup : LoadedGroup sumBelowFive.scan.tupdesc where
  rowCount := 5
  deleteMask := some [8]
  skip := some ⟨[0, 1, 5], [true, false], rfl, by
    intro v w hvw hw
    have hw : w ≤ 2 := hw
    interval_cases w <;> interval_cases v <;> decide⟩
  decodeSkipped := true
  column c := [Column.mk [29] [9, 0, 0, 0, 4, 0, 0, 0, 1, 0, 0, 0, 9, 0, 0, 0] [4, 12],
    ⟨[15], [1, 0, 0, 0, 2, 0, 0, 0, 7, 0, 0, 0, 3, 0, 0, 0], [4, 12]⟩][c]?
  skip_of_decodeSkipped _ := rfl
  packed_length c att col hatt _ hcol := by
    have hc : c < 2 := (List.getElem?_eq_some_iff.mp hatt).1
    interval_cases c <;> cases hatt <;> cases hcol <;> decide
  vecRawLen_eq m hm c att col hatt _ hcol v hv := by
    cases hm
    have hc : c < 2 := (List.getElem?_eq_some_iff.mp hatt).1
    have hv : v < 2 := hv
    interval_cases c <;> cases hatt <;> cases hcol <;> interval_cases v <;> decide

def skippingStorage : Storage sumBelowFive where
  load _ := [skippingGroup]
  projected keys g hg c hc := by
    obtain rfl := mem_singleton.mp hg
    refine getElem?_eq_none (Nat.not_lt.mp fun hlt => hc ?_)
    have hlt : c < 2 := hlt
    interval_cases c <;> decide

theorem batchFold_eq_rowPath_sumBelowFive :
    ∃ calls, nativeBatchFold sumBelowFive skippingStorage = .ok calls ∧
      nativeRowPath sumBelowFive skippingStorage = some calls := by
  have hwt : ∀ c ∈ sumBelowFive.quals, c.WellTyped sumBelowFive.scan := by
    intro c hc
    obtain rfl := mem_singleton.mp hc
    refine ⟨?_, ?_⟩
    · intro n hn
      rcases mem_cons.mp hn with rfl | hn
      · intro _ att hatt
        cases hatt
        rfl
      · obtain rfl := mem_singleton.mp hn
        show INT4OID ≠ 0
        decide
    · intro l r hargs
      cases hargs
      rfl
  have hall := batchFold_eq_rowPath sumBelowFive skippingStorage numericFamilies_int4Catalog hwt rfl
  have hcols : StorageComplete skippingStorage
      (buildScanKeys sumBelowFive.scan sumBelowFive.quals) := by
    intro g hg c hc
    obtain rfl := mem_singleton.mp hg
    have hlt : c < 2 := (mem_neededCols.mp hc).1
    interval_cases c <;> rfl
  obtain ⟨calls, hcalls⟩ := (hall.2.2.2 (by decide) hcols).1 le_rfl
  exact ⟨calls, hcalls, hall.2.1 calls hcalls⟩

end AggScan

end PgColumnar.Fold
