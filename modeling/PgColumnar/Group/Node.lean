import PgColumnar.Agg.KeySet
import PgColumnar.Fold.Group
import PgColumnar.Group.Table
import Mathlib.Data.List.Forall2

/-!
# The grouped aggregate node

`columnar_vector.c`: the node folds every row that passes the filter into the group of its
keys.  When a row would start a group past `pgcolumnar.groupagg_max_groups`, the table is
emptied first.  A serial node writes it to a sort, and in the end merges what is equal there; a
partial node writes the partial states of its groups out, for the core node above to combine.

The sort is a parameter, and so are the expressions of the keys and of the filter.

## Main definitions

* `Node.exec` — rows in, flushes, and what is emitted.
* `GroupBy` — the groups of SQL.
* `Inv`, `TableHolds` — what the state holds after some rows.

## Main results

* `addRow_eq`, `flush_eq` — one row, and a flush.
* `exec_correct_iff` — exactly when the output is right.
-/

namespace PgColumnar.Group

open Probe Grouping SortMerge List Nat

abbrev Row (δ : Type) := List (Option δ)

/-- The columns of an aggregate in a tuple of the sort: `PgcMergeFixed`, the running extreme
and the running sum. -/
structure MergeCols where
  count : BitVec 64
  sum : BitVec 64
  sawValue : Bool
  nsumSet : Bool
  i128sum : BitVec 128
  extreme : Option Datum
  nsum : Option ℤ

/-- A tuple of the sort. -/
structure MergeTuple (δ : Type) where
  keys : Row δ
  cols : List MergeCols
  seq : ℕ

/-- The comparison of the sort: by the keys, and then by the flush that wrote the tuple. -/
def compareTuples {δ : Type} (keys : List (GroupKey δ)) : MergeTuple δ → MergeTuple δ → ℤ :=
  Compare.lex (fun x y => compareKeys keys x.keys y.keys) fun x y => (x.seq : ℤ) - y.seq

/-- The state of the plan node that does not change; `attidx` is the column of an aggregate,
and `estimate` what the planner expects, over the load factor. -/
structure Node (δ : Type) where
  bits : δ → Datum
  keys : List (GroupKey δ)
  aggs : List (AggSpec × Option ℕ)
  whereQual : Row δ → Bool
  haveInt128 : Bool
  isPartial : Bool
  keysSortable : Bool
  maxGroups : ℕ
  estimate : ℕ
  sort : List (MergeTuple δ) → List (MergeTuple δ)

structure State (δ : Type) where
  table : Table δ
  flushes : ℕ
  flushed : List (Row δ × List PartialState)
  mergeSort : List (MergeTuple δ)

variable {δ : Type} (n : Node δ)

namespace Node

def merging : Bool := !n.isPartial && n.keysSortable

def keyvals (row : Row δ) : Row δ := n.keys.map fun k => k.expr row

/-- The value that an aggregate is given of a row. -/
def arg (attidx : Option ℕ) (row : Row δ) : Option Datum :=
  attidx.bind fun c => (row.getD c none).map n.bits

def isInt8 (kind : AggKind) : Bool := decide (kind = .sumInt8 ∨ kind = .avgInt8)

/-- The columns that `pgcolumnar_groupagg_merge_put_all` writes for an aggregate. -/
def mergePut (spec : AggSpec) (acc : Acc) : MergeCols :=
  { acc with
    extreme := if (spec.kind = .min ∨ spec.kind = .max) ∧
      acc.sawValue then some acc.extreme else none
    nsum := if acc.nsumSet && !(n.haveInt128 && isInt8 spec.kind) then some acc.nsum else none }

/-- `pgcolumnar_groupagg_merge_read` -/
def mergeRead (c : MergeCols) : Acc :=
  ⟨c.count, c.sum, c.i128sum, c.nsum.getD 0, c.nsumSet, c.sawValue, c.extreme.getD 0⟩

/-- A group of the table as `pgcolumnar_groupagg_merge_put_all` writes it. -/
def putEntry (flushes : ℕ) (e : Entry δ) : MergeTuple δ :=
  ⟨e.keys, List.zipWith (fun agg acc => n.mergePut agg.1 acc) n.aggs e.specs, flushes⟩

/-- A group of the table as a partial node emits it. -/
def emitEntry (e : Entry δ) : Except Failure (Row δ × List PartialState) :=
  match (n.aggs.zip e.specs).mapM fun (agg, acc) => aggEmitPartial agg.1 acc with
  | none => .error .unsupportedKind
  | some states => .ok (e.keys, states)

/-- `pgcolumnar_groupagg_flush` -/
def flush (s : State δ) : Except Failure (State δ) :=
  if n.merging then
    .ok { s with
      table := resetTable, flushes := s.flushes + 1,
      mergeSort := s.mergeSort ++ (entries s.table.slots).map (n.putEntry s.flushes) }
  else do
    let tuples ← (entries s.table.slots).mapM n.emitEntry
    .ok { s with
      table := resetTable, flushes := s.flushes + 1, flushed := s.flushed ++ tuples }

/-- The entry of a new group. -/
def newEntry (keyvals : Row δ) : Entry δ :=
  ⟨hashKeys n.bits n.keys keyvals, keyvals, n.aggs.map fun _ => .template⟩

/-- `pgcolumnar_groupagg_lookup`, with at most so many flushes: the slot of the group, and its
entry. -/
def lookupWithin : ℕ → State δ → Row δ → Except Failure (State δ × ℕ × Entry δ)
  | depth, s, keyvals => do
    let (t, o) ← probeGroup n.bits n.keys (sizeHint n.estimate n.maxGroups) s.table keyvals
    match o with
    | .hit i e => .ok ({ s with table := t }, i, e)
    | .exhausted => .error .endless
    | .empty i =>
      if n.maxGroups ≤ t.nGroups ∧ (n.isPartial ∨ n.merging) then
        match depth with
        | 0 => .error .endless
        | depth + 1 => do lookupWithin depth (← n.flush { s with table := t }) keyvals
      else if n.maxGroups ≤ t.nGroups then .error .maxGroups
      else
        let e := n.newEntry keyvals
        .ok ({ s with table := ⟨t.slots.set i (some e), t.nGroups + 1⟩ }, i, e)

/-- `pgcolumnar_groupagg_lookup` -/
def lookup (s : State δ) (keyvals : Row δ) : Except Failure (State δ × ℕ × Entry δ) :=
  n.lookupWithin 1 s keyvals

/-- The values of a row folded into the accumulators of its group. -/
def applyAll (specs : List Acc) (row : Row δ) : List Acc :=
  List.zipWith (fun agg acc => applyOne n.haveInt128 agg.1 acc (n.arg agg.2 row)) n.aggs specs

/-- One turn of the loop of `pgcolumnar_groupagg_build`. -/
def addRow (s : State δ) (row : Row δ) : Except Failure (State δ) :=
  if n.whereQual row then do
    let (s, i, e) ← n.lookup s (n.keyvals row)
    .ok { s with
      table := ⟨s.table.slots.set i (some { e with specs := n.applyAll e.specs row }),
        s.table.nGroups⟩ }
  else .ok s

/-- `pgcolumnar_groupagg_build` -/
def build (input : List (Row δ)) : Except Failure (State δ) :=
  input.foldlM n.addRow ⟨resetTable, 0, [], []⟩

def finalizeAll (specs : List Acc) : List AggValue :=
  List.zipWith (fun agg acc => aggFinalize n.haveInt128 agg.1 acc) n.aggs specs

def mergeAll (specs specs' : List Acc) : List Acc :=
  List.zipWith (fun agg acc => specMerge n.haveInt128 agg.1 acc.1 acc.2) n.aggs (specs.zip specs')

/-- A run as `pgcolumnar_groupagg_merge_next` returns it. -/
def mergeRun (run : MergeTuple δ × List (MergeTuple δ)) : Row δ × List AggValue :=
  (run.1.keys, n.finalizeAll (run.2.foldl (fun specs x => n.mergeAll specs (x.cols.map mergeRead))
      (run.1.cols.map mergeRead)))

/-- The rows that the calls of `pgcolumnar_groupagg_merge_next` return. -/
def mergeOut (s : State δ) : List (Row δ × List AggValue) :=
  (sortedRuns (fun x y => mergeSame n.keys x.keys y.keys)
    (n.sort (s.mergeSort ++ (entries s.table.slots).map (n.putEntry s.flushes)))).map n.mergeRun

end Node

/-- What a node emits: finished rows, or partial states. -/
inductive Emitted (δ : Type) where
  | values (out : List (Row δ × List AggValue))
  | states (out : List (Row δ × List PartialState))
  deriving DecidableEq

/-- The rows that the calls of `PgColumnarExecGroupAggScan` return. -/
def Node.exec (input : List (Row δ)) : Except Failure (Emitted δ) := do
  let s ← n.build input
  if n.merging ∧ 0 < s.flushes then .ok (.values (n.mergeOut s))
  else if n.isPartial then do
    let tuples ← (entries s.table.slots).mapM n.emitEntry
    .ok (.states (s.flushed ++ tuples))
  else .ok (.values ((entries s.table.slots).map fun e => (e.keys, n.finalizeAll e.specs)))

/-! ### What the node is for -/

namespace Node

/-- The rows that are aggregated. -/
def rows (input : List (Row δ)) : List (Row δ) := input.filter n.whereQual

/-- The rows with a key. -/
def rowsOf (rows : List (Row δ)) (k : Row δ) : List (Row δ) :=
  rows.filter fun row => mergeSame n.keys k (n.keyvals row)

/-- What an aggregate is of some rows. -/
def aggregate (agg : AggSpec × Option ℕ) (rows : List (Row δ)) : AggValue :=
  sqlAggregate n.haveInt128 agg.1 (rows.map (n.arg agg.2))

end Node

/-- One row for each key, with the aggregates of the rows of that key. -/
structure GroupBy (rows : List (Row δ)) (out : List (Row δ × List AggValue)) : Prop where
  distinct : out.Pairwise fun o o' => mergeSame n.keys o.1 o'.1 = false
  complete : ∀ row ∈ rows, ∃ o ∈ out, mergeSame n.keys o.1 (n.keyvals row) = true
  sound : ∀ o ∈ out, (∃ row ∈ rows, n.keyvals row = o.1) ∧
    o.2 = n.aggs.map fun agg => n.aggregate agg (n.rowsOf rows o.1)

/-- What the core node makes of the states of one aggregate of one group. -/
def combineAll (spec : AggSpec) : List PartialState → Option PartialState
  | [] => none
  | p :: ps => ps.foldlM (combine spec) p

/-- The states of an aggregate in the tuples with a key. -/
def statesOf (out : List (Row δ × List PartialState)) (k : Row δ) (a : ℕ) : List PartialState :=
  (out.filter fun o => mergeSame n.keys k o.1).filterMap fun o => o.2[a]?

/-- The combination of the states of each key is right, unless the values add up to so much
that PostgreSQL's `int8pl` may find them out of range. -/
structure PartialGroupBy (rows : List (Row δ)) (out : List (Row δ × List PartialState)) :
    Prop where
  shown : ∀ o ∈ out, ∃ row ∈ rows, n.keyvals row = o.1
  complete : ∀ row ∈ rows, ∃ o ∈ out, mergeSame n.keys o.1 (n.keyvals row) = true
  combined : ∀ row ∈ rows, ∀ a agg, n.aggs[a]? = some agg →
    let members := n.rowsOf rows (n.keyvals row)
    match combineAll agg.1 (statesOf n out (n.keyvals row) a) with
    | some p => partialFinal agg.1 p = n.aggregate agg members
    | none => 2 ^ 63 ≤ agg.1.magnitude (members.map (n.arg agg.2))

/-- What is emitted is right. -/
def Correct (rows : List (Row δ)) : Emitted δ → Prop
  | .values out => n.isPartial = false ∧ GroupBy n rows out
  | .states out => n.isPartial = true ∧ PartialGroupBy n rows out

variable {n} {rows rows' members members' : List (Row δ)} {specs specs' : List Acc} {s : State δ}

/-! ### The accumulators of a group -/

/-- The accumulators are those of the rows. -/
def RepresentsAll (n : Node δ) (specs : List Acc) (members : List (Row δ)) : Prop :=
  List.Forall₂ (fun agg acc => Represents n.haveInt128 agg.1 acc (members.map (n.arg agg.2)))
    n.aggs specs

theorem representsAll_template : RepresentsAll n (n.aggs.map fun _ => .template) [] := by
  unfold RepresentsAll
  rw [forall₂_map_right_iff, forall₂_same]
  intro agg _
  exact represents_template

theorem RepresentsAll.applyAll (h : RepresentsAll n specs members) (row : Row δ) :
    RepresentsAll n (n.applyAll specs row) (members ++ [row]) := by
  unfold RepresentsAll Node.applyAll at *
  generalize n.aggs = aggs at h ⊢
  induction h with
  | nil => exact List.Forall₂.nil
  | cons hacc _ ih =>
    refine List.Forall₂.cons ?_ ih
    rw [map_append]
    exact represents_applyOne hacc _

theorem RepresentsAll.mergeAll (h : RepresentsAll n specs members)
    (h' : RepresentsAll n specs' members') :
    RepresentsAll n (n.mergeAll specs specs') (members ++ members') := by
  unfold RepresentsAll Node.mergeAll at *
  generalize n.aggs = aggs at h h' ⊢
  induction h generalizing specs' with
  | nil =>
    cases h'
    exact List.Forall₂.nil
  | cons hacc _ ih =>
    cases h' with
    | cons hacc' hrest =>
      refine List.Forall₂.cons ?_ (ih hrest)
      rw [map_append]
      exact represents_specMerge hacc hacc'

theorem RepresentsAll.perm (h : RepresentsAll n specs members) (hperm : members.Perm members') :
    RepresentsAll n specs members' :=
  h.imp fun _ _ hacc => hacc.perm (hperm.map _)

theorem RepresentsAll.finalizeAll (h : RepresentsAll n specs members) :
    n.finalizeAll specs = n.aggs.map fun agg => n.aggregate agg members := by
  unfold RepresentsAll at h
  unfold Node.finalizeAll
  generalize n.aggs = aggs at h ⊢
  induction h with
  | nil => rfl
  | cons hacc _ ih =>
    rw [zipWith_cons_cons, map_cons, ih, aggFinalize_eq hacc]
    rfl

variable {spec : AggSpec} {args : List (Option Datum)}

/-- What a tuple of the sort keeps of an accumulator is all that matters. -/
theorem represents_mergeRead {acc : Acc} (h : Represents n.haveInt128 spec acc args) :
    Represents n.haveInt128 spec (Node.mergeRead (n.mergePut spec acc)) args := by
  unfold Represents IsTotal IsExtreme at *
  unfold Node.mergeRead Node.mergePut Node.isInt8
  cases hk : spec.kind with
  | countStar | countCol | sumInt | avgInt =>
    simpa only [hk] using h
  | sumInt8 | avgInt8 =>
    simp only [hk] at h ⊢
    obtain ⟨hcount, hset, htotal⟩ := h
    refine ⟨hcount, hset, ?_⟩
    cases hint : n.haveInt128 with
    | true => simpa only [hint, if_true] using htotal
    | false =>
      simp only [hint, Bool.false_eq_true, if_false] at htotal ⊢
      intro hne
      have hsaw : acc.nsumSet = true := by
        rw [hset]
        exact decide_eq_true hne
      simpa [hsaw] using htotal hne
  | min | max =>
    simp only [hk] at h ⊢
    obtain ⟨hsaw, hextreme⟩ := h
    refine ⟨hsaw, ?_⟩
    intro hne
    have hset : acc.sawValue = true := by
      rw [hsaw]
      exact decide_eq_true hne
    simpa [hset] using hextreme hne

variable {e : Entry δ}

/-- The accumulators in a tuple of the sort. -/
theorem RepresentsAll.putEntry (h : RepresentsAll n e.specs members) (seq : ℕ) :
    RepresentsAll n ((n.putEntry seq e).cols.map Node.mergeRead) members := by
  unfold RepresentsAll Node.putEntry at *
  generalize n.aggs = aggs at h ⊢
  generalize e.specs = specs at h ⊢
  induction h with
  | nil => exact List.Forall₂.nil
  | cons hacc _ ih => exact List.Forall₂.cons (represents_mergeRead hacc) ih

/-! ### Pieces -/

/-- Keys and accumulators somewhere in the state, and the rows that went into them. -/
structure Piece (δ : Type) where
  keys : Row δ
  specs : List Acc
  members : List (Row δ)

def Piece.read (p : Piece δ) : Row δ × List Acc := (p.keys, p.specs)

def Piece.group (p : Piece δ) : Row δ × List (Row δ) := (p.keys, p.members)

/-- The pieces share the rows out, by the equality of the probe. -/
structure Holds (n : Node δ) (rows : List (Row δ)) (ps : List (Piece δ)) : Prop where
  pieces : Pieces (keysEqual n.bits n.keys) n.keyvals rows (ps.map Piece.group)
  specs : ∀ p ∈ ps, RepresentsAll n p.specs p.members

theorem Holds.nil : Holds n [] [] := ⟨.nil, by simp⟩

variable {ps ps' : List (Piece δ)}

theorem Holds.append (h : Holds n rows ps) (h' : Holds n rows' ps') :
    Holds n (rows ++ rows') (ps ++ ps') where
  pieces := by
    rw [map_append]
    exact h.pieces.append h'.pieces
  specs p hp := (mem_append.mp hp).elim (h.specs p) (h'.specs p)

theorem Holds.of_perm (h : Holds n rows ps) (hperm : ps.Perm ps') : Holds n rows ps' where
  pieces := h.pieces.of_perm (hperm.map _)
  specs p hp := h.specs p (hperm.mem_iff.mpr hp)

/-- What the entries of a table are pieces of. -/
structure TableHolds (n : Node δ) (rows : List (Row δ)) (t : Table δ) (ps : List (Piece δ)) :
    Prop where
  sound : Sound n.bits n.keys t
  holds : Holds n rows ps
  distinct : (ps.map Piece.group).Pairwise fun g g' => keysEqual n.bits n.keys g.1 g'.1 = false
  perm : ((entries t.slots).map fun e => (e.keys, e.specs)).Perm (ps.map Piece.read)

variable {t : Table δ}

theorem TableHolds.grouped (h : TableHolds n rows t ps) :
    Grouped (keysEqual n.bits n.keys) n.keyvals rows (ps.map Piece.group) :=
  ⟨h.holds.pieces, h.distinct⟩

theorem tableHolds_reset : TableHolds n [] resetTable [] :=
  ⟨sound_reset, .nil, List.Pairwise.nil, List.Perm.nil⟩

theorem TableHolds.length_eq (h : TableHolds n rows t ps) : t.nGroups = ps.length := by
  rw [h.sound.nGroups]
  simpa using h.perm.length_eq

/-- The piece of an entry, in front. -/
theorem TableHolds.exists_piece (h : TableHolds n rows t ps) {rest : List (Entry δ)}
    (he : (entries t.slots).Perm (e :: rest)) :
    ∃ p ps', ps.Perm (p :: ps') ∧ p.keys = e.keys ∧ p.specs = e.specs ∧
      (rest.map fun e => (e.keys, e.specs)).Perm (ps'.map Piece.read) := by
  have hperm := (he.map fun e => (e.keys, e.specs)).symm.trans h.perm
  rw [map_cons] at hperm
  obtain ⟨p, hp, hread⟩ := mem_map.mp (hperm.mem_iff.mp mem_cons_self)
  obtain ⟨before, after, rfl⟩ := append_of_mem hp
  have hfront : (before ++ p :: after).Perm (p :: (before ++ after)) := perm_middle
  refine ⟨p, before ++ after, hfront, congrArg Prod.fst hread, congrArg Prod.snd hread, ?_⟩
  have hcons := hperm.trans (hfront.map Piece.read)
  rw [map_cons, hread] at hcons
  exact hcons.cons_inv

/-- What the operator classes of the keys promise, that the planner gives a serial node no keys
that it cannot sort and a partial node no aggregate without a partial state, and that the sort
sorts. -/
structure Node.Planned (n : Node δ) : Prop where
  lawful : ∀ k ∈ n.keys, k.Lawful n.bits
  capped : 1 ≤ n.maxGroups
  sortable : n.isPartial = false → n.keysSortable = true ∧ ∀ k ∈ n.keys, k.Sortable
  hasState : n.isPartial = true → ∀ agg ∈ n.aggs, agg.1.kind ≠ .sumInt8 ∧ agg.1.kind ≠ .avgInt8
  sort_perm : ∀ l, (n.sort l).Perm l
  sort_sorted : ∀ l, (n.sort l).Pairwise fun x y => compareTuples n.keys x y ≤ 0

theorem Node.Planned.probe (hn : n.Planned) : Equivalence (RelOf (keysEqual n.bits n.keys)) :=
  equivalence_keysEqual hn.lawful

theorem Node.Planned.same (hn : n.Planned) : Equivalence (RelOf (mergeSame n.keys)) :=
  equivalence_mergeSame hn.lawful

variable {row : Row δ}

/-- **A row folded into the group of its keys.** -/
theorem TableHolds.hit (hn : n.Planned)
    (h : TableHolds n rows t ps) {i : ℕ} (hslot : t.slots.getD i none = some e)
    (hkeys : keysEqual n.bits n.keys e.keys (n.keyvals row) = true) :
    ∃ ps', ps'.length = ps.length ∧ TableHolds n (rows ++ [row])
      ⟨t.slots.set i (some { e with specs := n.applyAll e.specs row }), t.nGroups⟩ ps' := by
  obtain ⟨rest, hperm, hperm'⟩ := entries_replace hslot { e with specs := n.applyAll e.specs row }
  obtain ⟨p, ps', hps, hpkeys, hpspecs, hrest⟩ := h.exists_piece hperm
  have hholds := h.holds.of_perm hps
  have hgrouped := h.grouped.of_perm hn.probe (hps.map _)
  rw [← hpkeys] at hkeys
  have hadd := Grouped.add (g := p.group) hgrouped hkeys
  refine ⟨⟨p.keys, n.applyAll p.specs row, p.members ++ [row]⟩ :: ps', hps.length_eq.symm,
    h.sound.update hslot rfl rfl, ⟨hadd.toPieces, ?_⟩, hadd.distinct, ?_⟩
  · refine forall_mem_cons.mpr ⟨?_, fun q hq => hholds.specs q (mem_cons_of_mem _ hq)⟩
    exact (hholds.specs p mem_cons_self).applyAll row
  · refine (hperm'.map _).trans ?_
    rw [map_cons, map_cons, ← hpspecs]
    rw [hpkeys]
    exact hrest.cons _

/-- No piece has the keys that no entry has. -/
theorem TableHolds.not_any (h : TableHolds n rows t ps)
    {k : Row δ} (hnone : ∀ e ∈ entries t.slots, keysEqual n.bits n.keys e.keys k = false) :
    ∀ g ∈ ps.map Piece.group, keysEqual n.bits n.keys g.1 k = false := by
  intro g hg
  obtain ⟨p, hp, rfl⟩ := mem_map.mp hg
  have hread := h.perm.mem_iff.mpr (mem_map_of_mem (f := Piece.read) hp)
  obtain ⟨e, he, hep⟩ := mem_map.mp hread
  have hkeys : e.keys = p.keys := congrArg Prod.fst hep
  have hfalse := hnone e he
  rwa [hkeys] at hfalse

/-- **A row that starts a group.** -/
theorem TableHolds.insert (hn : n.Planned)
    (h : TableHolds n rows t ps) (hready : Ready n.bits n.keys t) {i : ℕ}
    (hnone : ∀ e ∈ entries t.slots, keysEqual n.bits n.keys e.keys (n.keyvals row) = false)
    (hset : ∀ specs, Chained (t.slots.set i (some ⟨hashKeys n.bits n.keys (n.keyvals row),
          n.keyvals row, specs⟩)) (fun e => e.hash.toNat % t.slots.length) ∧
        (entries (t.slots.set i (some ⟨hashKeys n.bits n.keys (n.keyvals row), n.keyvals row,
          specs⟩))).Perm (⟨hashKeys n.bits n.keys (n.keyvals row), n.keyvals row, specs⟩ ::
            entries t.slots)) :
    ∃ ps', ps'.length = ps.length + 1 ∧ TableHolds n (rows ++ [row])
      ⟨(t.slots.set i (some (n.newEntry (n.keyvals row)))).set i
        (some { n.newEntry (n.keyvals row) with
          specs := n.applyAll (n.newEntry (n.keyvals row)).specs row }), t.nGroups + 1⟩ ps' := by
  have hadd := h.grouped.addNew hn.probe (h.not_any hnone)
  rw [set_set]
  refine ⟨⟨n.keyvals row, n.applyAll (n.newEntry (n.keyvals row)).specs row, [row]⟩ :: ps, rfl,
    ?_, ⟨hadd.toPieces, ?_⟩, hadd.distinct, ?_⟩
  · exact hready.insert rfl (hset _).1 (hset _).2
  · refine forall_mem_cons.mpr ⟨?_, h.holds.specs⟩
    exact representsAll_template.applyAll row
  · refine ((hset _).2.map _).trans ?_
    rw [map_cons, map_cons]
    exact h.perm.cons _

/-! ### Distinct keys -/

/-- The keys as the probe tells them apart. -/
def Node.probeType (n : Node δ) : Agg.KeyType (Row δ) :=
  ⟨keysEqual n.bits n.keys, hashKeys n.bits n.keys⟩

/-- One key for each group that the probe makes of the rows. -/
def Node.probeKeys (n : Node δ) (rows : List (Row δ)) : List (Row δ) :=
  Agg.distinctKeys n.probeType (rows.map n.keyvals)

theorem Node.Planned.probeType (hn : n.Planned) : n.probeType.Lawful where
  refl := hn.probe.refl
  symm _ _ := hn.probe.symm
  trans _ _ _ := hn.probe.trans
  hash _ _ hab := hashFrom_congr hn.lawful hab 0

theorem probeKeys_append (rows : List (Row δ)) (row : Row δ) : n.probeKeys (rows ++ [row]) =
      Agg.addKey n.probeType (n.probeKeys rows) (n.keyvals row) := by
  unfold Node.probeKeys Agg.distinctKeys
  rw [map_append, foldl_append]
  rfl

/-- A row adds a key unless an earlier row has it. -/
theorem length_probeKeys_append (hn : n.Planned) (rows : List (Row δ)) (row : Row δ) :
    (n.probeKeys (rows ++ [row])).length =
      if rows.any fun r => keysEqual n.bits n.keys (n.keyvals r) (n.keyvals row) then
        (n.probeKeys rows).length
      else (n.probeKeys rows).length + 1 := by
  have hany := Agg.any_distinctKeys hn.probeType (rows.map n.keyvals) (n.keyvals row)
  rw [any_map] at hany
  have hany' : ((n.probeKeys rows).any fun k => n.probeType.eq k (n.keyvals row)) =
      rows.any fun r => keysEqual n.bits n.keys (n.keyvals r) (n.keyvals row) := hany
  rw [probeKeys_append, Agg.addKey, hany']
  split <;> rfl

/-! ### The lookup -/

/-- A row before this one has its key. -/
def Node.seen (n : Node δ) (rows : List (Row δ)) (row : Row δ) : Bool :=
  rows.any fun r => keysEqual n.bits n.keys (n.keyvals r) (n.keyvals row)

theorem TableHolds.seen_eq (hn : n.Planned) (h : TableHolds n rows t ps) (row : Row δ) :
    n.seen rows row =
      (ps.map Piece.group).any fun g => keysEqual n.bits n.keys g.1 (n.keyvals row) :=
  h.holds.pieces.any hn.probe _

/-- The table after the row is folded into the entry of its group. -/
def Node.fold (n : Node δ) (row : Row δ) (t : Table δ) (i : ℕ) (e : Entry δ) : Table δ :=
  ⟨t.slots.set i (some { e with specs := n.applyAll e.specs row }), t.nGroups⟩

/-- How the lookup of a row's group can go: it is found or started, the table is flushed first,
or the probe never ends. -/
inductive Looked (n : Node δ) (rows : List (Row δ)) (ps : List (Piece δ)) (row : Row δ)
    (depth : ℕ) (s : State δ) : Prop where
  | hit (t : Table δ) (i : ℕ) (e : Entry δ) (ps' : List (Piece δ))
      (hok : n.lookupWithin depth s (n.keyvals row) = .ok ({ s with table := t }, i, e))
      (hholds : TableHolds n (rows ++ [row]) (n.fold row t i e) ps')
      (hlen : ps'.length = ps.length) (hseen : n.seen rows row = true)
  | insert (t : Table δ) (i : ℕ) (e : Entry δ) (ps' : List (Piece δ))
      (hok : n.lookupWithin depth s (n.keyvals row) = .ok ({ s with table := t }, i, e))
      (hholds : TableHolds n (rows ++ [row]) (n.fold row t i e) ps')
      (hlen : ps'.length = ps.length + 1) (hroom : ps.length < n.maxGroups)
      (hcap : ps.length < maxCapacity) (hseen : n.seen rows row = false)
  | flush (t : Table δ) (hholds : TableHolds n rows t ps)
      (hok : ∀ d, depth = d + 1 → n.lookupWithin depth s (n.keyvals row) =
        (n.flush { s with table := t }).bind fun s => n.lookupWithin d s (n.keyvals row))
      (hroom : n.maxGroups ≤ ps.length) (hcap : ps.length < maxCapacity)
      (hseen : n.seen rows row = false)
  | endless (hend : n.lookupWithin depth s (n.keyvals row) = .error .endless)
      (hcap : ps.length = maxCapacity) (hseen : n.seen rows row = false)

theorem looked (hn : n.Planned) (h : TableHolds n rows s.table ps)
    (row : Row δ) (depth : ℕ) : Looked n rows ps row depth s := by
  obtain ⟨t, ht, hready, hperm⟩ :=
    ready_of_sound h.sound (sizeHint_eq n.estimate n.maxGroups)
  have hholds : TableHolds n rows t ps :=
    ⟨hready.sound, h.holds, h.distinct, (hperm.map _).trans h.perm⟩
  have hlen := hholds.length_eq
  have hseen := hholds.seen_eq hn row
  have hlookup : ∀ o, probe t.slots (sameGroup n.bits n.keys (n.keyvals row)) t.slots.length
      (startSlot t.slots.length (hashKeys n.bits n.keys (n.keyvals row))) = o →
      probeGroup n.bits n.keys (sizeHint n.estimate n.maxGroups) s.table (n.keyvals row) =
        .ok (t, o) := by
    intro o ho
    unfold probeGroup
    rw [ht]
    show Except.ok _ = _
    rw [ho]
  have hnot : (∀ e ∈ entries t.slots, keysEqual n.bits n.keys e.keys (n.keyvals row) = false) →
      n.seen rows row = false := by
    intro hnone
    rw [hseen, any_eq_false]
    intro g hg
    rw [hholds.not_any hnone g hg]
    exact Bool.false_ne_true
  -- by the end of the probe: an entry, an empty slot, or a table without one
  cases ho : probe t.slots (sameGroup n.bits n.keys (n.keyvals row)) t.slots.length
      (startSlot t.slots.length (hashKeys n.bits n.keys (n.keyvals row))) with
  | hit i e =>
    obtain ⟨hmem, hkeys, hslot⟩ := hready.find hn.lawful _ ho
    obtain ⟨ps', hlen', hholds'⟩ := hholds.hit hn hslot hkeys
    refine .hit t i e ps' ?_ hholds' hlen' ?_
    · unfold Node.lookupWithin
      rw [hlookup _ ho]
      rfl
    · have hread := hholds.perm.mem_iff.mp (mem_map_of_mem hmem)
      obtain ⟨p, hp, hpe⟩ := mem_map.mp hread
      rw [hseen, any_eq_true]
      refine ⟨p.group, mem_map_of_mem hp, ?_⟩
      have hpk : p.keys = e.keys := congrArg Prod.fst hpe
      show keysEqual n.bits n.keys p.keys _ = true
      rw [hpk]
      exact hkeys
  | empty i =>
    obtain ⟨hnone, hset⟩ := hready.find hn.lawful _ ho
    -- with the new entry the table still has no more entries than slots
    have hcap : ps.length < maxCapacity := by
      have hslots := (hset []).2.length_eq
      have hle := length_entries (t.slots.set i
        (some ⟨hashKeys n.bits n.keys (n.keyvals row), n.keyvals row, []⟩))
      have hcount := countP_le_length (p := Option.isSome) (l := t.slots.set i
        (some ⟨hashKeys n.bits n.keys (n.keyvals row), n.keyvals row, []⟩))
      have hmax := hready.capacity.le
      rw [length_cons, ← hready.sound.nGroups, hlen] at hslots
      rw [length_set] at hcount
      omega
    by_cases hroom : n.maxGroups ≤ ps.length
    · refine .flush t hholds ?_ hroom hcap (hnot hnone)
      intro d hd
      have hwrites : n.isPartial = true ∨ n.merging = true := by
        cases hp : n.isPartial with
        | true => exact .inl rfl
        | false =>
          right
          unfold Node.merging
          rw [hp, (hn.sortable hp).1]
          rfl
      subst hd
      rw [Node.lookupWithin, hlookup _ ho]
      show (if _ then _ else _ : Except Failure _) = _
      rw [if_pos ⟨hlen ▸ hroom, hwrites⟩]
      rfl
    · obtain ⟨ps', hlen', hholds'⟩ := hholds.insert hn hready hnone hset
      refine .insert ⟨t.slots.set i (some (n.newEntry (n.keyvals row))), t.nGroups + 1⟩ i
        (n.newEntry (n.keyvals row)) ps' ?_ hholds' hlen' (not_le.mp hroom) hcap (hnot hnone)
      unfold Node.lookupWithin
      rw [hlookup _ ho]
      show (if _ then _ else _ : Except Failure _) = _
      rw [if_neg (fun hboth => hroom (hlen ▸ hboth.1)), if_neg (hlen ▸ hroom)]
  | exhausted =>
    obtain ⟨hnone, hfull⟩ := hready.find hn.lawful _ ho
    refine .endless ?_ (hlen ▸ hfull) (hnot hnone)
    unfold Node.lookupWithin
    rw [hlookup _ ho]
    rfl

/-! ### The flush -/

/-- A tuple of the sort that holds a piece. -/
def Sorts (n : Node δ) (p : Piece δ) (x : MergeTuple δ) : Prop :=
  x.keys = p.keys ∧ RepresentsAll n (x.cols.map Node.mergeRead) p.members

/-- The partial states of a piece. -/
def Emits (n : Node δ) (p : Piece δ) (o : Row δ × List PartialState) : Prop :=
  o.1 = p.keys ∧
    List.Forall₂ (fun x state => aggEmitPartial x.1.1 x.2 = some state) (n.aggs.zip p.specs) o.2

theorem exists_mapM {m : Type → Type} [Monad m] [LawfulMonad m] {α β : Type} {f : α → m β}
    {l : List α} (h : ∀ x ∈ l, ∃ y, f x = pure y) :
    ∃ ys, l.mapM f = pure ys ∧ List.Forall₂ (fun x y => f x = pure y) l ys := by
  induction l with
  | nil => exact ⟨[], mapM_nil, List.Forall₂.nil⟩
  | cons x l ih =>
    obtain ⟨y, hy⟩ := h x mem_cons_self
    obtain ⟨ys, hys, hall⟩ := ih fun x' hx' => h x' (mem_cons_of_mem _ hx')
    refine ⟨y :: ys, ?_, List.Forall₂.cons hy hall⟩
    rw [mapM_cons, hy, hys]
    simp

theorem aggEmitPartial_some (h : spec.kind ≠ .sumInt8 ∧ spec.kind ≠ .avgInt8)
    (acc : Acc) : ∃ state, aggEmitPartial spec acc = some state := by
  unfold aggEmitPartial
  cases hk : spec.kind with
  | sumInt8 => exact absurd hk h.1
  | avgInt8 => exact absurd hk h.2
  | countStar | countCol | sumInt | avgInt | min | max => exact ⟨_, rfl⟩

/-- A partial node emits every entry. -/
theorem emitEntry_eq (hn : n.Planned) (hp : n.isPartial = true) (e : Entry δ) :
    ∃ o, n.emitEntry e = .ok o ∧ ∀ p : Piece δ, p.keys = e.keys → p.specs = e.specs →
      Emits n p o := by
  obtain ⟨states, hstates, hall⟩ := exists_mapM (m := Option) (l := n.aggs.zip e.specs)
    (f := fun x : (AggSpec × Option ℕ) × Acc => aggEmitPartial x.1.1 x.2) (by
      intro x hx
      exact aggEmitPartial_some (hn.hasState hp x.1 (of_mem_zip hx).1) x.2)
  refine ⟨(e.keys, states), ?_, ?_⟩
  · unfold Node.emitEntry
    rw [hstates]
    rfl
  · intro p hkeys hspecs
    refine ⟨hkeys.symm, ?_⟩
    rw [hspecs]
    exact hall

/-- The pieces of a table in the order of its entries. -/
theorem TableHolds.in_order (h : TableHolds n rows t ps) : ∃ ps', ps'.Perm ps ∧
      List.Forall₂ (fun e p => p.keys = e.keys ∧ p.specs = e.specs) (entries t.slots) ps' := by
  have hread : List.Forall₂ (fun x p => x = Piece.read p) (ps.map Piece.read) ps := by
    rw [forall₂_map_left_iff, forall₂_same]
    exact fun _ _ => rfl
  obtain ⟨ps', hall, hperm⟩ := perm_comp_forall₂ h.perm hread
  rw [forall₂_map_left_iff] at hall
  refine ⟨ps', hperm, hall.imp fun e p hep => ?_⟩
  exact ⟨(congrArg Prod.fst hep).symm, (congrArg Prod.snd hep).symm⟩

/-- The entries of a table in the sort. -/
theorem forall₂_putEntry {es : List (Entry δ)} (seq : ℕ)
    (hspecs : ∀ p ∈ ps, RepresentsAll n p.specs p.members)
    (h : List.Forall₂ (fun e p => p.keys = e.keys ∧ p.specs = e.specs) es ps) :
    List.Forall₂ (Sorts n) ps (es.map (n.putEntry seq)) := by
  rw [forall₂_map_right_iff]
  induction h with
  | nil => exact List.Forall₂.nil
  | @cons e p es ps hep _ ih =>
    refine List.Forall₂.cons ⟨hep.1.symm, ?_⟩ (ih fun p' hp' => hspecs p' (mem_cons_of_mem _ hp'))
    have hrep := hspecs p mem_cons_self
    rw [hep.2] at hrep
    exact hrep.putEntry seq

/-- The entries of a table as a partial node emits them. -/
theorem mapM_emitEntry {es : List (Entry δ)} (hn : n.Planned) (hp : n.isPartial = true)
    (h : List.Forall₂ (fun e p => p.keys = e.keys ∧ p.specs = e.specs) es ps) :
    ∃ tuples, es.mapM n.emitEntry = .ok tuples ∧ List.Forall₂ (Emits n) ps tuples := by
  induction h with
  | nil => exact ⟨[], rfl, List.Forall₂.nil⟩
  | @cons e p es ps hep _ ih =>
    obtain ⟨o, ho, hemits⟩ := emitEntry_eq hn hp e
    obtain ⟨tuples, htuples, hall⟩ := ih
    refine ⟨o :: tuples, ?_, List.Forall₂.cons (hemits p hep.1 hep.2) hall⟩
    rw [mapM_cons, ho, htuples]
    rfl

variable {old : List (Piece δ)}

/-- **A flush** writes the groups of the table behind those flushed before. -/
theorem flush_eq (hn : n.Planned) (h : TableHolds n rows t ps)
    (hsorted : n.isPartial = false → List.Forall₂ (Sorts n) old s.mergeSort)
    (hemitted : n.isPartial = true → List.Forall₂ (Emits n) old s.flushed) :
    ∃ s' ps', n.flush { s with table := t } = .ok s' ∧ s'.table = resetTable ∧
      s'.flushes = s.flushes + 1 ∧ ps'.Perm ps ∧
      (n.isPartial = false → List.Forall₂ (Sorts n) (old ++ ps') s'.mergeSort) ∧
      (n.isPartial = true → List.Forall₂ (Emits n) (old ++ ps') s'.flushed) := by
  obtain ⟨ps', hperm, horder⟩ := h.in_order
  have hspecs : ∀ p ∈ ps', RepresentsAll n p.specs p.members :=
    fun p hp => h.holds.specs p (hperm.mem_iff.mp hp)
  unfold Node.flush Node.merging
  cases hp : n.isPartial with
  | true =>
    obtain ⟨tuples, htuples, hall⟩ := mapM_emitEntry hn hp horder
    rw [if_neg (by simp), htuples]
    exact ⟨_, ps', rfl, rfl, rfl, hperm, by simp, fun _ => rel_append (hemitted hp) hall⟩
  | false =>
    rw [if_pos (by rw [(hn.sortable hp).1]; rfl)]
    exact ⟨_, ps', rfl, rfl, rfl, hperm,
      fun _ => rel_append (hsorted hp) (forall₂_putEntry _ hspecs horder), by simp⟩

/-! ### The run -/

/-- What the state holds after some rows: those before the last flush in flushed pieces, the
others in the table. -/
structure Inv (n : Node δ) (rows : List (Row δ)) (s : State δ) (oldRows newRows : List (Row δ))
    (old ps : List (Piece δ)) : Prop where
  split : rows = oldRows ++ newRows
  table : TableHolds n newRows s.table ps
  flushed : Holds n oldRows old
  cap : ps.length ≤ n.maxGroups
  first : s.flushes = 0 → oldRows = [] ∧ old = [] ∧ ps.length = (n.probeKeys rows).length
  later : 0 < s.flushes → n.maxGroups < (n.probeKeys rows).length
  sorted : n.isPartial = false → List.Forall₂ (Sorts n) old s.mergeSort
  emitted : n.isPartial = true → List.Forall₂ (Emits n) old s.flushed

def Reached (n : Node δ) (rows : List (Row δ)) (s : State δ) : Prop :=
  ∃ oldRows newRows old ps, Inv n rows s oldRows newRows old ps

/-- The table grows to the ceiling, and there is a key for which it has no slot. -/
def Node.Full (n : Node δ) (rows : List (Row δ)) : Prop :=
  maxCapacity ≤ n.maxGroups ∧ maxCapacity < (n.probeKeys rows).length

theorem length_probeKeys_le (hn : n.Planned) (rows : List (Row δ)) (row : Row δ) :
    (n.probeKeys rows).length ≤ (n.probeKeys (rows ++ [row])).length := by
  rw [length_probeKeys_append hn]
  split
  · exact le_refl _
  · exact le_succ _

theorem seen_append (oldRows newRows : List (Row δ)) (row : Row δ) :
    n.seen (oldRows ++ newRows) row = (n.seen oldRows row || n.seen newRows row) :=
  any_append

variable {oldRows newRows : List (Row δ)}

/-- A row that starts a group adds a key, if nothing was flushed. -/
theorem Inv.length_append (hn : n.Planned) (h : Inv n rows s oldRows newRows old ps)
    (hseen : n.seen newRows row = false) (hfirst : s.flushes = 0) :
    (n.probeKeys (rows ++ [row])).length = ps.length + 1 := by
  obtain ⟨hold, -, hlen⟩ := h.first hfirst
  have hrows : n.seen rows row = false := by
    rw [h.split, hold]
    exact hseen
  rw [length_probeKeys_append hn, hlen]
  exact if_neg (by rw [Node.seen] at hrows; rw [hrows]; exact Bool.false_ne_true)

/-- The invariant behind a row that went into the table. -/
theorem Inv.table_row (hn : n.Planned) (h : Inv n rows s oldRows newRows old ps)
    (hholds : TableHolds n (newRows ++ [row]) t ps') (hcap : ps'.length ≤ n.maxGroups)
    (hlen : s.flushes = 0 → ps'.length = (n.probeKeys (rows ++ [row])).length) :
    Reached n (rows ++ [row]) { s with table := t } := by
  refine ⟨oldRows, newRows ++ [row], old, ps', ?_, hholds, h.flushed, hcap, ?_, ?_, h.sorted,
    h.emitted⟩
  · rw [h.split, append_assoc]
  · intro hfirst
    obtain ⟨hold, hnil, -⟩ := h.first hfirst
    exact ⟨hold, hnil, hlen hfirst⟩
  · intro hlater
    exact lt_of_lt_of_le (h.later hlater) (length_probeKeys_le hn rows row)

/-- Once something was flushed there is no cap that the table cannot hold. -/
theorem Inv.first_of_cap (h : Inv n rows s oldRows newRows old ps) (hfull : ¬ n.Full rows)
    (hmax : maxCapacity ≤ n.maxGroups) : s.flushes = 0 := by
  by_contra hne
  exact hfull ⟨hmax, lt_of_le_of_lt hmax (h.later (pos_of_ne_zero hne))⟩

/-- **One row that passes the filter.** -/
theorem addRow_eq (hn : n.Planned) (hrow : n.whereQual row = true)
    (h : Reached n rows s) (hfull : ¬ n.Full rows) :
    (¬ n.Full (rows ++ [row]) → ∃ s', n.addRow s row = .ok s' ∧ Reached n (rows ++ [row]) s') ∧
      (n.Full (rows ++ [row]) → n.addRow s row = .error .endless) := by
  obtain ⟨oldRows, newRows, old, ps, hinv⟩ := h
  have hadd : ∀ t i e, n.lookupWithin 1 s (n.keyvals row) = .ok ({ s with table := t }, i, e) →
      n.addRow s row = .ok { s with table := n.fold row t i e } := by
    intro t i e hok
    unfold Node.addRow Node.lookup
    rw [if_pos hrow, hok]
    rfl
  rcases looked hn hinv.table row 1 with ⟨t, i, e, ps', hok, hholds, hlen, hseen⟩ |
    ⟨t, i, e, ps', hok, hholds, hlen, hroom, hcap, hseen⟩ |
    ⟨t, hholds, hok, hroom, hcap, hseen⟩ | ⟨hend, hcap, hseen⟩
  · -- an earlier row has the keys, and there are as many keys as before
    have hrows : n.seen rows row = true := by
      rw [hinv.split, seen_append, hseen, Bool.or_true]
    have hcount : (n.probeKeys (rows ++ [row])).length = (n.probeKeys rows).length := by
      rw [length_probeKeys_append hn]
      exact if_pos hrows
    constructor
    · intro _
      refine ⟨_, hadd t i e hok, hinv.table_row hn hholds (hlen ▸ hinv.cap) ?_⟩
      intro hfirst
      rw [hlen, hcount]
      exact (hinv.first hfirst).2.2
    · intro hfull'
      exact absurd ⟨hfull'.1, hcount ▸ hfull'.2⟩ hfull
  · constructor
    · intro _
      refine ⟨_, hadd t i e hok, hinv.table_row hn hholds (by omega) ?_⟩
      intro hfirst
      rw [hlen, hinv.length_append hn hseen hfirst]
    · intro hfull'
      -- the new group has a slot
      have hlt := hfull'.2
      rw [hinv.length_append hn hseen (hinv.first_of_cap hfull hfull'.1)] at hlt
      omega
  · have hnot : ¬ n.Full (rows ++ [row]) := by
      intro hfull'
      exact absurd (hfull'.1.trans hroom) (not_le.mpr hcap)
    refine ⟨fun _ => ?_, fun hfull' => absurd hfull' hnot⟩
    obtain ⟨s', ps', hflush, htable, hflushes, hperm, hsorted, hemitted⟩ :=
      flush_eq hn hholds hinv.sorted hinv.emitted
    have hreset : TableHolds n [] s'.table [] := htable ▸ tableHolds_reset
    have hcapped := hn.capped
    -- in the empty table the row starts a group
    rcases looked hn hreset row 0 with ⟨t', i, e, ps'', -, -, -, hseen'⟩ |
      ⟨t', i, e, ps'', hok', hholds', hlen', -, -, -⟩ | ⟨t', -, -, hroom', -, -⟩ | ⟨-, hcap', -⟩
    · cases hseen'
    · refine ⟨{ s' with table := n.fold row t' i e }, ?_, rows, [row], old ++ ps', ps'', rfl,
        hholds', ?_, ?_, ?_, ?_, hsorted, hemitted⟩
      · unfold Node.addRow Node.lookup
        rw [if_pos hrow, hok 0 rfl, hflush]
        show (n.lookupWithin 0 s' (n.keyvals row) >>= _) = _
        rw [hok']
        rfl
      · rw [hinv.split]
        exact hinv.flushed.append (hinv.table.holds.of_perm hperm.symm)
      · simp only [length_nil] at hlen'
        omega
      · intro hzero
        simp only [hflushes] at hzero
        omega
      · intro _
        rcases Nat.eq_zero_or_pos s.flushes with hfirst | hlater
        · rw [hinv.length_append hn hseen hfirst]
          omega
        · exact lt_of_lt_of_le (hinv.later hlater) (length_probeKeys_le hn rows row)
    · exact absurd hroom' (by simp only [length_nil]; omega)
    · cases hcap'
  · have hmax : maxCapacity ≤ n.maxGroups := hcap ▸ hinv.cap
    have hfull' : n.Full (rows ++ [row]) := by
      refine ⟨hmax, ?_⟩
      rw [hinv.length_append hn hseen (hinv.first_of_cap hfull hmax), hcap]
      exact lt_succ_self _
    refine ⟨fun hnot => absurd hfull' hnot, fun _ => ?_⟩
    unfold Node.addRow Node.lookup
    rw [if_pos hrow, hend]
    rfl

theorem reached_start : Reached n [] ⟨resetTable, 0, [], []⟩ :=
  ⟨[], [], [], [], rfl, tableHolds_reset, .nil, zero_le _, fun _ => ⟨rfl, rfl, rfl⟩,
    fun h => absurd h (lt_irrefl 0), fun _ => List.Forall₂.nil, fun _ => List.Forall₂.nil⟩

theorem not_full_of_append (hn : n.Planned) (h : ¬ n.Full (rows ++ [row])) : ¬ n.Full rows :=
  fun hfull => h ⟨hfull.1, lt_of_lt_of_le hfull.2 (length_probeKeys_le hn rows row)⟩

/-- **The scan**: what the node holds at its end, unless the table was full for some row. -/
theorem build_eq (hn : n.Planned) (input : List (Row δ)) : (¬ n.Full (n.rows input) →
      ∃ s, n.build input = .ok s ∧ Reached n (n.rows input) s) ∧
    (n.Full (n.rows input) → n.build input = .error .endless) := by
  unfold Node.build Node.rows
  induction input using List.reverseRecOn with
  | nil =>
    exact ⟨fun _ => ⟨_, rfl, reached_start⟩, fun hfull => absurd hfull.2 (not_lt_zero _)⟩
  | append_singleton input row ih =>
    rw [foldlM_append, filter_append]
    cases hrow : n.whereQual row with
    | false =>
      have hadd : ∀ s, n.addRow s row = .ok s := fun s => if_neg (by simp [hrow])
      simp only [filter_cons, hrow, Bool.false_eq_true, if_false, filter_nil,
        append_nil, foldlM_cons, foldlM_nil, hadd]
      constructor
      · intro hnot
        obtain ⟨s, hs, hreached⟩ := ih.1 hnot
        exact ⟨s, by rw [hs]; rfl, hreached⟩
      · intro hfull
        rw [ih.2 hfull]
        rfl
    | true =>
      simp only [filter_cons, hrow, if_true, filter_nil]
      by_cases hbefore : n.Full (input.filter n.whereQual)
      · rw [ih.2 hbefore]
        exact ⟨fun hnot => absurd hbefore (not_full_of_append hn hnot), fun _ => rfl⟩
      · obtain ⟨s, hs, hreached⟩ := ih.1 hbefore
        obtain ⟨hok, herr⟩ := addRow_eq hn hrow hreached hbefore
        rw [hs]
        constructor
        · intro hnot
          obtain ⟨s', hs', hreached'⟩ := hok hnot
          refine ⟨s', ?_, hreached'⟩
          show (List.foldlM n.addRow s [row]) = _
          rw [foldlM_cons, hs']
          rfl
        · intro hfull
          show (List.foldlM n.addRow s [row]) = _
          rw [foldlM_cons, herr hfull]
          rfl

/-! ### What a serial node emits -/

/-- Groups whose accumulators are those of their members. -/
theorem groupBy_of_grouped {τ : Type} {read : τ → Row δ × List (Row δ)} (specs : τ → List Acc)
    (hn : n.Planned) {zs : List τ}
    (h : Grouped (mergeSame n.keys) n.keyvals rows (zs.map read))
    (hspecs : ∀ z ∈ zs, RepresentsAll n (specs z) (read z).2) :
    GroupBy n rows (zs.map fun z => ((read z).1, n.finalizeAll (specs z))) where
  distinct := by
    rw [pairwise_map]
    exact pairwise_map.mp h.distinct
  complete row hrow := by
    obtain ⟨g, hg, hmem⟩ := mem_flatMap.mp (h.perm.mem_iff.mpr hrow)
    obtain ⟨z, hz, rfl⟩ := mem_map.mp hg
    exact ⟨_, mem_map_of_mem hz, h.member _ hg row hmem⟩
  sound o ho := by
    obtain ⟨z, hz, rfl⟩ := mem_map.mp ho
    have hg : read z ∈ zs.map read := mem_map_of_mem hz
    obtain ⟨row, hrow, hkey⟩ := h.shown _ hg
    refine ⟨⟨row, h.perm.mem_iff.mp (mem_flatMap.mpr ⟨_, hg, hrow⟩), hkey⟩, ?_⟩
    exact ((hspecs z hz).perm (h.filter hn.same hg)).finalizeAll

/-- Whatever holds the keys of the pieces shows their groups. -/
theorem map_group_zip {τ : Type} (key : τ → Row δ) {l : List τ}
    (h : List.Forall₂ (fun x p => p.keys = key x) l ps) :
    (l.zip ps).map (fun z => (key z.1, z.2.members)) = ps.map Piece.group := by
  induction h with
  | nil => rfl
  | cons hkey _ ih => rw [zip_cons_cons, map_cons, map_cons, ih, Piece.group, hkey]

/-- The entries of a table and the pieces that they are. -/
theorem TableHolds.zip (hn : n.Planned) (h : TableHolds n rows t ps) :
    ∃ zs : List (Entry δ × Piece δ), zs.map Prod.fst = entries t.slots ∧
      Grouped (keysEqual n.bits n.keys) n.keyvals rows (zs.map fun z => (z.1.keys, z.2.members)) ∧
      ∀ z ∈ zs, RepresentsAll n z.1.specs z.2.members := by
  obtain ⟨ps', hperm, horder⟩ := h.in_order
  obtain ⟨hlen, hzip⟩ := forall₂_iff_zip.mp horder
  refine ⟨(entries t.slots).zip ps', map_fst_zip (le_of_eq hlen), ?_, ?_⟩
  · rw [map_group_zip Entry.keys (horder.imp fun _ _ hep => hep.1)]
    exact h.grouped.of_perm hn.probe (hperm.symm.map _)
  · intro z hz
    have hrep := h.holds.specs z.2 (hperm.mem_iff.mp (of_mem_zip hz).2)
    rwa [(hzip hz).2] at hrep

/-- **Without a flush** the groups are right exactly if the probe tells no equal keys apart. -/
theorem groupBy_table_iff (hn : n.Planned) (h : TableHolds n rows t ps) :
    GroupBy n rows ((entries t.slots).map fun e => (e.keys, n.finalizeAll e.specs)) ↔
      ∀ row ∈ rows, ∀ row' ∈ rows, mergeSame n.keys (n.keyvals row) (n.keyvals row') = true →
          keysEqual n.bits n.keys (n.keyvals row) (n.keyvals row') = true := by
  obtain ⟨zs, hzs, hgrouped, hspecs⟩ := h.zip hn
  have hfine : ∀ a b, keysEqual n.bits n.keys a b = true → mergeSame n.keys a b = true :=
    fun _ _ => mergeSame_of_keysEqual hn.lawful
  rw [← hgrouped.coarser hn.same hn.probe hfine, ← hzs, map_map]
  constructor
  · intro hout
    have hdistinct := hout.distinct
    rw [pairwise_map] at hdistinct ⊢
    exact hdistinct
  · intro hdistinct
    exact groupBy_of_grouped _ hn ⟨hgrouped.toPieces.mono hfine, hdistinct⟩ hspecs

/-- The runs of one group, merged. -/
theorem representsAll_foldl {run : List (MergeTuple δ × Piece δ)}
    (hrun : ∀ z ∈ run, RepresentsAll n (z.1.cols.map Node.mergeRead) z.2.members)
    (h : RepresentsAll n specs members) :
    RepresentsAll n ((run.map Prod.fst).foldl
      (fun specs x => n.mergeAll specs (x.cols.map Node.mergeRead)) specs)
      (members ++ run.flatMap fun z => z.2.members) := by
  induction run generalizing specs members with
  | nil => simpa using h
  | cons z run ih =>
    rw [map_cons, foldl_cons, flatMap_cons, ← append_assoc]
    exact ih (fun z' hz' => hrun z' (mem_cons_of_mem _ hz')) (h.mergeAll (hrun z mem_cons_self))

/-- **Behind a flush** the merge of the sorted runs puts the groups right. -/
theorem groupBy_mergeOut (hn : n.Planned) (hp : n.isPartial = false)
    (h : Inv n rows s oldRows newRows old ps) :
    GroupBy n rows (n.mergeOut s) := by
  obtain ⟨ps', hperm, horder⟩ := h.table.in_order
  have hputs := forall₂_putEntry s.flushes
    (fun p hp => h.table.holds.specs p (hperm.mem_iff.mp hp)) horder
  have hall := rel_append (h.sorted hp) hputs
  have hholds : Holds n rows (old ++ ps') := by
    rw [h.split]
    exact h.flushed.append (h.table.holds.of_perm hperm.symm)
  obtain ⟨qs, hqs, hqperm⟩ := perm_comp_forall₂ (hn.sort_perm _) hall.flip
  have hq := hholds.of_perm hqperm.symm
  obtain ⟨hlen, hzip⟩ := forall₂_iff_zip.mp hqs
  have hsortable := (hn.sortable hp).2
  unfold Node.mergeOut
  generalize hl : n.sort (s.mergeSort ++ (entries s.table.slots).map (n.putEntry s.flushes)) = l
    at hqs hlen hzip
  have hsorted := hn.sort_sorted (s.mergeSort ++ (entries s.table.slots).map (n.putEntry s.flushes))
  rw [hl] at hsorted
  have hread := map_group_zip MergeTuple.keys (hqs.imp fun _ _ hz => hz.1.symm)
  have hfst : l = (l.zip qs).map Prod.fst := (map_fst_zip (le_of_eq hlen)).symm
  have hrep : ∀ z ∈ l.zip qs, RepresentsAll n (z.1.cols.map Node.mergeRead) z.2.members :=
    fun z hz => (hzip hz).2
  have hpieces : Pieces (mergeSame n.keys) n.keyvals rows
      ((l.zip qs).map fun z => (z.1.keys, z.2.members)) := by
    rw [hread]
    exact hq.pieces.mono fun _ _ => mergeSame_of_keysEqual hn.lawful
  have hclasses : Classes (fun z z' : MergeTuple δ × Piece δ =>
      compareKeys n.keys z.1.keys z'.1.keys ≤ 0) fun z z' => mergeSame n.keys z.1.keys z'.1.keys :=
    ⟨fun _ _ _ => (classes_compareKeys hsortable).trans _ _ _,
      fun _ _ => (classes_compareKeys hsortable).same_iff _ _⟩
  have hpairs : (l.zip qs).Pairwise fun z z' => compareKeys n.keys z.1.keys z'.1.keys ≤ 0 := by
    rw [hfst, pairwise_map] at hsorted
    exact hsorted.imp fun hle => Compare.lex_nonpos hle
  have hgrouped := Pieces.merge hn.same hpieces hclasses hpairs fun _ _ => rfl
  rw [hfst, sortedRuns_map, map_map]
  refine groupBy_of_grouped (fun run : (MergeTuple δ × Piece δ) × List (MergeTuple δ × Piece δ) =>
      (run.2.map Prod.fst).foldl (fun specs x => n.mergeAll specs (x.cols.map Node.mergeRead))
        (run.1.1.cols.map Node.mergeRead)) hn hgrouped ?_
  intro run hrun
  have hmem : ∀ z ∈ elements run, z ∈ l.zip qs := by
    intro z hz
    rw [← flatMap_elements (fun z z' => mergeSame n.keys z.1.keys z'.1.keys) (l.zip qs)]
    exact mem_flatMap.mpr ⟨run, hrun, hz⟩
  exact representsAll_foldl (fun z hz => hrep z (hmem z (mem_cons_of_mem _ hz)))
    (hrep run.1 (hmem run.1 mem_cons_self))

/-! ### What a partial node emits -/

/-- A partial state of the aggregate over some arguments. -/
def StateOf (n : Node δ) (spec : AggSpec) (args : List (Option Datum)) (state : PartialState) :
    Prop :=
  ∃ acc, Represents n.haveInt128 spec acc args ∧ aggEmitPartial spec acc = some state

/-- Later states combined with what is there. -/
theorem combine_foldlM {argss : List (List (Option Datum))}
    {states : List PartialState} (h : List.Forall₂ (StateOf n spec) argss states)
    {state : PartialState} (hstate : StateOf n spec args state) :
    match states.foldlM (combine spec) state with
    | some r => StateOf n spec (args ++ argss.flatten) r
    | none => 2 ^ 63 ≤ spec.magnitude (args ++ argss.flatten) := by
  induction h generalizing args state with
  | nil => simpa using hstate
  | @cons args' state' argss states hnext _ ih =>
    obtain ⟨acc, hacc, hemit⟩ := hstate
    obtain ⟨acc', hacc', hemit'⟩ := hnext
    rw [foldlM_cons, flatten_cons, ← append_assoc]
    cases hc : combine spec state state' with
    | none =>
      rw [magnitude_append]
      exact le_add_right (magnitude_of_combine hacc hacc' hemit hemit' hc)
    | some r => exact ih ⟨_, represents_specMerge hacc hacc',
      combine_emitPartial hacc hacc' hemit hemit' hc⟩

variable {out : List (Row δ × List PartialState)}

/-- The states with a key are those of the pieces with it. -/
theorem forall₂_statesOf
    (h : List.Forall₂ (Emits n) ps out) (hspecs : ∀ p ∈ ps, RepresentsAll n p.specs p.members)
    (k : Row δ) {a : ℕ} {agg : AggSpec × Option ℕ} (hagg : n.aggs[a]? = some agg) :
    List.Forall₂ (StateOf n agg.1)
      ((ps.filter fun p => mergeSame n.keys k p.keys).map fun p => p.members.map (n.arg agg.2))
      (statesOf n out k a) := by
  unfold statesOf
  induction h with
  | nil => exact List.Forall₂.nil
  | @cons p o ps out hemits _ ih =>
    have hrest := ih fun p' hp' => hspecs p' (mem_cons_of_mem _ hp')
    simp only [filter_cons, hemits.1]
    split
    · -- the state of this piece comes first
      obtain ⟨acc, hacc, hrep⟩ : ∃ acc, p.specs[a]? = some acc ∧
          Represents n.haveInt128 agg.1 acc (p.members.map (n.arg agg.2)) := by
        have hall := hspecs p mem_cons_self
        obtain ⟨hlt, hget⟩ := List.getElem?_eq_some_iff.mp hagg
        have hlt' : a < p.specs.length := hall.length_eq ▸ hlt
        refine ⟨p.specs[a], getElem?_eq_getElem hlt', ?_⟩
        have hrep := hall.get hlt hlt'
        simp only [get_eq_getElem] at hrep
        rwa [hget] at hrep
      have hzip : (n.aggs.zip p.specs)[a]? = some (agg, acc) := by
        rw [getElem?_zip_eq_some]
        exact ⟨hagg, hacc⟩
      obtain ⟨state, hstate, hemit⟩ : ∃ state, o.2[a]? = some state ∧
          aggEmitPartial agg.1 acc = some state := by
        obtain ⟨hlt, hget⟩ := List.getElem?_eq_some_iff.mp hzip
        have hlt' : a < o.2.length := hemits.2.length_eq ▸ hlt
        refine ⟨o.2[a], getElem?_eq_getElem hlt', ?_⟩
        have hemit := hemits.2.get hlt hlt'
        simp only [get_eq_getElem] at hemit
        rwa [hget] at hemit
      rw [map_cons, filterMap_cons, hstate]
      exact List.Forall₂.cons ⟨acc, hrep, hemit⟩ hrest
    · exact hrest

/-- **The partial states of all pieces** combine to the aggregates. -/
theorem partialGroupBy_of_holds (hn : n.Planned) (h : Holds n rows ps)
    (hout : List.Forall₂ (Emits n) ps out) : PartialGroupBy n rows out := by
  have hpieces := h.pieces.mono fun _ _ => mergeSame_of_keysEqual hn.lawful
  obtain ⟨hlen, hzip⟩ := forall₂_iff_zip.mp hout
  refine ⟨?_, ?_, ?_⟩
  · intro o ho
    rw [← map_snd_zip (le_of_eq hlen.symm)] at ho
    obtain ⟨z, hz, rfl⟩ := mem_map.mp ho
    have hg : z.1.group ∈ ps.map Piece.group := mem_map_of_mem (of_mem_zip hz).1
    obtain ⟨row, hrow, hkey⟩ := hpieces.shown _ hg
    refine ⟨row, hpieces.perm.mem_iff.mp (mem_flatMap.mpr ⟨_, hg, hrow⟩), hkey.trans ?_⟩
    exact (hzip hz).1.symm
  · intro row hrow
    obtain ⟨g, hg, hmem⟩ := mem_flatMap.mp (hpieces.perm.mem_iff.mpr hrow)
    obtain ⟨p, hp, rfl⟩ := mem_map.mp hg
    have hfst : (ps.zip out).map Prod.fst = ps := map_fst_zip (le_of_eq hlen)
    rw [← hfst] at hp
    obtain ⟨z, hz, rfl⟩ := mem_map.mp hp
    refine ⟨z.2, (of_mem_zip hz).2, ?_⟩
    rw [(hzip hz).1]
    exact hpieces.member _ hg row hmem
  · intro row hrow a agg hagg members
    have hstates := forall₂_statesOf hout h.specs (n.keyvals row) hagg
    have hfilter := hpieces.filter hn.same (n.keyvals row)
    rw [filter_map, flatMap_map] at hfilter
    have hflatten : ((ps.filter fun p => mergeSame n.keys (n.keyvals row) p.keys).map
        fun p => p.members.map (n.arg agg.2)).flatten.Perm (members.map (n.arg agg.2)) := by
      refine List.Perm.trans (List.Perm.of_eq ?_) (hfilter.map (n.arg agg.2))
      rw [map_flatMap, flatMap_def]
      rfl
    generalize (ps.filter fun p => mergeSame n.keys (n.keyvals row) p.keys).map
      (fun p => p.members.map (n.arg agg.2)) = argss at hstates hflatten
    generalize statesOf n out (n.keyvals row) a = states at hstates ⊢
    cases hstates with
    | nil =>
      -- the row itself is among the members
      have hself : row ∈ members := mem_filter.mpr ⟨hrow, hn.same.refl _⟩
      have hnil := hflatten.length_eq
      rw [flatten_nil, length_nil, length_map] at hnil
      rw [length_eq_zero_iff.mp hnil.symm] at hself
      exact absurd hself not_mem_nil
    | @cons args state argss states hfirst hrest =>
      have hcombined := combine_foldlM hrest hfirst
      rw [flatten_cons] at hflatten
      unfold combineAll
      dsimp only
      revert hcombined
      cases states.foldlM (combine agg.1) state with
      | none =>
        intro hlarge
        rwa [magnitude_perm hflatten] at hlarge
      | some r =>
        intro hr
        dsimp only at hr ⊢
        obtain ⟨acc, hacc, hemit⟩ := hr
        rw [partialFinal_eq n.haveInt128 hemit]
        exact aggFinalize_eq (hacc.perm hflatten)

/-! ### The output -/

/-- The probe tells no two keys apart that are equal. -/
def Node.ProbeExact (n : Node δ) (rows : List (Row δ)) : Prop :=
  ∀ row ∈ rows, ∀ row' ∈ rows, mergeSame n.keys (n.keyvals row) (n.keyvals row') = true →
    keysEqual n.bits n.keys (n.keyvals row) (n.keyvals row') = true

/-- **Exactly when the output is right**: the table has a slot for every key, and the node
hands its groups to another equality than that of the probe, or the probe is exact. -/
theorem exec_correct_iff (hn : n.Planned) (input : List (Row δ)) :
    (∃ out, n.exec input = .ok out ∧ Correct n (n.rows input) out) ↔ ¬ n.Full (n.rows input) ∧
        (n.isPartial = true ∨ n.maxGroups < (n.probeKeys (n.rows input)).length ∨
          n.ProbeExact (n.rows input)) := by
  obtain ⟨hok, herr⟩ := build_eq hn input
  by_cases hfull : n.Full (n.rows input)
  · have hexec : n.exec input = .error .endless := by
      unfold Node.exec
      rw [herr hfull]
      rfl
    rw [hexec]
    constructor
    · intro h
      obtain ⟨out, hout, -⟩ := h
      cases hout
    · intro h
      exact absurd hfull h.1
  obtain ⟨s, hs, oldRows, newRows, old, ps, hinv⟩ := hok hfull
  have hexec : n.exec input =
      if n.merging ∧ 0 < s.flushes then .ok (.values (n.mergeOut s))
      else if n.isPartial then do
        let tuples ← (entries s.table.slots).mapM n.emitEntry
        .ok (.states (s.flushed ++ tuples))
      else .ok (.values ((entries s.table.slots).map fun e =>
        (e.keys, n.finalizeAll e.specs))) := by
    unfold Node.exec
    rw [hs]
    rfl
  rw [hexec]
  -- states are emitted as they are; values are merged, or read off the table if nothing was flushed
  cases hp : n.isPartial with
  | true =>
    obtain ⟨ps', hperm, horder⟩ := hinv.table.in_order
    obtain ⟨tuples, htuples, hall⟩ := mapM_emitEntry hn hp horder
    rw [if_neg (by simp [Node.merging, hp]), if_pos rfl, htuples]
    have hholds : Holds n (n.rows input) (old ++ ps') := by
      rw [hinv.split]
      exact hinv.flushed.append (hinv.table.holds.of_perm hperm.symm)
    have hright := partialGroupBy_of_holds hn hholds (rel_append (hinv.emitted hp) hall)
    exact ⟨fun _ => ⟨hfull, .inl rfl⟩, fun _ => ⟨_, rfl, hp, hright⟩⟩
  | false =>
    have hmerging : n.merging = true := by
      rw [Node.merging, hp, (hn.sortable hp).1]
      rfl
    by_cases hflush : 0 < s.flushes
    · rw [if_pos ⟨hmerging, hflush⟩]
      have hright := groupBy_mergeOut hn hp hinv
      exact ⟨fun _ => ⟨hfull, .inr (.inl (hinv.later hflush))⟩, fun _ => ⟨_, rfl, hp, hright⟩⟩
    · have hzero : s.flushes = 0 := by omega
      obtain ⟨hold, -, hlen⟩ := hinv.first hzero
      have hrows : n.rows input = newRows := by
        rw [hinv.split, hold, nil_append]
      have hcap : ¬ n.maxGroups < (n.probeKeys (n.rows input)).length := by
        rw [← hlen]
        exact not_lt.mpr hinv.cap
      rw [if_neg (fun h => hflush h.2), if_neg Bool.false_ne_true]
      have hiff := groupBy_table_iff hn hinv.table
      rw [← hrows] at hiff
      constructor
      · intro h
        obtain ⟨out, hout, hright⟩ := h
        cases hout
        exact ⟨hfull, .inr (.inr (hiff.mp hright.2))⟩
      · intro h
        have hexact := (h.2.resolve_left Bool.false_ne_true).resolve_left hcap
        exact ⟨_, rfl, hp, hiff.mpr hexact⟩

/-! ### An `oid` column and an `oid` constant -/

/-- `coalesce(o, 3000000000)` for the first column: the constant's Datum is not sign-extended. -/
def coalesceKey : GroupKey Datum where
  type := 26
  expr row := (row.getD 0 none).or (some 3000000000#64)
  eqFn a b := decide (a.setWidth 32 = b.setWidth 32)
  hashFn a := hashDatum (a.setWidth 32).toNat
  cmp a b := (a.setWidth 32).toNat - (b.setWidth 32).toNat

/-- `SELECT coalesce(o, 3000000000), sum(v) FROM t GROUP BY 1`, with `v` a `bigint`. -/
def coalesceNode (maxGroups : ℕ) : Node Datum where
  bits := id
  keys := [coalesceKey]
  aggs := [(⟨.sumInt8, 64⟩, some 1)]
  whereQual _ := true
  haveInt128 := true
  isPartial := false
  keysSortable := true
  maxGroups := maxGroups
  estimate := 200
  sort l := l.insertionSort fun x y => compareTuples [coalesceKey] x y ≤ 0

/-- `3000000000` as the scan reads it, and a null. -/
def coalesceRows : List (Row Datum) :=
  [[some (Fold.fetchAtt (Bytes.leBytes 4 3000000000) 4), some 1], [none, some 2]]

theorem exec_coalesceNode : (coalesceNode 1000000).exec coalesceRows = .ok (.values
    [([some 0xb2d05e00#64], [.int 2]), ([some 0xffffffffb2d05e00#64], [.int 1])]) := by
  decide +kernel

/-- **One key, two rows**: the column's Datum of `3000000000` is not the constant's. -/
theorem coalesceNode_incorrect : ¬ ∃ out, (coalesceNode 1000000).exec coalesceRows = .ok out ∧
      Correct (coalesceNode 1000000) ((coalesceNode 1000000).rows coalesceRows) out := by
  intro h
  obtain ⟨out, hout, hright⟩ := h
  rw [exec_coalesceNode] at hout
  cases hout
  have hdistinct := hright.2.distinct
  revert hdistinct
  decide

theorem coalesceKey_lawful : coalesceKey.Lawful id where
  equivalence := by
    unfold RelOf coalesceKey
    simp only [decide_eq_true_eq]
    exact ⟨fun _ => rfl, Eq.symm, Eq.trans⟩
  hash a b hab := by
    have hlow : a.setWidth 32 = b.setWidth 32 := of_decide_eq_true hab
    show hashDatum _ = hashDatum _
    rw [hlow]
  bits _ a b hab := decide_eq_true (congrArg (BitVec.setWidth 32) hab)

theorem coalesceKey_sortable : coalesceKey.Sortable where
  total := by
    have hkey : ∀ a b : Datum, (coalesceKey.cmp a b).sign =
        (((a.setWidth 32).toNat : ℤ) - ((b.setWidth 32).toNat : ℤ)).sign := fun _ _ => rfl
    exact Compare.totalCmp_of_key hkey
  eq_iff a b := by
    unfold coalesceKey
    rw [decide_eq_true_eq, sub_eq_zero, Nat.cast_inj, BitVec.toNat_inj]

theorem coalesceNode_planned {maxGroups : ℕ} (h : 1 ≤ maxGroups) :
    (coalesceNode maxGroups).Planned where
  lawful k hk := by
    obtain rfl := mem_singleton.mp hk
    exact coalesceKey_lawful
  capped := h
  sortable _ := by
    refine ⟨rfl, fun k hk => ?_⟩
    obtain rfl := mem_singleton.mp hk
    exact coalesceKey_sortable
  hasState h := by cases h
  sort_perm l := perm_insertionSort _ l
  sort_sorted l := by
    have hkeys : Compare.TotalCmp (compareKeys [coalesceKey]) := by
      apply totalCmp_compareKeys
      intro k hk
      obtain rfl := mem_singleton.mp hk
      exact coalesceKey_sortable
    have hseq : ∀ x y : MergeTuple Datum,
        ((x.seq : ℤ) - (y.seq : ℤ)).sign = ((x.seq : ℤ) - (y.seq : ℤ)).sign := fun _ _ => rfl
    have htotal : Compare.TotalCmp (compareTuples [coalesceKey]) :=
      (hkeys.comap MergeTuple.keys).lex (Compare.totalCmp_of_key hseq)
    have : Std.Total fun x y => compareTuples [coalesceKey] x y ≤ 0 := ⟨htotal.total⟩
    have : IsTrans _ fun x y => compareTuples [coalesceKey] x y ≤ 0 := ⟨htotal.trans⟩
    exact pairwise_insertionSort (fun x y => compareTuples [coalesceKey] x y ≤ 0) l

/-- With a cap of one group the merge joins what the probe took apart. -/
theorem exec_correct_iff_coalesceNode : ∃ out, (coalesceNode 1).exec coalesceRows = .ok out ∧
      Correct (coalesceNode 1) ((coalesceNode 1).rows coalesceRows) out := by
  refine (exec_correct_iff (coalesceNode_planned (le_refl 1)) coalesceRows).mpr ⟨?_, ?_⟩
  · intro hfull
    exact absurd hfull.1 (by decide)
  · right
    left
    decide +kernel

end PgColumnar.Group
