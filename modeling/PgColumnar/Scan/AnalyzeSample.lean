import Mathlib.Algebra.BigOperators.Group.List.Basic
import Mathlib.Algebra.GroupWithZero.Nat
import Mathlib.Data.List.Nodup
import Mathlib.Data.List.Pairwise
import Mathlib.Data.Nat.Basic
import Mathlib.Data.Option.Basic

/-!
# The sample of ANALYZE

ANALYZE samples blocks, in ascending order, and asks for the rows of each.  A block of a
columnar table stands for a slice of the rows of the row group whose bytes it holds.  One
reader serves all the slices of a group: it goes forward only, so the first row past a
slice is held back for a later one, and a gap in the row numbers is a row deleted.

## Main definitions

* `sample` — the slices of the blocks that were picked.

## Main results

* `sampleTuples_block` — one block.
* `sampled_iff` — exactly when each row is seen once.
-/

namespace PgColumnar.Analyze

open List Nat

/-! ## Row groups and slices -/

/-- A row of `row_group`, with the rows of its group. -/
structure RowGroup (α : Type) where
  groupNumber : ℕ
  fileOffset : ℕ
  byteLength : ℕ
  firstRowNumber : ℕ
  rows : List α
  deriving DecidableEq

/-- `COLUMNAR_BYTES_PER_PAGE`, which the block size of the server decides. -/
structure PageSize where
  bytes : ℕ
  pos : 0 < bytes

/-- 8 kB blocks. -/
def PageSize.default : PageSize := ⟨8168, by decide⟩

variable (P : PageSize)

/-- `COLUMNAR_PAGE_ROUND_UP` -/
def pageRoundUp (n : ℕ) : ℕ := (n + P.bytes - 1) / P.bytes * P.bytes

/-- `COLUMNAR_FIRST_LOGICAL_OFFSET` -/
def firstLogicalOffset : ℕ := 2 * P.bytes

variable {α : Type}

/-- The sampling state. -/
structure State (α : Type) where
  sliceFirstRow : ℕ
  sliceRows : ℕ
  sliceNext : ℕ
  sliceGroup : ℕ
  /-- What the reader has still to return, once there is one. -/
  rs : Option (List (ℕ × α))
  rsGroup : ℕ
  /-- A row that the reader has returned past the slice. -/
  pendingRow : Option (ℕ × α)

def State.init : State α := ⟨0, 0, 0, 0, none, 0, none⟩

def State.sliceEnd (st : State α) : ℕ := st.sliceFirstRow + st.sliceRows

/-- The number of slices of a group. -/
def sliceCount (g : RowGroup α) : ℕ :=
  if pageRoundUp P g.byteLength / P.bytes = 0 then 1 else pageRoundUp P g.byteLength / P.bytes

/-- The slice that stands for this offset. -/
def sliceIndex (g : RowGroup α) (logicalOffset : ℕ) : ℕ :=
  if sliceCount P g ≤ (logicalOffset - g.fileOffset) / P.bytes then sliceCount P g - 1
  else (logicalOffset - g.fileOffset) / P.bytes

/-- An edge of a slice, in `uint64`. -/
def sliceEdge (g : RowGroup α) (slice : ℕ) : ℕ :=
  g.rows.length * slice % 2 ^ 64 / sliceCount P g

/-- The tests of `pgcolumnar_analyze_set_slice` on a group. -/
def covers (logicalOffset : ℕ) (g : RowGroup α) : Bool :=
  decide (g.rows.length ≠ 0) && decide (g.fileOffset ≤ logicalOffset) &&
    decide (logicalOffset < g.fileOffset + pageRoundUp P g.byteLength)

/-- `pgcolumnar_analyze_set_slice` -/
def setSlice (rowGroups : List (RowGroup α)) (blockno : ℕ) (st : State α) : State α :=
  let st := { st with sliceFirstRow := 0, sliceRows := 0, sliceNext := 0 }
  if blockno * P.bytes < firstLogicalOffset P then st
  else match rowGroups.find? (covers P (blockno * P.bytes)) with
    | none => st
    | some g =>
      let slice := sliceIndex P g (blockno * P.bytes)
      { st with
        sliceFirstRow := g.firstRowNumber + sliceEdge P g slice
        sliceRows := sliceEdge P g (slice + 1) - sliceEdge P g slice
        sliceGroup := g.groupNumber }

/-! ## Rows -/

/-- The rows the reader returns from a group, with the row number of each.  `deleted` is the
delete mask, by group and position. -/
def liveRows (deleted : ℕ → ℕ → Bool) (g : RowGroup α) : List (ℕ × α) :=
  g.rows.zipIdx.filterMap fun r =>
    if deleted g.groupNumber r.2 then none else some (g.firstRowNumber + r.2, r.1)

/-- `PgColumnarBeginRead`, restricted to the group. -/
def beginRead (rowGroups : List (RowGroup α)) (deleted : ℕ → ℕ → Bool) (groupNumber : ℕ) :
    List (ℕ × α) :=
  (rowGroups.filter fun g => decide (g.groupNumber = groupNumber)).flatMap (liveRows deleted)

/-- The loop of `pgcolumnar_scan_analyze_next_tuple` over what is pending and what the reader
returns: the row offered, what is added to `deadrows`, and the state. -/
def nextTupleLoop (st : State α) : List (ℕ × α) → Option (ℕ × α) × ℕ × State α
  | [] =>
    -- the group is exhausted
    (none, st.sliceEnd - st.sliceFirstRow - st.sliceNext,
      { st with rs := some [], pendingRow := none, sliceNext := st.sliceRows })
  | r :: rest =>
    if r.1 < st.sliceFirstRow then nextTupleLoop st rest
    else if st.sliceEnd ≤ r.1 then
      (none, st.sliceEnd - st.sliceFirstRow - st.sliceNext,
        { st with rs := some rest, pendingRow := some r, sliceNext := st.sliceRows })
    else
      (some r, r.1 - st.sliceFirstRow - st.sliceNext,
        { st with rs := some rest, pendingRow := none, sliceNext := r.1 - st.sliceFirstRow + 1 })

/-- What the reader and the row held back have still to give. -/
def State.stream (st : State α) : List (ℕ × α) := st.pendingRow.toList ++ st.rs.getD []

/-- A slice in a new group needs a reader positioned on that group. -/
def State.position (rowGroups : List (RowGroup α)) (deleted : ℕ → ℕ → Bool) (st : State α) :
    State α :=
  if st.rs.isNone = true ∨ st.rsGroup ≠ st.sliceGroup then
    { st with
      rs := some (beginRead rowGroups deleted st.sliceGroup)
      rsGroup := st.sliceGroup
      pendingRow := none }
  else st

/-- `pgcolumnar_scan_analyze_next_tuple` -/
def nextTuple (rowGroups : List (RowGroup α)) (deleted : ℕ → ℕ → Bool) (st : State α) :
    Option (ℕ × α) × ℕ × State α :=
  if st.sliceRows = 0 then (none, 0, st)
  else nextTupleLoop (st.position rowGroups deleted) (st.position rowGroups deleted).stream

/-- What has been sampled: the rows offered, each of which `liverows` counts, and `deadrows`. -/
structure Sample (α : Type) where
  rows : List (ℕ × α)
  deadrows : ℕ
  state : State α

/-- Ask for the rows of a block until there are none, for so many times at most. -/
def sampleTuples (rowGroups : List (RowGroup α)) (deleted : ℕ → ℕ → Bool) :
    ℕ → State α → Option (Sample α)
  | 0, _ => none
  | fuel + 1, st =>
    match nextTuple rowGroups deleted st with
    | (none, dead, st') => some ⟨[], dead, st'⟩
    | (some r, dead, st') => (sampleTuples rowGroups deleted fuel st').map fun x =>
        ⟨r :: x.rows, dead + x.deadrows, x.state⟩

/-- The sample of a list of blocks. -/
def sample (rowGroups : List (RowGroup α)) (deleted : ℕ → ℕ → Bool) (fuel : ℕ) :
    List ℕ → State α → Option (Sample α)
  | [], st => some ⟨[], 0, st⟩
  | b :: bs, st =>
    (sampleTuples rowGroups deleted fuel (setSlice P rowGroups b st)).bind fun x =>
      (sample rowGroups deleted fuel bs x.state).map fun y =>
        ⟨x.rows ++ y.rows, x.deadrows + y.deadrows, y.state⟩

/-! ## The file -/

/-- The offset is in the footprint of the group: its data length, rounded up to a page. -/
def InFootprint (x : ℕ) (g : RowGroup α) : Prop :=
  g.fileOffset ≤ x ∧ x < g.fileOffset + pageRoundUp P g.byteLength

/-- The row groups of a table, and the length of its file.  Block numbers are of 32 bits, and
so is the limit on the rows of a group. -/
structure File (P : PageSize) (α : Type) where
  rowGroups : List (RowGroup α)
  nblocks : ℕ
  nblocks_lt : nblocks < 2 ^ 32
  rows_lt : ∀ g ∈ rowGroups, g.rows.length < 2 ^ 32
  numbers : (rowGroups.map (·.groupNumber)).Nodup
  first : ∀ g ∈ rowGroups, firstLogicalOffset P ≤ g.fileOffset
  within : ∀ g ∈ rowGroups, g.fileOffset + pageRoundUp P g.byteLength ≤ nblocks * P.bytes
  disjoint : rowGroups.Pairwise fun g h => ∀ x, ¬ (InFootprint P x g ∧ InFootprint P x h)

/-! ## What a block stands for -/

/-- The group of a block, and the positions of its rows from the first edge to the second. -/
def blockSlice (rowGroups : List (RowGroup α)) (b : ℕ) : Option (RowGroup α × ℕ × ℕ) :=
  if b * P.bytes < firstLogicalOffset P then none
  else (rowGroups.find? (covers P (b * P.bytes))).map fun g =>
    (g, sliceEdge P g (sliceIndex P g (b * P.bytes)),
      sliceEdge P g (sliceIndex P g (b * P.bytes) + 1))

/-- The live rows of a block's slice. -/
def liveOf (rowGroups : List (RowGroup α)) (deleted : ℕ → ℕ → Bool) (b : ℕ) : List (ℕ × α) :=
  match blockSlice P rowGroups b with
  | none => []
  | some (g, lo, hi) => (liveRows deleted g).filter fun r =>
      decide (g.firstRowNumber + lo ≤ r.1 ∧ r.1 < g.firstRowNumber + hi)

/-- The number of deleted rows of a block's slice. -/
def deadOf (rowGroups : List (RowGroup α)) (deleted : ℕ → ℕ → Bool) (b : ℕ) : ℕ :=
  match blockSlice P rowGroups b with
  | none => 0
  | some (g, lo, hi) => (List.range' lo (hi - lo)).countP fun i => deleted g.groupNumber i

/-- The positions of a group's rows that are in a block's slice. -/
def positionsIn (rowGroups : List (RowGroup α)) (g : RowGroup α) (b : ℕ) : List ℕ :=
  match blockSlice P rowGroups b with
  | none => []
  | some (h, lo, hi) => if h.groupNumber = g.groupNumber then List.range' lo (hi - lo) else []

/-! ## Going through a slice -/

variable {P}

/-- The row is in the slice. -/
def State.inSlice (st : State α) (r : ℕ × α) : Bool :=
  decide (st.sliceFirstRow ≤ r.1 ∧ r.1 < st.sliceEnd)

/-- The row is behind the slice. -/
def State.behind (st : State α) (r : ℕ × α) : Bool := decide (st.sliceEnd ≤ r.1)

/-- Row numbers go up. -/
def Ascending (rows : List (ℕ × α)) : Prop := rows.Pairwise fun r q => r.1 < q.1

/-- The slice is the same, and the reader is on its group. -/
structure Reads (st st' : State α) : Prop where
  firstRow : st'.sliceFirstRow = st.sliceFirstRow
  rows : st'.sliceRows = st.sliceRows
  group : st'.sliceGroup = st.sliceGroup
  rsGroup : st'.rsGroup = st.rsGroup
  rs : st'.rs.isSome = true

variable {st st' : State α} {rowGroups : List (RowGroup α)} {deleted : ℕ → ℕ → Bool} {r : ℕ × α}

theorem State.inSlice_iff : st.inSlice r = true ↔
    st.sliceFirstRow ≤ r.1 ∧ r.1 < st.sliceFirstRow + st.sliceRows :=
  decide_eq_true_iff

theorem State.behind_iff : st.behind r = true ↔ st.sliceFirstRow + st.sliceRows ≤ r.1 :=
  decide_eq_true_iff

theorem Reads.inSlice (h : Reads st st') : st'.inSlice = st.inSlice := by
  funext r
  unfold State.inSlice State.sliceEnd
  rw [h.firstRow, h.rows]

theorem Reads.behind (h : Reads st st') : st'.behind = st.behind := by
  funext r
  unfold State.behind State.sliceEnd
  rw [h.firstRow, h.rows]

theorem filter_eq_nil_of_ascending {rest : List (ℕ × α)} (h : Ascending (r :: rest))
    (hr : st.sliceEnd ≤ r.1) : (r :: rest).filter st.inSlice = [] ∧
      (r :: rest).filter st.behind = r :: rest := by
  have hall : ∀ q ∈ r :: rest, st.sliceEnd ≤ q.1 := by
    refine forall_mem_cons.mpr ⟨?_, fun q hq => hr.trans (le_of_lt (rel_of_pairwise_cons h hq))⟩
    exact hr
  constructor
  · rw [filter_eq_nil_iff]
    intro q hq hin
    have := (of_decide_eq_true hin).2
    have := hall q hq
    omega
  · rw [filter_eq_self]
    exact fun q hq => decide_eq_true (hall q hq)

/-- **The loop** stops at the end of the slice, with what is behind it left in the stream, or at
its next row. -/
theorem nextTupleLoop_spec {rows : List (ℕ × α)} (h : Ascending rows)
    (hnext : ∀ r ∈ rows, st.sliceFirstRow ≤ r.1 → st.sliceFirstRow + st.sliceNext ≤ r.1) :
    ∃ o dead st', nextTupleLoop st rows = (o, dead, st') ∧ Reads st st' ∧
      ((o = none ∧ rows.filter st.inSlice = [] ∧ dead = st.sliceRows - st.sliceNext ∧
          st'.stream = rows.filter st.behind) ∨
        ∃ r rest, o = some r ∧ rows.filter st.inSlice = r :: rest.filter st.inSlice ∧
          rows.filter st.behind = rest.filter st.behind ∧ st.inSlice r = true ∧
          Ascending (r :: rest) ∧ rest.length < rows.length ∧
          dead = r.1 - st.sliceFirstRow - st.sliceNext ∧
          st'.sliceNext = r.1 - st.sliceFirstRow + 1 ∧ st'.stream = rest) := by
  have hdead : st.sliceEnd - st.sliceFirstRow - st.sliceNext = st.sliceRows - st.sliceNext := by
    unfold State.sliceEnd
    omega
  induction rows with
  | nil =>
    refine ⟨none, _, _, rfl, ⟨rfl, rfl, rfl, rfl, rfl⟩, .inl ⟨rfl, rfl, hdead, rfl⟩⟩
  | cons r rest ih =>
    rw [nextTupleLoop]
    by_cases hbefore : r.1 < st.sliceFirstRow
    · rw [if_pos hbefore]
      have hin : ¬ st.inSlice r = true := by
        rw [State.inSlice_iff]
        omega
      have hbehind : ¬ st.behind r = true := by
        rw [State.behind_iff]
        omega
      rw [filter_cons_of_neg hin, filter_cons_of_neg hbehind]
      obtain ⟨o, dead, st', heq, hreads, hcase⟩ :=
        ih h.of_cons fun q hq => hnext q (mem_cons_of_mem r hq)
      refine ⟨o, dead, st', heq, hreads, hcase.imp_right ?_⟩
      intro hsome
      obtain ⟨q, rest', ho, hfilter, hbeh, hq, hasc, hlen, hd, hn, hs⟩ := hsome
      exact ⟨q, rest', ho, hfilter, hbeh, hq, hasc, lt_succ_of_lt hlen, hd, hn, hs⟩
    · rw [if_neg hbefore]
      by_cases hpast : st.sliceEnd ≤ r.1
      · -- the row is held back for a later slice
        rw [if_pos hpast]
        obtain ⟨hin, hbehind⟩ := filter_eq_nil_of_ascending h hpast
        exact ⟨none, _, _, rfl, ⟨rfl, rfl, rfl, rfl, rfl⟩, .inl ⟨rfl, hin, hdead, hbehind.symm⟩⟩
      · rw [if_neg hpast]
        have hin : st.inSlice r = true := by
          unfold State.sliceEnd at hpast
          rw [State.inSlice_iff]
          omega
        have hbehind : ¬ st.behind r = true := by
          unfold State.sliceEnd at hpast
          rw [State.behind_iff]
          omega
        refine ⟨some r, _, _, rfl, ⟨rfl, rfl, rfl, rfl, rfl⟩, .inr
          ⟨r, rest, rfl, ?_, ?_, hin, h, ?_⟩⟩
        · exact filter_cons_of_pos hin
        · exact filter_cons_of_neg hbehind
        · exact ⟨lt_succ_self _, rfl, rfl, rfl⟩

/-- The reader is on the group of the slice. -/
structure Positioned (st : State α) : Prop where
  rs : st.rs.isSome = true
  rsGroup : st.rsGroup = st.sliceGroup

theorem Positioned.position_eq (h : Positioned st) : st.position rowGroups deleted = st := by
  refine if_neg ?_
  rw [Option.isNone_iff_eq_none, ← Option.not_isSome_iff_eq_none, h.rs, h.rsGroup]
  simp

theorem positioned_position : Positioned (st.position rowGroups deleted) := by
  unfold State.position
  split
  · exact ⟨rfl, rfl⟩
  · next h =>
    rw [not_or, Option.isNone_iff_eq_none, ← Option.not_isSome_iff_eq_none] at h
    exact ⟨not_not.mp h.1, not_not.mp h.2⟩

theorem position_slice : (st.position rowGroups deleted).sliceFirstRow = st.sliceFirstRow ∧
    (st.position rowGroups deleted).sliceRows = st.sliceRows ∧
    (st.position rowGroups deleted).sliceNext = st.sliceNext ∧
    (st.position rowGroups deleted).sliceGroup = st.sliceGroup := by
  unfold State.position
  split
  · exact ⟨rfl, rfl, rfl, rfl⟩
  · exact ⟨rfl, rfl, rfl, rfl⟩

variable {fuel : ℕ}

/-- **The rows of a slice**, with the reader on its group: each is offered once, and what is
neither offered nor left is counted. -/
theorem sampleTuples_of_positioned (hpos : Positioned st) (hrows : st.sliceRows ≠ 0)
    (hasc : Ascending st.stream)
    (hnext : ∀ r ∈ st.stream, st.sliceFirstRow ≤ r.1 → st.sliceFirstRow + st.sliceNext ≤ r.1)
    (hle : st.sliceNext ≤ st.sliceRows) (hfuel : st.stream.length < fuel) :
    ∃ x, sampleTuples rowGroups deleted fuel st = some x ∧ x.rows = st.stream.filter st.inSlice ∧
      x.deadrows + x.rows.length = st.sliceRows - st.sliceNext ∧ Reads st x.state ∧
      x.state.stream = st.stream.filter st.behind := by
  induction fuel generalizing st with
  | zero => exact absurd hfuel (not_lt_zero _)
  | succ fuel ih =>
    obtain ⟨o, dead, st', heq, hreads, hcase⟩ := nextTupleLoop_spec hasc hnext
    have htuple : nextTuple rowGroups deleted st = (o, dead, st') := by
      rw [nextTuple, if_neg hrows, hpos.position_eq, heq]
    rw [sampleTuples, htuple]
    obtain ⟨rfl, hnil, hdead, hstream⟩ | ⟨r, rest, rfl, hin, hbehind, hr, hasc', hlen, hdead,
      hn, hs⟩ :=
      hcase
    · exact ⟨_, rfl, hnil.symm, hdead, hreads, hstream⟩
    · rw [State.inSlice_iff] at hr
      have hfirst := hnext r ?_ hr.1
      · obtain ⟨x, hx, hxrows, hxdead, hxreads, hxstream⟩ := @ih st'
          ⟨hreads.rs, by rw [hreads.rsGroup, hreads.group, hpos.rsGroup]⟩
          (by rwa [hreads.rows]) (by rw [hs]; exact hasc'.of_cons)
          (by
            intro q hq _
            rw [hs] at hq
            have := rel_of_pairwise_cons hasc' hq
            rw [hreads.firstRow, hn]
            omega)
          (by rw [hn, hreads.rows]; omega) (by rw [hs]; omega)
        rw [hs, hreads.inSlice] at hxrows
        rw [hs, hreads.behind] at hxstream
        refine ⟨⟨r :: x.rows, dead + x.deadrows, x.state⟩, ?_, ?_, ?_, ?_, ?_⟩
        · simp only [hx, Option.map_some]
        · rw [hin, hxrows]
        · simp only [length_cons]
          rw [hn, hreads.rows] at hxdead
          omega
        · exact ⟨hxreads.firstRow.trans hreads.firstRow, hxreads.rows.trans hreads.rows,
            hxreads.group.trans hreads.group, hxreads.rsGroup.trans hreads.rsGroup, hxreads.rs⟩
        · rw [hxstream, hbehind]
      · have hmem : r ∈ st.stream.filter st.inSlice := by
          rw [hin]
          exact mem_cons_self
        exact mem_of_mem_filter hmem

/-! ## The rows of a group -/

variable {g : RowGroup α}

theorem map_fst_liveRows : (liveRows deleted g).map (·.1) =
    ((List.range g.rows.length).filter fun i => !deleted g.groupNumber i).map
      (g.firstRowNumber + ·) := by
  have hrange : List.range g.rows.length = g.rows.zipIdx.map (·.2) := by
    rw [zipIdx_map_snd, range_eq_range']
  rw [hrange, ← filterMap_eq_map, ← filterMap_eq_map, ← filterMap_eq_filter,
    ← filterMap_eq_map, liveRows]
  simp only [filterMap_filterMap]
  refine filterMap_congr fun r _ => ?_
  cases h : deleted g.groupNumber r.2 <;> simp [h, Option.guard]

theorem ascending_liveRows : Ascending (liveRows deleted g) := by
  have h : ((liveRows deleted g).map (·.1)).Pairwise (· < ·) := by
    rw [map_fst_liveRows, pairwise_map]
    refine (pairwise_lt_range.filter _).imp ?_
    intro i j hij
    omega
  exact pairwise_map.mp h

theorem filter_range_eq {lo hi n : ℕ} (hlo : lo ≤ hi) (hhi : hi ≤ n) :
    ((List.range n).filter fun i => decide (lo ≤ i ∧ i < hi)) = List.range' lo (hi - lo) := by
  have hsplit : List.range n = List.range' 0 lo ++ (List.range' lo (hi - lo) ++
      List.range' hi (n - hi)) := by
    rw [range_eq_range']
    have h₁ := @range'_append_1 lo (hi - lo) (n - hi)
    have h₂ := @range'_append_1 0 lo (n - lo)
    rw [show lo + (hi - lo) = hi by omega, show hi - lo + (n - hi) = n - lo by omega] at h₁
    rw [Nat.zero_add, show lo + (n - lo) = n by omega] at h₂
    rw [h₁, h₂]
  have hin : ∀ i ∈ List.range' lo (hi - lo), decide (lo ≤ i ∧ i < hi) = true := by
    intro i hi'
    rw [mem_range'_1] at hi'
    exact decide_eq_true (by omega)
  have hbelow : ∀ i ∈ List.range' 0 lo, ¬ decide (lo ≤ i ∧ i < hi) = true := by
    intro i hi'
    rw [mem_range'_1] at hi'
    rw [decide_eq_true_iff]
    omega
  have habove : ∀ i ∈ List.range' hi (n - hi), ¬ decide (lo ≤ i ∧ i < hi) = true := by
    intro i hi'
    rw [mem_range'_1] at hi'
    rw [decide_eq_true_iff]
    omega
  rw [hsplit, filter_append, filter_append, filter_eq_nil_iff.mpr hbelow,
    filter_eq_nil_iff.mpr habove, filter_eq_self.mpr hin, nil_append, append_nil]

/-- A row of a slice is live or deleted. -/
theorem length_live_add_dead {lo hi : ℕ} (hlo : lo ≤ hi) (hhi : hi ≤ g.rows.length) :
    ((liveRows deleted g).filter fun r => decide (g.firstRowNumber + lo ≤ r.1 ∧
        r.1 < g.firstRowNumber + hi)).length +
      (List.range' lo (hi - lo)).countP (fun i => deleted g.groupNumber i) = hi - lo := by
  have hlive : ((liveRows deleted g).filter fun r => decide (g.firstRowNumber + lo ≤ r.1 ∧
      r.1 < g.firstRowNumber + hi)).length =
      (List.range' lo (hi - lo)).countP fun i => !deleted g.groupNumber i := by
    rw [← countP_eq_length_filter]
    have hmap := @countP_map _ _
      (fun n => decide (g.firstRowNumber + lo ≤ n ∧ n < g.firstRowNumber + hi))
      (fun r : ℕ × α => r.1)
      (liveRows deleted g)
    refine Eq.trans hmap.symm ?_
    rw [map_fst_liveRows, countP_map, countP_filter, ← filter_range_eq hlo hhi, countP_filter]
    refine countP_congr fun i _ => ?_
    simp only [Function.comp_apply, Bool.and_eq_true, decide_eq_true_eq]
    rw [and_comm]
    refine and_congr_right fun _ => ?_
    omega
  have hcount := @length_eq_countP_add_countP _ (fun i => deleted g.groupNumber i)
    (List.range' lo (hi - lo))
  have hnot : (List.range' lo (hi - lo)).countP (fun i => decide ¬ deleted g.groupNumber i = true) =
      (List.range' lo (hi - lo)).countP fun i => !deleted g.groupNumber i :=
    countP_congr fun i _ => by simp
  rw [length_range', hnot] at hcount
  omega

/-! ## The slices of a group -/

variable {x b : ℕ} {file : File P α}

theorem covers_iff : covers P x g = true ↔ g.rows.length ≠ 0 ∧ InFootprint P x g := by
  simp only [covers, InFootprint, Bool.and_eq_true, decide_eq_true_eq]
  exact and_assoc

/-- The pages of a footprint. -/
theorem pageRoundUp_eq (n : ℕ) : pageRoundUp P n = pageRoundUp P n / P.bytes * P.bytes := by
  unfold pageRoundUp
  rw [Nat.mul_div_cancel _ P.pos]

/-- An offset in the footprint is on one of its pages, and there is a page. -/
theorem sliceIndex_of_covers (h : InFootprint P x g) :
    sliceIndex P g x = (x - g.fileOffset) / P.bytes ∧
      (x - g.fileOffset) / P.bytes < sliceCount P g ∧
      sliceCount P g = pageRoundUp P g.byteLength / P.bytes := by
  have hlt : (x - g.fileOffset) / P.bytes < pageRoundUp P g.byteLength / P.bytes := by
    rw [Nat.div_lt_iff_lt_mul P.pos, ← pageRoundUp_eq]
    have := h.1
    have := h.2
    omega
  have hcount : sliceCount P g = pageRoundUp P g.byteLength / P.bytes := by
    refine if_neg fun h0 => ?_
    rw [h0] at hlt
    exact absurd hlt (not_lt_zero _)
  rw [← hcount] at hlt
  exact ⟨if_neg (not_le.mpr hlt), hlt, hcount⟩

theorem sliceCount_pos : 0 < sliceCount P g := by
  unfold sliceCount
  split
  · exact Nat.one_pos
  · next h => exact Nat.pos_of_ne_zero h

/-- A group spans no more slices than the file has blocks. -/
theorem sliceCount_le (hg : g ∈ file.rowGroups) : sliceCount P g ≤ 2 ^ 32 := by
  have hspan := file.within g hg
  rw [pageRoundUp_eq] at hspan
  have hle : pageRoundUp P g.byteLength / P.bytes ≤ file.nblocks :=
    Nat.le_of_mul_le_mul_right (Nat.le_of_add_left_le hspan) P.pos
  have hlt := file.nblocks_lt
  unfold sliceCount
  split
  · omega
  · omega

/-- The product of an edge is within `uint64`. -/
theorem sliceEdge_eq (hg : g ∈ file.rowGroups) {k : ℕ} (hk : k ≤ sliceCount P g) :
    sliceEdge P g k = g.rows.length * k / sliceCount P g := by
  have hlt : g.rows.length * k < 2 ^ 64 := by
    calc g.rows.length * k ≤ g.rows.length * 2 ^ 32 :=
          Nat.mul_le_mul_left _ (hk.trans (sliceCount_le hg))
      _ < 2 ^ 32 * 2 ^ 32 := Nat.mul_lt_mul_of_pos_right (file.rows_lt g hg) (by decide)
      _ = 2 ^ 64 := by decide
  rw [sliceEdge, mod_eq_of_lt hlt]

theorem sliceEdge_zero : sliceEdge P g 0 = 0 := by
  rw [sliceEdge, Nat.mul_zero, Nat.zero_mod, Nat.zero_div]

theorem sliceEdge_sliceCount (hg : g ∈ file.rowGroups) :
    sliceEdge P g (sliceCount P g) = g.rows.length := by
  rw [sliceEdge_eq hg (Nat.le_refl _), Nat.mul_div_cancel _ sliceCount_pos]

theorem sliceEdge_mono (hg : g ∈ file.rowGroups) {j k : ℕ} (hjk : j ≤ k)
    (hk : k ≤ sliceCount P g) : sliceEdge P g j ≤ sliceEdge P g k := by
  rw [sliceEdge_eq hg (hjk.trans hk), sliceEdge_eq hg hk]
  exact Nat.div_le_div_right (Nat.mul_le_mul_left _ hjk)

/-! ## The slices of blocks -/

/-- What is known of a block with a slice. -/
structure Stands (file : File P α) (b : ℕ) (g : RowGroup α) (lo hi : ℕ) : Prop where
  mem : g ∈ file.rowGroups
  rows : g.rows.length ≠ 0
  footprint : InFootprint P (b * P.bytes) g
  lo_eq : lo = sliceEdge P g ((b * P.bytes - g.fileOffset) / P.bytes)
  hi_eq : hi = sliceEdge P g ((b * P.bytes - g.fileOffset) / P.bytes + 1)

theorem stands_of_blockSlice {lo hi : ℕ}
    (h : blockSlice P file.rowGroups b = some (g, lo, hi)) : Stands file b g lo hi := by
  unfold blockSlice at h
  split_ifs at h
  obtain ⟨g', hfind, heq⟩ := Option.map_eq_some_iff.mp h
  cases heq
  have hcovers := covers_iff.mp (find?_some hfind)
  have hindex := (sliceIndex_of_covers hcovers.2).1
  exact ⟨mem_of_find?_eq_some hfind, hcovers.1, hcovers.2, by rw [hindex], by rw [hindex]⟩

variable {lo hi : ℕ}

theorem Stands.index_lt (h : Stands file b g lo hi) :
    (b * P.bytes - g.fileOffset) / P.bytes < sliceCount P g :=
  (sliceIndex_of_covers h.footprint).2.1

theorem Stands.lo_le_hi (h : Stands file b g lo hi) : lo ≤ hi := by
  rw [h.lo_eq, h.hi_eq]
  exact sliceEdge_mono h.mem (le_succ _) h.index_lt

theorem Stands.hi_le (h : Stands file b g lo hi) : hi ≤ g.rows.length := by
  rw [h.hi_eq, ← sliceEdge_sliceCount h.mem]
  exact sliceEdge_mono h.mem h.index_lt (Nat.le_refl _)

/-- The slice of a later block of the group begins where this one ends, or behind. -/
theorem Stands.hi_le_lo {b' lo' hi' : ℕ} (h : Stands file b g lo hi)
    (h' : Stands file b' g lo' hi') (hb : b < b') : hi ≤ lo' := by
  rw [h.hi_eq, h'.lo_eq]
  refine sliceEdge_mono h.mem ?_ (le_of_lt h'.index_lt)
  have hstep : b * P.bytes + P.bytes ≤ b' * P.bytes := by
    rw [← Nat.succ_mul]
    exact mul_le_mul_right _ hb
  have hoff := h.footprint.1
  calc (b * P.bytes - g.fileOffset) / P.bytes + 1
      = (b * P.bytes - g.fileOffset + P.bytes) / P.bytes := (add_div_right _ P.pos).symm
    _ ≤ (b' * P.bytes - g.fileOffset) / P.bytes := Nat.div_le_div_right (by omega)

/-- A number is that of one group. -/
theorem filter_groupNumber (hg : g ∈ file.rowGroups) :
    (file.rowGroups.filter fun h => decide (h.groupNumber = g.groupNumber)) = [g] := by
  have hnodup := file.numbers
  generalize file.rowGroups = groups at hg hnodup
  induction groups with
  | nil => cases hg
  | cons h groups ih =>
    rw [map_cons, nodup_cons] at hnodup
    rcases mem_cons.mp hg with rfl | hg
    · rw [filter_cons_of_pos (by simp), filter_eq_nil_iff.mpr]
      intro h hh heq
      exact hnodup.1 (mem_map.mpr ⟨h, hh, of_decide_eq_true heq⟩)
    · rw [filter_cons_of_neg, ih hg hnodup.2]
      intro heq
      exact hnodup.1 (mem_map.mpr ⟨g, hg, (of_decide_eq_true heq).symm⟩)

theorem eq_of_groupNumber {h : RowGroup α} (hg : g ∈ file.rowGroups) (hh : h ∈ file.rowGroups)
    (heq : h.groupNumber = g.groupNumber) : h = g :=
  inj_on_of_nodup_map file.numbers hh hg heq

/-! ## The rows of blocks -/

/-- The reader, if there is one, has what is left of its group, and has not gone past a slice of a
block from `b` on. -/
def Ahead (file : File P α) (deleted : ℕ → ℕ → Bool) (st : State α) (b : ℕ) : Prop :=
  st.rs.isSome = true → ∀ g ∈ file.rowGroups, g.groupNumber = st.rsGroup →
    ∃ c, st.stream = (liveRows deleted g).filter (fun r => decide (c ≤ r.1)) ∧
      ∀ b' lo hi, b ≤ b' → blockSlice P file.rowGroups b' = some (g, lo, hi) →
        c ≤ g.firstRowNumber + lo

theorem Ahead.init : Ahead file deleted State.init b := by
  intro h
  cases h

theorem setSlice_of_none (h : blockSlice P rowGroups b = none) :
    setSlice P rowGroups b st = { st with sliceFirstRow := 0, sliceRows := 0, sliceNext := 0 } := by
  unfold blockSlice at h
  unfold setSlice
  simp only
  split
  · rfl
  · next hoff =>
    rw [if_neg hoff, Option.map_eq_none_iff] at h
    rw [h]

theorem setSlice_of_some (h : blockSlice P rowGroups b = some (g, lo, hi)) :
    setSlice P rowGroups b st = { st with
      sliceFirstRow := g.firstRowNumber + lo
      sliceRows := hi - lo
      sliceNext := 0
      sliceGroup := g.groupNumber } := by
  unfold blockSlice at h
  split_ifs at h with hoff
  obtain ⟨g', hfind, heq⟩ := Option.map_eq_some_iff.mp h
  cases heq
  unfold setSlice
  simp only
  rw [if_neg hoff, hfind]

/-- A slice without rows leaves the reader alone. -/
theorem sampleTuples_of_empty (hrows : st.sliceRows = 0) :
    sampleTuples rowGroups deleted (fuel + 1) st = some ⟨[], 0, st⟩ := by
  rw [sampleTuples, nextTuple, if_pos hrows]

theorem sampleTuples_position (hrows : st.sliceRows ≠ 0) : sampleTuples rowGroups deleted fuel st =
      sampleTuples rowGroups deleted fuel (st.position rowGroups deleted) := by
  cases fuel with
  | zero => rfl
  | succ fuel =>
    have hrows' := @position_slice α st rowGroups deleted
    rw [sampleTuples, sampleTuples, nextTuple, nextTuple, if_neg hrows,
      if_neg (by rwa [hrows'.2.1]),
      positioned_position.position_eq]

/-- What is ahead of a block is ahead of the next, if the reader was not used. -/
theorem Ahead.unused (h : Ahead file deleted st b) (hrs : st'.rs = st.rs)
    (hgroup : st'.rsGroup = st.rsGroup) (hpending : st'.pendingRow = st.pendingRow) :
    Ahead file deleted st' (b + 1) := by
  intro hsome g hg hnum
  rw [hrs] at hsome
  rw [hgroup] at hnum
  obtain ⟨c, hstream, hc⟩ := h hsome g hg hnum
  refine ⟨c, ?_, fun b' lo hi hb => hc b' lo hi (le_of_succ_le hb)⟩
  rw [← hstream, State.stream, State.stream, hrs, hpending]

theorem length_liveRows_le : (liveRows deleted g).length ≤ g.rows.length := by
  have hle := length_filterMap_le (fun r : α × ℕ =>
    if deleted g.groupNumber r.2 then none else some (g.firstRowNumber + r.2, r.1)) g.rows.zipIdx
  rwa [length_zipIdx] at hle

/-- Where the reader is when a slice with rows is asked for. -/
theorem position_stream (h : Ahead file deleted st b)
    (hslice : blockSlice P file.rowGroups b = some (g, lo, hi)) :
    ∃ c, ((setSlice P file.rowGroups b st).position file.rowGroups deleted).stream =
        (liveRows deleted g).filter (fun r => decide (c ≤ r.1)) ∧ c ≤ g.firstRowNumber + lo := by
  have hg := (stands_of_blockSlice hslice).mem
  rw [setSlice_of_some hslice, State.position]
  split
  · -- a reader for this group
    refine ⟨0, ?_, zero_le _⟩
    rw [State.stream, Option.toList_none, nil_append, Option.getD_some, beginRead,
      filter_groupNumber hg, flatMap_singleton]
    exact (filter_eq_self.mpr fun r _ => decide_eq_true (zero_le _)).symm
  · next hold =>
    rw [not_or, Option.isNone_iff_eq_none, ← Option.not_isSome_iff_eq_none] at hold
    obtain ⟨c, hstream, hc⟩ := h (not_not.mp hold.1) g hg (not_not.mp hold.2).symm
    exact ⟨c, hstream, hc b lo hi (Nat.le_refl b) hslice⟩

/-- **One block**: its live rows are offered, its deleted rows are counted, and the reader has
not gone past a later slice. -/
theorem sampleTuples_block (hfuel : ∀ g ∈ file.rowGroups, g.rows.length < fuel)
    (hpos : 0 < fuel) (hahead : Ahead file deleted st b) :
    ∃ x, sampleTuples file.rowGroups deleted fuel (setSlice P file.rowGroups b st) = some x ∧
      x.rows = liveOf P file.rowGroups deleted b ∧
      x.deadrows = deadOf P file.rowGroups deleted b ∧ Ahead file deleted x.state (b + 1) := by
  obtain ⟨fuel, rfl⟩ := exists_eq_succ_of_ne_zero (ne_of_gt hpos)
  -- a block of no group, a slice without rows, or one with rows
  cases hslice : blockSlice P file.rowGroups b with
  | none =>
    rw [setSlice_of_none hslice, sampleTuples_of_empty rfl]
    exact ⟨_, rfl, by simp only [liveOf, hslice], by simp only [deadOf, hslice],
      hahead.unused rfl rfl rfl⟩
  | some s =>
    obtain ⟨g, lo, hi⟩ := s
    have hstands := stands_of_blockSlice hslice
    have hcount := @length_live_add_dead _ deleted g lo hi hstands.lo_le_hi hstands.hi_le
    have hliveOf : liveOf P file.rowGroups deleted b = (liveRows deleted g).filter fun r =>
        decide (g.firstRowNumber + lo ≤ r.1 ∧ r.1 < g.firstRowNumber + hi) := by
      simp only [liveOf, hslice]
    have hdeadOf : deadOf P file.rowGroups deleted b =
        (List.range' lo (hi - lo)).countP fun i => deleted g.groupNumber i := by
      simp only [deadOf, hslice]
    rw [← hliveOf, ← hdeadOf] at hcount
    by_cases hrows : hi - lo = 0
    · rw [setSlice_of_some hslice, sampleTuples_of_empty hrows]
      refine ⟨_, rfl, (eq_nil_of_length_eq_zero ?_).symm, ?_, hahead.unused rfl rfl rfl⟩
      · omega
      · simp only
        omega
    · -- the reader is put on the group, or goes on from where it stands
      obtain ⟨c, hstream, hc⟩ := position_stream hahead hslice
      obtain ⟨hfirst, hlen, hnext, hgroup⟩ :=
        @position_slice _ (setSlice P file.rowGroups b st) file.rowGroups deleted
      rw [setSlice_of_some hslice] at hfirst hlen hnext hgroup
      rw [sampleTuples_position (by rwa [setSlice_of_some hslice])]
      rw [setSlice_of_some hslice] at hstream ⊢
      have hpositioned := @positioned_position _ { st with
        sliceFirstRow := g.firstRowNumber + lo
        sliceRows := hi - lo
        sliceNext := 0
        sliceGroup := g.groupNumber } file.rowGroups deleted
      generalize State.position file.rowGroups deleted _ = st₂ at *
      simp only at hfirst hlen hnext hgroup
      obtain ⟨x, hx, hxrows, hxdead, hxreads, hxstream⟩ :=
        @sampleTuples_of_positioned _ st₂ file.rowGroups deleted (fuel + 1) hpositioned
          (by rwa [hlen]) (by rw [hstream]; exact ascending_liveRows.filter _)
          (by intro r _ hr; rwa [hnext]) (by rw [hnext]; exact zero_le _)
          (by
            rw [hstream]
            exact lt_of_le_of_lt (length_filter_le _ _)
              (lt_of_le_of_lt length_liveRows_le (hfuel g hstands.mem)))
      have hle := hstands.lo_le_hi
      have hin : x.rows = liveOf P file.rowGroups deleted b := by
        rw [hxrows, hstream, filter_filter, hliveOf]
        refine filter_congr fun r _ => ?_
        rw [Bool.eq_iff_iff, Bool.and_eq_true, State.inSlice_iff, hfirst, hlen, decide_eq_true_iff,
          decide_eq_true_iff]
        omega
      refine ⟨x, hx, hin, ?_, ?_⟩
      · rw [hin, hlen, hnext] at hxdead
        omega
      · -- what is left is behind the slice, so before no later slice of the group
        intro _ g' hg' hnum
        have heq : g' = g := by
          refine eq_of_groupNumber hstands.mem hg' ?_
          rw [hnum, hxreads.rsGroup, hpositioned.rsGroup, hgroup]
        subst heq
        refine ⟨g'.firstRowNumber + hi, ?_, ?_⟩
        · rw [hxstream, hstream, filter_filter]
          refine filter_congr fun r _ => ?_
          rw [Bool.eq_iff_iff, Bool.and_eq_true, State.behind_iff, hfirst, hlen,
            decide_eq_true_iff, decide_eq_true_iff]
          omega
        · intro b' lo' hi' hb hslice'
          have := hstands.hi_le_lo (stands_of_blockSlice hslice') hb
          omega

/-- **The sample of ascending blocks**: the live rows of their slices, each once, and the number
of the deleted rows. -/
theorem sample_eq {bs : List ℕ} (hfuel : ∀ g ∈ file.rowGroups, g.rows.length < fuel)
    (hpos : 0 < fuel) (hbs : bs.Pairwise (· < ·)) (hb : ∀ b' ∈ bs, b ≤ b')
    (hahead : Ahead file deleted st b) :
    ∃ st', sample P file.rowGroups deleted fuel bs st =
      some ⟨bs.flatMap (liveOf P file.rowGroups deleted),
        (bs.map (deadOf P file.rowGroups deleted)).sum, st'⟩ := by
  induction bs generalizing st b with
  | nil => exact ⟨st, rfl⟩
  | cons b₁ bs ih =>
    have hahead₁ : Ahead file deleted st b₁ := by
      intro hsome g hg hnum
      obtain ⟨c, hstream, hc⟩ := hahead hsome g hg hnum
      have hle := hb b₁ mem_cons_self
      exact ⟨c, hstream, fun b' lo hi hb' => hc b' lo hi (hle.trans hb')⟩
    obtain ⟨x, hx, hrows, hdead, hnext⟩ := sampleTuples_block hfuel hpos hahead₁
    obtain ⟨st', hst'⟩ := ih hbs.of_cons (fun b' hb' => rel_of_pairwise_cons hbs hb') hnext
    refine ⟨st', ?_⟩
    rw [sample, hx, Option.bind_some, hst', Option.map_some, hrows, hdead]
    rfl

/-! ## All blocks -/

/-- What ANALYZE is to find, whatever is deleted: the live rows of the blocks that it visits and
the number of their deleted rows; and by all blocks together, each position of each group once, so
that what is live and what is dead are all rows. -/
structure File.Sampled (file : File P α) : Prop where
  visited : ∀ deleted bs, bs.Pairwise (· < ·) → ∃ fuel st',
    sample P file.rowGroups deleted fuel bs State.init =
      some ⟨bs.flatMap (liveOf P file.rowGroups deleted),
        (bs.map (deadOf P file.rowGroups deleted)).sum, st'⟩
  partition : ∀ g ∈ file.rowGroups,
    (List.range file.nblocks).flatMap (positionsIn P file.rowGroups g) = List.range g.rows.length
  total : ∀ deleted, ∃ fuel x,
    sample P file.rowGroups deleted fuel (List.range file.nblocks) State.init = some x ∧
      x.rows.length + x.deadrows = (file.rowGroups.map (·.rows.length)).sum

/-- Adjacent intervals together. -/
theorem flatMap_edges {edge : ℕ → ℕ} {n : ℕ} (hmono : ∀ k < n, edge k ≤ edge (k + 1))
    (h0 : edge 0 = 0) :
    ((List.range n).flatMap fun k => List.range' (edge k) (edge (k + 1) - edge k)) =
      List.range (edge n) := by
  induction n with
  | zero => rw [h0]; rfl
  | succ n ih =>
    rw [range_succ, flatMap_append, ih fun k hk => hmono k (lt_succ_of_lt hk),
      flatMap_singleton, range_eq_range', range_eq_range']
    have hle := hmono n (lt_succ_self n)
    have happend := @range'_append_1 0 (edge n) (edge (n + 1) - edge n)
    rw [Nat.zero_add, Nat.add_sub_cancel' hle] at happend
    exact happend

/-- The block of an offset in a footprint has a slice of that group. -/
theorem blockSlice_of_footprint (hg : g ∈ file.rowGroups) (hrows : g.rows.length ≠ 0)
    (hx : InFootprint P (b * P.bytes) g) : blockSlice P file.rowGroups b =
      some (g, sliceEdge P g ((b * P.bytes - g.fileOffset) / P.bytes),
        sliceEdge P g ((b * P.bytes - g.fileOffset) / P.bytes + 1)) := by
  have hfirst := file.first g hg
  have hoff : ¬ b * P.bytes < firstLogicalOffset P := not_lt.mpr (hfirst.trans hx.1)
  have hsome : (file.rowGroups.find? (covers P (b * P.bytes))).isSome = true :=
    find?_isSome.mpr ⟨g, hg, covers_iff.mpr ⟨hrows, hx⟩⟩
  obtain ⟨h, hfind⟩ := Option.isSome_iff_exists.mp hsome
  have hh := (covers_iff.mp (find?_some hfind)).2
  have heq : h = g := by
    by_contra hne
    have hsymm : Std.Symm fun g h : RowGroup α =>
        ∀ x, ¬ (InFootprint P x g ∧ InFootprint P x h) := ⟨fun _ _ hd x hx => hd x hx.symm⟩
    exact file.disjoint.forall (mem_of_find?_eq_some hfind) hg hne _ ⟨hh, hx⟩
  rw [blockSlice, if_neg hoff, hfind, heq, Option.map_some, (sliceIndex_of_covers hx).1]

/-- Where no offset is in the footprint of the group, no position is. -/
theorem positionsIn_eq_nil (hg : g ∈ file.rowGroups)
    (hx : g.rows.length ≠ 0 → ¬ InFootprint P (b * P.bytes) g) :
    positionsIn P file.rowGroups g b = [] := by
  cases hslice : blockSlice P file.rowGroups b with
  | none => simp only [positionsIn, hslice]
  | some s =>
    obtain ⟨h, lo, hi⟩ := s
    have hstands := stands_of_blockSlice hslice
    simp only [positionsIn, hslice]
    refine if_neg fun heq => ?_
    have := eq_of_groupNumber hg hstands.mem heq
    subst this
    exact hx hstands.rows hstands.footprint

/-- The first block at or behind an offset. -/
def firstBlock (P : PageSize) (off : ℕ) : ℕ := (off + P.bytes - 1) / P.bytes

theorem le_mul_iff {off : ℕ} : off ≤ b * P.bytes ↔ firstBlock P off ≤ b := by
  have hpos := P.pos
  rw [firstBlock, ← Nat.lt_succ_iff (n := b), Nat.div_lt_iff_lt_mul hpos, Nat.succ_mul]
  omega

theorem mul_lt_iff {off : ℕ} {n : ℕ} :
    b * P.bytes < off + n * P.bytes ↔ b < firstBlock P off + n := by
  have hpos := P.pos
  have hadd : firstBlock P (off + n * P.bytes) = firstBlock P off + n := by
    unfold firstBlock
    rw [← add_mul_div_right _ _ hpos]
    congr 1
    omega
  rw [← not_le, le_mul_iff, hadd, not_le]

/-- The slice of the block so far behind the first. -/
theorem index_firstBlock {off : ℕ} {k : ℕ} :
    ((firstBlock P off + k) * P.bytes - off) / P.bytes = k := by
  have hle : off ≤ firstBlock P off * P.bytes := le_mul_iff.mpr (Nat.le_refl _)
  have hlt : firstBlock P off * P.bytes < off + 1 * P.bytes := mul_lt_iff.mpr (lt_succ_self _)
  refine Nat.div_eq_of_lt_le ?_ ?_
  · rw [Nat.add_mul]
    omega
  · rw [Nat.add_mul, Nat.succ_mul]
    omega

/-- **The slices of a group** are all its positions, if it has no rows or some bytes. -/
theorem partition_of_bytes (hg : g ∈ file.rowGroups)
    (hbytes : g.rows.length ≠ 0 → g.byteLength ≠ 0) :
    (List.range file.nblocks).flatMap (positionsIn P file.rowGroups g) =
      List.range g.rows.length := by
  by_cases hrows : g.rows.length = 0
  · rw [hrows, range_zero, flatMap_eq_nil_iff]
    exact fun b _ => positionsIn_eq_nil hg fun hne => absurd hrows hne
  obtain ⟨b₀, hb₀⟩ : ∃ b₀, b₀ = firstBlock P g.fileOffset := ⟨_, rfl⟩
  obtain ⟨n, hn⟩ : ∃ n, n = pageRoundUp P g.byteLength / P.bytes := ⟨_, rfl⟩
  have hspan : pageRoundUp P g.byteLength = n * P.bytes := by
    rw [hn]
    exact pageRoundUp_eq _
  have hpages : 0 < n := by
    have hP := P.pos
    have := hbytes hrows
    rw [hn, pageRoundUp, Nat.mul_div_cancel _ hP]
    exact div_pos (by omega) hP
  have hfoot : ∀ b, InFootprint P (b * P.bytes) g ↔ b₀ ≤ b ∧ b < b₀ + n := by
    intro b
    rw [InFootprint, hspan, hb₀, le_mul_iff, mul_lt_iff]
  have hlast : b₀ + n ≤ file.nblocks := by
    have hwithin := file.within g hg
    have hlt : (b₀ + n - 1) * P.bytes < g.fileOffset + n * P.bytes := by
      rw [mul_lt_iff, ← hb₀]
      omega
    rw [hspan] at hwithin
    have := Nat.lt_of_mul_lt_mul_right (hlt.trans_le hwithin)
    omega
  have hin : ∀ k < n, positionsIn P file.rowGroups g (b₀ + k) =
      List.range' (sliceEdge P g k) (sliceEdge P g (k + 1) - sliceEdge P g k) := by
    intro k hk
    have hx := (hfoot (b₀ + k)).mpr ⟨Nat.le_add_right _ _, Nat.add_lt_add_left hk _⟩
    have hslice := blockSlice_of_footprint hg hrows hx
    rw [hb₀, index_firstBlock, ← hb₀] at hslice
    simp only [positionsIn, hslice, if_true]
  have hout : ∀ b, ¬ (b₀ ≤ b ∧ b < b₀ + n) → positionsIn P file.rowGroups g b = [] := by
    intro b hb
    refine positionsIn_eq_nil hg fun _ hx => ?_
    exact hb ((hfoot b).mp hx)
  have hcount : sliceCount P g = n := by
    rw [sliceCount, ← hn]
    exact if_neg (ne_of_gt hpages)
  have hsplit : List.range file.nblocks = List.range b₀ ++ ((List.range n).map (b₀ + ·) ++
        (List.range (file.nblocks - (b₀ + n))).map (b₀ + n + ·)) := by
    have h₁ := @range_add b₀ n
    have h₂ := @range_add (b₀ + n) (file.nblocks - (b₀ + n))
    rw [Nat.add_sub_cancel' hlast] at h₂
    rw [h₂, h₁, append_assoc]
  have hbefore : (List.range b₀).flatMap (positionsIn P file.rowGroups g) = [] := by
    rw [flatMap_eq_nil_iff]
    intro b hb
    rw [mem_range] at hb
    exact hout b (by omega)
  have hafter : ((List.range (file.nblocks - (b₀ + n))).map (b₀ + n + ·)).flatMap
      (positionsIn P file.rowGroups g) = [] := by
    rw [flatMap_eq_nil_iff]
    intro b hb
    obtain ⟨k, -, rfl⟩ := mem_map.mp hb
    exact hout _ (by omega)
  rw [hsplit, flatMap_append, flatMap_append, hbefore, hafter, nil_append, append_nil, flatMap_map]
  have hedges : (List.range n).flatMap (fun k => positionsIn P file.rowGroups g (b₀ + k)) =
      (List.range n).flatMap fun k =>
        List.range' (sliceEdge P g k) (sliceEdge P g (k + 1) - sliceEdge P g k) :=
    flatMap_congr fun k hk => hin k (mem_range.mp hk)
  rw [hedges, flatMap_edges (fun k hk => sliceEdge_mono hg (le_succ k) (hcount.symm ▸ hk))
    sliceEdge_zero, ← hcount, sliceEdge_sliceCount hg]

theorem sum_map_sum_map {ι κ : Type*} (l : List ι) (l' : List κ) (f : ι → κ → ℕ) :
    (l.map fun i => (l'.map (f i)).sum).sum = (l'.map fun j => (l.map fun i => f i j).sum).sum := by
  induction l with
  | nil => simp
  | cons i l ih =>
    simp only [map_cons, sum_cons]
    rw [ih, sum_map_add]

theorem sum_map_ite {ι : Type*} (l : List ι) (p : ι → Bool) (c : ℕ) :
    (l.map fun i => if p i = true then c else 0).sum = (l.filter p).length * c := by
  induction l with
  | nil => simp
  | cons i l ih =>
    rw [map_cons, sum_cons, ih]
    cases hp : p i with
    | true =>
      rw [filter_cons_of_pos hp, length_cons, Nat.succ_mul, if_pos rfl, add_comm]
    | false => rw [filter_cons_of_neg (by simp [hp]), if_neg (by decide), Nat.zero_add]

/-- What is live and what is dead in a block's slice are its positions, in whatever group. -/
theorem live_add_dead (b : ℕ) : (liveOf P file.rowGroups deleted b).length +
    deadOf P file.rowGroups deleted b =
      (file.rowGroups.map fun g => (positionsIn P file.rowGroups g b).length).sum := by
  cases hslice : blockSlice P file.rowGroups b with
  | none => simp [liveOf, deadOf, positionsIn, hslice]
  | some s =>
    obtain ⟨h, lo, hi⟩ := s
    have hstands := stands_of_blockSlice hslice
    have hpos : ∀ g : RowGroup α, (positionsIn P file.rowGroups g b).length =
        if decide (g.groupNumber = h.groupNumber) = true then hi - lo else 0 := by
      intro g
      simp only [positionsIn, hslice, decide_eq_true_eq, eq_comm (a := g.groupNumber)]
      split
      · exact length_range'
      · rfl
    simp only [hpos, liveOf, deadOf, hslice]
    rw [length_live_add_dead hstands.lo_le_hi hstands.hi_le, sum_map_ite,
      filter_groupNumber hstands.mem]
    exact (one_mul _).symm

theorem total_of_bytes (hbytes : ∀ g ∈ file.rowGroups, g.rows.length ≠ 0 → g.byteLength ≠ 0) :
    ((List.range file.nblocks).map fun b => (liveOf P file.rowGroups deleted b).length +
        deadOf P file.rowGroups deleted b).sum =
      (file.rowGroups.map (·.rows.length)).sum := by
  simp only [live_add_dead]
  rw [sum_map_sum_map]
  refine congrArg List.sum (map_congr_left fun g hg => ?_)
  have hpart := congrArg List.length (partition_of_bytes hg (hbytes g hg))
  rw [length_flatMap, length_range] at hpart
  exact hpart

/-- **When ANALYZE sees each row once**: if no row group with rows has a footprint of no bytes.
Such a group, of a table without stored columns, is in no block. -/
theorem sampled_iff (file : File P α) :
    file.Sampled ↔ ∀ g ∈ file.rowGroups, g.rows ≠ [] → g.byteLength ≠ 0 := by
  constructor
  · intro h g hg hrows hbytes
    have hnil : (List.range file.nblocks).flatMap (positionsIn P file.rowGroups g) = [] := by
      rw [flatMap_eq_nil_iff]
      refine fun b _ => positionsIn_eq_nil hg fun _ hx => ?_
      have hlt := hx.2
      have hP := P.pos
      rw [hbytes, pageRoundUp, Nat.zero_add, Nat.div_eq_of_lt (by omega), Nat.zero_mul,
        add_zero] at hlt
      exact absurd hx.1 (not_le.mpr hlt)
    have hpart := h.partition g hg
    rw [hnil] at hpart
    have hlen := congrArg List.length hpart
    rw [length_range, length_nil] at hlen
    exact hrows (eq_nil_of_length_eq_zero hlen.symm)
  · intro h
    have hbytes : ∀ g ∈ file.rowGroups, g.rows.length ≠ 0 → g.byteLength ≠ 0 := by
      intro g hg hne
      exact h g hg fun hnil => hne (by rw [hnil, length_nil])
    obtain ⟨fuel, hpos, hfuel⟩ : ∃ fuel, 0 < fuel ∧ ∀ g ∈ file.rowGroups,
        g.rows.length < fuel := ⟨2 ^ 32, by decide, file.rows_lt⟩
    have hsample : ∀ deleted bs, bs.Pairwise (· < ·) → ∃ st',
        sample P file.rowGroups deleted fuel bs State.init =
          some ⟨bs.flatMap (liveOf P file.rowGroups deleted),
            (bs.map (deadOf P file.rowGroups deleted)).sum, st'⟩ := by
      intro deleted bs hbs
      exact sample_eq hfuel hpos hbs (fun b _ => zero_le b) Ahead.init
    refine ⟨fun deleted bs hbs => ⟨fuel, hsample deleted bs hbs⟩,
      fun g hg => partition_of_bytes hg (hbytes g hg), fun deleted => ?_⟩
    obtain ⟨st', hst'⟩ := hsample deleted (List.range file.nblocks) pairwise_lt_range
    refine ⟨fuel, _, hst', ?_⟩
    rw [← @total_of_bytes _ _ deleted _ hbytes, length_flatMap, ← sum_map_add]

/-- A table without columns, with one row. -/
def withoutColumns : File .default Unit where
  rowGroups := [⟨1, 16336, 0, 1, [()]⟩]
  nblocks := 2
  nblocks_lt := by decide
  rows_lt := by decide
  numbers := by decide
  first := by decide
  within := by decide
  disjoint := pairwise_singleton _ _

theorem not_sampled : ¬ ∀ file : File .default Unit, file.Sampled := by
  intro h
  have hpart := (h withoutColumns).partition _ (mem_singleton_self _)
  exact absurd hpart (by decide)

end PgColumnar.Analyze
